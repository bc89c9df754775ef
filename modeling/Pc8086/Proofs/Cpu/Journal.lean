import Pc8086.Proofs.Cpu.Iteration

namespace Pc8086

inductive BusCall where
  | read (a : UInt32)
  | write (a : UInt32) (v : UInt8)
  | input (w : Width) (port : UInt16)
  | output (w : Width) (port : UInt16) (v : UInt32)
  | acknowledge
  | acknowledgeHold
  | clockPulse
  deriving DecidableEq

structure Recorded (β : Type) where
  bus : β
  /-- The calls so far, the latest one first. -/
  latestFirst : List BusCall

namespace Recorded

variable {β α : Type}

/-- An access is recorded whether it succeeds or not. -/
def access (call : BusCall) (x : EStateM Fault β α) : EStateM Fault (Recorded β) α := fun s =>
  match x s.bus with
  | .ok a bus => .ok a ⟨bus, call :: s.latestFirst⟩
  | .error f bus => .error f ⟨bus, call :: s.latestFirst⟩

instance [Bus β] : Bus (Recorded β) where
  readByte a := access (.read a) (Bus.readByte a)
  writeByte a v := access (.write a v) (Bus.writeByte a v)
  input w port := access (.input w port) (Bus.input w port)
  output w port v := access (.output w port v) (Bus.output w port v)
  interruptRequested s := Bus.interruptRequested s.bus
  acknowledgeInterrupt s :=
    let (v, bus) := Bus.acknowledgeInterrupt s.bus
    (v, ⟨bus, .acknowledge :: s.latestFirst⟩)
  holdRequested s := Bus.holdRequested s.bus
  acknowledgeHold s := ⟨Bus.acknowledgeHold s.bus, .acknowledgeHold :: s.latestFirst⟩
  clockPulse s := ⟨Bus.clockPulse s.bus, .clockPulse :: s.latestFirst⟩

end Recorded

namespace Cpu

open Exec

variable {β : Type}

def recorded (s : System β) : System (Recorded β) :=
  ⟨s.cpu, ⟨s.bus, []⟩⟩

def erased (s : System (Recorded β)) : System β :=
  ⟨s.cpu, s.bus.bus⟩

def Tracks (s : System (Recorded β)) (t : System β) : Prop :=
  erased s = t

theorem agree_access {α : Type} {s : System (Recorded β)} {t : System β} (call : BusCall)
    (x : EStateM Fault β α) (h : Tracks s t) :
    Agree Tracks (onBus (Recorded.access call x) s) (onBus x t) := by
  subst h
  unfold onBus Recorded.access erased
  dsimp only
  cases x s.bus.bus with
  | ok a b => exact .ok a rfl
  | error e b => exact .error e rfl

theorem access_calls {α : Type} (call : BusCall) (x : EStateM Fault β α)
    (s : System (Recorded β)) :
    (final (onBus (Recorded.access call x) s)).bus.latestFirst = call :: s.bus.latestFirst := by
  unfold onBus Recorded.access
  dsimp only
  cases x s.bus.bus <;> rfl

theorem calls_after_access {α : Type} {call : BusCall} (x : EStateM Fault β α)
    {s : System (Recorded β)} {past : List BusCall} (hc : call ≠ .acknowledge)
    (h : ∃ more, s.bus.latestFirst = more ++ past ∧ .acknowledge ∉ more) :
    ∃ more, (final (onBus (Recorded.access call x) s)).bus.latestFirst = more ++ past ∧
      .acknowledge ∉ more := by
  obtain ⟨more, h, hn⟩ := h
  refine ⟨call :: more, by rw [access_calls, h, List.cons_append], ?_⟩
  rw [List.mem_cons, not_or]
  exact ⟨hc.symm, hn⟩

variable [Bus β]

section Erasure

variable {s : System (Recorded β)} {t : System β}

theorem tracks_simulation : Simulation Change (Tracks (β := β)) where
  cpu h := congrArg System.cpu h
  change _ h := by
    subst h
    rfl
  readByte _ h := agree_access _ _ h
  writeByte _ _ h := agree_access _ _ h
  input _ _ h := agree_access _ _ h
  output _ _ _ h := agree_access _ _ h

theorem Tracks.held_iff (h : Tracks s t) : Held s ↔ Held t := by
  subst h
  rfl

theorem Tracks.taken_iff (h : Tracks s t) : Taken s ↔ Taken t := by
  subst h
  rfl

theorem Tracks.delivered (h : Tracks s t) : Tracks (delivered s) (delivered t) := by
  subst h
  rfl

theorem Tracks.sampled (h : Tracks s t) : Tracks (sampled s) (sampled t) := by
  subst h
  rfl

theorem Tracks.retire (h : Tracks s t) : Tracks (retire s) (retire t) := by
  subst h
  rfl

theorem Tracks.serviceInterrupt (h : Tracks s t) :
    Agree Tracks (serviceInterrupt s) (serviceInterrupt t) := by
  by_cases ht : Taken t
  · rw [serviceInterrupt_of_taken (h.taken_iff.2 ht), serviceInterrupt_of_taken ht]
    have hv : (Bus.acknowledgeInterrupt s.bus).1 = (Bus.acknowledgeInterrupt t.bus).1 := by
      subst h
      rfl
    rw [hv]
    exact (uniform_enterVector _).simulates tracks_simulation h.delivered
  · rw [serviceInterrupt_of_not_taken (mt h.taken_iff.1 ht), serviceInterrupt_of_not_taken ht]
    exact .ok () h.sampled

theorem Tracks.instructionPhase (h : Tracks s t) :
    Agree Tracks (instructionPhase s) (instructionPhase t) := by
  subst h
  cases hh : s.cpu.halted with
  | true =>
    rw [instructionPhase_of_halted hh, instructionPhase_of_halted (s := erased s) hh]
    exact .ok () rfl
  | false =>
    rw [instructionPhase_of_running hh, instructionPhase_of_running (s := erased s) hh]
    exact (uniform_running _).simulates tracks_simulation rfl

theorem Tracks.iteration (h : Tracks s t) : Agree Tracks (iteration s) (iteration t) :=
  Agree.bind h.serviceInterrupt fun _ _ _ h => h.instructionPhase

theorem Tracks.recover (h : Tracks s t) (f : Fault) : Agree Tracks (recover f s) (recover f t) := by
  subst h
  cases hf : f.isFatal with
  | true =>
    rw [recover_of_fatal hf, recover_of_fatal hf]
    exact .error f rfl
  | false =>
    rw [recover_of_not_fatal hf, recover_of_not_fatal hf]
    exact (uniform_enterVectorIf s.cpu.divideErrorInterrupt 0).simulates tracks_simulation rfl

theorem Tracks.step (h : Tracks s t) : Agree Tracks (step s) (step t) := by
  by_cases ht : Held t
  · rw [step_of_held (h.held_iff.2 ht), step_of_held ht]
    subst h
    exact .ok () rfl
  · rw [step_of_not_held (mt h.held_iff.1 ht), step_of_not_held ht]
    have hi := h.iteration
    generalize Exec.iteration s = p at hi
    generalize Exec.iteration t = q at hi
    cases hi with
    | ok a h => exact .ok () h.retire
    | error f h => exact h.retire.recover f

end Erasure

def calls (s : System β) : List BusCall :=
  (final (step (recorded s))).bus.latestFirst.reverse

/-- No cycle is run but the one at the step's entry. -/
theorem interior_calls (past : List BusCall) :
    Interior fun s : System (Recorded β) =>
      ∃ more, s.bus.latestFirst = more ++ past ∧ .acknowledge ∉ more where
  change _ h := h
  readByte _ h := calls_after_access _ nofun h
  writeByte _ _ h := calls_after_access _ nofun h
  input _ _ h := calls_after_access _ nofun h
  output _ _ _ h := calls_after_access _ nofun h
  housekeeping _ _ _ h := h

theorem interior_pulsed :
    Interior fun s : System (Recorded β) => .clockPulse ∈ s.bus.latestFirst where
  change _ h := h
  readByte _ h := (access_calls _ _ _) ▸ List.mem_cons_of_mem _ h
  writeByte _ _ h := (access_calls _ _ _) ▸ List.mem_cons_of_mem _ h
  input _ _ h := (access_calls _ _ _) ▸ List.mem_cons_of_mem _ h
  output _ _ _ h := (access_calls _ _ _) ▸ List.mem_cons_of_mem _ h
  housekeeping _ _ _ h := h

variable {s : System β}

/-- An interrupt that is taken is acknowledged first of all, and once. -/
theorem calls_of_taken (hs : ¬Held s) (ht : Taken s) :
    ∃ rest, calls s = .acknowledge :: rest ∧ .acknowledge ∉ rest := by
  have hI := interior_calls (β := β) [.acknowledge]
  obtain ⟨more, h, hn⟩ := hI.step hI (s := recorded s)
    (fun s ⟨more, h, hn⟩ => ⟨.clockPulse :: more, congrArg _ h, by simpa using hn⟩) hs (.taken ht)
    ⟨[], rfl, List.not_mem_nil⟩
  refine ⟨more.reverse, ?_, by simpa using hn⟩
  rw [calls, h, List.reverse_append]
  rfl

theorem not_mem_calls_of_held (hs : Held s) : .acknowledge ∉ calls s := by
  have hc : calls s = [.acknowledgeHold, .clockPulse] := by
    rw [calls, step_of_held (s := recorded s) hs]
    rfl
  rw [hc]
  decide

theorem not_mem_calls_of_not_taken (hs : ¬Held s) (ht : ¬Taken s) : .acknowledge ∉ calls s := by
  have hI := interior_calls (β := β) []
  obtain ⟨more, h, hn⟩ := hI.step hI (s := recorded s)
    (fun s ⟨more, h, hn⟩ => ⟨.clockPulse :: more, congrArg _ h, by simpa using hn⟩) hs
    (.sampled ht) ⟨[], rfl, List.not_mem_nil⟩
  rw [calls, h]
  simpa using hn

theorem acknowledge_mem_calls_iff (s : System β) : .acknowledge ∈ calls s ↔ ¬Held s ∧ Taken s := by
  constructor
  · intro h
    have hs : ¬Held s := fun hs => not_mem_calls_of_held hs h
    exact ⟨hs, Classical.byContradiction fun ht => not_mem_calls_of_not_taken hs ht h⟩
  · rintro ⟨hs, ht⟩
    obtain ⟨rest, h, -⟩ := calls_of_taken hs ht
    rw [h]
    exact List.mem_cons_self

theorem clockPulse_mem_calls (hs : ¬Held s) : .clockPulse ∈ calls s := by
  have hI : Interior fun _ : System (Recorded β) => True :=
    interior_of_cpu (P := fun _ => True) (fun _ _ _ h => h) fun _ _ _ _ h => h
  obtain ⟨t, ht⟩ := exists_entry (recorded s)
  exact List.mem_reverse.2 (hI.step interior_pulsed (s := recorded s)
    (fun _ _ => List.mem_cons_self) hs ht trivial)

end Cpu

end Pc8086

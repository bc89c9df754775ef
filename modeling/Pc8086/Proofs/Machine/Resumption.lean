import Pc8086.Proofs.Machine.Boundary
import Pc8086.Snapshot.Basic

namespace Pc8086

open Cpu

variable {δ α : Type}

section Step

variable [Peripheral δ] {s t : System (Board δ)}

/-- Neither the devices on the board nor the answer to divide errors change inside a step. -/
theorem interior_built (σ : Board.Arrangement) (divides : Bool) :
    Interior fun s : System (Board δ) =>
      s.bus.arrangement = σ ∧ s.cpu.divideErrorInterrupt = divides where
  change hf h := by
    refine ⟨h.1, ?_⟩
    cases hf with
    | ordinary r p => exact h.2
    | enable r =>
      dsimp only
      split
      · exact h.2
      · exact h.2
    | halt => exact h.2
  readByte a h := by
    rw [final_access_arrangement (Board.plain_busReadByte a), final_onBus_cpu]
    exact h
  writeByte a v h := by
    rw [final_access_arrangement (Board.plain_busWriteByte a v), final_onBus_cpu]
    exact h
  input w port h := by
    rw [final_access_arrangement (Board.plain_ports.busInput w port), final_onBus_cpu]
    exact h
  output w port v h := by
    rw [final_access_arrangement (Board.plain_ports.busOutput w port v), final_onBus_cpu]
    exact h
  housekeeping _ _ _ h := h

theorem step_built (s : System (Board δ)) :
    (final (step s)).bus.arrangement = s.bus.arrangement ∧
      (final (step s)).cpu.divideErrorInterrupt = s.cpu.divideErrorInterrupt := by
  by_cases hs : Held s
  · rw [step_of_held hs]
    exact ⟨Board.clockPulse_arrangement (Bus.acknowledgeHold s.bus), rfl⟩
  · have hI := interior_built (δ := δ) s.bus.arrangement s.cpu.divideErrorInterrupt
    obtain ⟨t, ht⟩ := exists_entry s
    refine hI.step hI (fun t h => ⟨?_, h.2⟩) hs ht ?_
    · exact (Board.clockPulse_arrangement t.bus).trans h.1
    · cases ht with
      | taken ht => exact ⟨rfl, rfl⟩
      | sampled ht => exact ⟨rfl, rfl⟩

/-- Nothing inside a step records a fatal fault. -/
theorem keeps_fatalError {x : Exec (Board δ) α} (hx : Uniform Change (Board δ) (Board δ) x x)
    (s : System (Board δ)) : (final (x s)).cpu.fatalError = s.cpu.fatalError := by
  have hI : Invariant Change fun t : System (Board δ) => t.cpu.fatalError = s.cpu.fatalError := by
    refine invariant_of_cpu (P := fun c => c.fatalError = s.cpu.fatalError) fun f c hf h => ?_
    cases hf with
    | ordinary r p => exact h
    | enable r =>
      dsimp only
      split
      · exact h
      · exact h
    | halt => exact h
  exact hx.preserves hI rfl

theorem iteration_fatalError (s : System (Board δ)) :
    (final (Exec.iteration s)).cpu.fatalError = s.cpu.fatalError := by
  rw [iteration_eq]
  refine final_bind (I := fun t => t.cpu.fatalError = s.cpu.fatalError) ?_ fun _ t h => ?_
  · by_cases hs : Taken s
    · rw [serviceInterrupt_of_taken hs]
      exact keeps_fatalError (Exec.uniform_enterVector _) (delivered s)
    · rw [serviceInterrupt_of_not_taken hs]
      rfl
  · rw [← h]
    cases hh : t.cpu.halted with
    | true => rw [instructionPhase_of_halted hh]; rfl
    | false =>
      rw [instructionPhase_of_running hh]
      exact keeps_fatalError (uniform_running _) (begun t)

inductive Completes (s : System (Board δ)) : System (Board δ) → Prop where
  | held (h : Held s) : Completes s ⟨s.cpu, Bus.clockPulse (Bus.acknowledgeHold s.bus)⟩
  | done {u : System (Board δ)} (h : Exec.iteration s = .ok () u) : Completes s (retire u)
  | recovered {u t : System (Board δ)} {f : Fault} (h : Exec.iteration s = .error f u)
    (hf : f.isFatal = false) (ht : Exec.recover f (retire u) = .ok () t) : Completes s t

theorem completes_of_step (h : step s = .ok () t) : Completes s t := by
  by_cases hs : Held s
  · rw [step_of_held hs] at h
    cases h
    exact .held hs
  · rw [step_of_not_held hs] at h
    cases hi : Exec.iteration s with
    | ok a u =>
      rw [hi] at h
      cases h
      exact .done hi
    | error f u =>
      rw [hi] at h
      cases hf : f.isFatal with
      | true => cases (recover_of_fatal hf (retire u)).symm.trans h
      | false => exact .recovered hi hf h

/-- A step that reports no fault has recorded none. -/
theorem Completes.fatalError (h : Completes s t) : t.cpu.fatalError = s.cpu.fatalError := by
  have hiteration := iteration_fatalError s
  cases h with
  | held h => rfl
  | done h =>
    rw [h] at hiteration
    exact hiteration
  | @recovered u _ f h hf ht =>
    have hrecover := keeps_fatalError
      (Exec.uniform_enterVectorIf (retire u).cpu.divideErrorInterrupt 0)
      { retire u with cpu.prefixes := (retire u).cpu.prefixes.reset }
    rw [← recover_of_not_fatal hf, ht] at hrecover
    rw [h] at hiteration
    exact hrecover.trans hiteration

theorem step_fresh (hs : ¬Repeating s) (h : step s = .ok () t) : ¬Repeating t := by
  intro hr
  have hiff := step_repeating_iff hs
  rw [h] at hiff
  obtain ⟨u, f, v, hfetch, ha, hfatal⟩ := hiff.1 hr
  have hrecover := (hfetch.step_of_abandons ha).symm.trans h
  cases (recover_of_fatal hfatal (retire v)).symm.trans hrecover

end Step

namespace Machine

section Iterations

/-- The machines have the same future. -/
def Resumes (m t : Machine δ) : Prop :=
  Alongside Boundary m.system t.system

variable {m t : Machine δ}

theorem Resumes.capture (h : m.Resumes t) : Snapshot.capture t = Snapshot.capture m := by
  obtain ⟨s, _⟩ := m
  obtain ⟨s', _⟩ := t
  have h : Alongside Boundary s s' := h
  obtain ⟨⟨p, i, hp⟩, b, stop⟩ := h
  rfl

theorem traceInstruction_system (m : Machine δ) : m.traceInstruction.system = m.system := by
  unfold traceInstruction
  split <;> rfl

variable [Peripheral δ]

def after (m : Machine δ) : Nat → Machine δ
  | 0 => m
  | n + 1 => (m.after n).step.2

theorem Resumes.step (h : m.Resumes t) : t.step.1 = m.step.1 ∧ m.step.2.Resumes t.step.2 := by
  have hstep : Agree (Alongside Boundary) (Cpu.step m.traceInstruction.system)
      (Cpu.step t.traceInstruction.system) := by
    rw [traceInstruction_system, traceInstruction_system]
    exact blind_step _ _ h
  unfold Machine.step exec Resumes
  dsimp only
  generalize Cpu.step m.traceInstruction.system = p at hstep
  generalize Cpu.step t.traceInstruction.system = q at hstep
  cases hstep with
  | ok a h => exact ⟨rfl, h⟩
  | error f h => exact ⟨rfl, h⟩

theorem Resumes.after (h : m.Resumes t) (n : Nat) : (m.after n).Resumes (t.after n) := by
  induction n with
  | zero => exact h
  | succ n ih => exact ih.step.2

theorem Resumes.steps (h : m.Resumes t) (n : Nat) :
    (t.steps n).1 = (m.steps n).1 ∧ (m.steps n).2.Resumes (t.steps n).2 := by
  induction n generalizing m t with
  | zero => exact ⟨rfl, h⟩
  | succ n ih =>
    obtain ⟨hresult, hnext⟩ := h.step
    unfold Machine.steps
    generalize m.step = p at hresult hnext
    generalize t.step = q at hresult hnext
    obtain ⟨r, m'⟩ := p
    obtain ⟨r', t'⟩ := q
    obtain rfl := hresult
    cases r' with
    | ok a => exact ih hnext
    | error f => exact ⟨rfl, hnext⟩

end Iterations

section Construction

variable [Peripheral δ]

/-- A machine of the configuration without outside devices, in any state: its board has the devices
and ports it was built with, and the processor the configured answer to divide errors. -/
structure BuiltFrom (config : Config) (m : Machine δ) : Prop where
  arrangement : m.board.arrangement = (Board.ofConfig config : Board δ).arrangement
  divides : m.cpu.divideErrorInterrupt = config.divideErrorInterrupt

/-- The machine can come to be from its construction by loading images and programs, by steps that
report no fault, and by requests for a hold or the end of a run and whatever else concerns the
session. -/
inductive Reached (config : Config) : Machine δ → Prop where
  | built : Reached config (ofConfig config)
  | image {m : Machine δ} (h : Reached config m) (data : ByteArray) (a : SegmentedAddress) :
    Reached config (m.loadImage data a).2
  | program {m : Machine δ} (h : Reached config m) (data : ByteArray) :
    Reached config (m.loadProgram data).2
  | stepped {m : Machine δ} (h : Reached config m) (hs : m.step.1 = .ok ()) :
    Reached config m.step.2
  | attended {m : Machine δ} (h : Reached config m) (n : Nat) (stop : Bool) (session : Session) :
    Reached config
      ⟨⟨m.cpu, { m.board with holdPulses := n, stopRequested := stop }⟩, session⟩

/-- Between its instructions: no fatal fault has been recorded and no repetition is left over. -/
structure Rested (config : Config) (m : Machine δ) : Prop extends BuiltFrom config m where
  unfailed : m.cpu.fatalError = false
  fresh : ¬Repeating m.system

variable {config : Config} {m : Machine δ}

theorem step_system (m : Machine δ) : m.step.2.system = final (Cpu.step m.system) := by
  rw [← traceInstruction_system m]
  unfold Machine.step exec
  dsimp only
  cases Cpu.step m.traceInstruction.system <;> rfl

theorem step_ok_iff (m : Machine δ) :
    m.step.1 = .ok () ↔ Cpu.step m.system = .ok () m.step.2.system := by
  rw [step_system, ← traceInstruction_system m]
  unfold Machine.step exec
  dsimp only
  cases Cpu.step m.traceInstruction.system with
  | ok a s => exact iff_of_true rfl rfl
  | error f s => exact iff_of_false nofun nofun

/-- A step keeps it, also one that fails. -/
theorem BuiltFrom.step (h : m.BuiltFrom config) : m.step.2.BuiltFrom config := by
  obtain ⟨harrangement, hdivides⟩ := step_built m.system
  rw [← step_system] at harrangement hdivides
  exact ⟨harrangement.trans h.arrangement, hdivides.trans h.divides⟩

theorem Rested.step (h : m.Rested config) (hs : m.step.1 = .ok ()) : m.step.2.Rested config where
  toBuiltFrom := h.toBuiltFrom.step
  unfailed := (completes_of_step ((step_ok_iff m).1 hs)).fatalError.trans h.unfailed
  fresh := step_fresh h.fresh ((step_ok_iff m).1 hs)

theorem Rested.loadImage (h : m.Rested config) (data : ByteArray) (a : SegmentedAddress) :
    (m.loadImage data a).2.Rested config where
  arrangement := h.arrangement
  divides := h.divides
  unfailed := h.unfailed
  fresh := h.fresh

theorem Rested.loadProgram (h : m.Rested config) (data : ByteArray) :
    (m.loadProgram data).2.Rested config := by
  have hi := h.loadImage data m.session.config.program
  unfold Machine.loadProgram
  dsimp only
  generalize m.loadImage data m.session.config.program = p at hi
  obtain ⟨r, m⟩ := p
  cases r with
  | error f => exact hi
  | ok a => exact ⟨⟨hi.arrangement, hi.divides⟩, hi.unfailed, hi.fresh⟩

theorem Reached.rested (h : Reached config m) : m.Rested config := by
  induction h with
  | built => exact ⟨⟨rfl, rfl⟩, rfl, Bool.false_ne_true⟩
  | image _ data a ih => exact ih.loadImage data a
  | program _ data ih => exact ih.loadProgram data
  | stepped _ hs ih => exact ih.step hs
  | attended _ n stop session ih => exact ⟨⟨ih.arrangement, ih.divides⟩, ih.unfailed, ih.fresh⟩

end Construction

section Restoration

inductive Sole : List (Component δ) → List (Component δ) → Prop where
  | none : Sole [] []
  | timer (t t' : Timer.IntervalTimer) : Sole [.timer t] [.timer t']

theorem exists_timer {cs : List (Component δ)} (h : (cs.map fun c => c.timer?.isSome) = [true]) :
    ∃ t, cs = [.timer t] := by
  obtain ⟨c, rfl, hc⟩ := List.map_eq_singleton_iff.1 h
  cases c with
  | timer t => exact ⟨t, rfl⟩
  | card d => cases hc

variable [Peripheral δ] {config : Config} {m m' : Machine δ}

theorem ofConfig_timers (config : Config) :
    (Board.ofConfig config : Board δ).arrangement.timers =
      if config.timerEnabled then [true] else [] := by
  unfold Board.ofConfig
  cases config.timerEnabled with
  | false => rfl
  | true => rfl

theorem BuiltFrom.sole (h : m.BuiltFrom config) (h' : m'.BuiltFrom config) :
    Sole m.board.components m'.board.components := by
  have ht := (congrArg Board.Arrangement.timers h.arrangement).trans (ofConfig_timers config)
  have ht' := (congrArg Board.Arrangement.timers h'.arrangement).trans (ofConfig_timers config)
  cases hc : config.timerEnabled with
  | false =>
    rw [hc] at ht ht'
    rw [List.map_eq_nil_iff.1 ht, List.map_eq_nil_iff.1 ht']
    exact .none
  | true =>
    rw [hc] at ht ht'
    obtain ⟨t, hm⟩ := exists_timer ht
    obtain ⟨t', hm'⟩ := exists_timer ht'
    rw [hm, hm']
    exact .timer t t'

/-- What a snapshot leaves out stands on the board from its construction, or does not matter. -/
theorem restore_board (h : m.BuiltFrom config) (h' : m'.BuiltFrom config)
    (hold : m.board.holdPulses = m'.board.holdPulses) :
    ((Snapshot.capture m).restore m').board = m.board.withStop m'.board.stopRequested := by
  have harrangement := h'.arrangement.trans h.arrangement.symm
  have howners := congrArg Board.Arrangement.owners harrangement
  have hignore := congrArg Board.Arrangement.ignoreUnknownPorts harrangement
  have hsole := h.sole h'
  obtain ⟨⟨c, memory, controller, components, owners, pulses, ignore, stop⟩, session⟩ := m
  obtain ⟨⟨c', memory', controller', components', owners', pulses', ignore', stop'⟩, session'⟩ := m'
  obtain rfl : owners' = owners := howners
  obtain rfl : ignore' = ignore := hignore
  obtain rfl : pulses = pulses' := hold
  have hsole : Sole components components' := hsole
  cases hsole with
  | none => rfl
  | timer t t' => rfl

theorem restore_cpu (h : m.Rested config) (h' : m'.BuiltFrom config) :
    ((Snapshot.capture m).restore m').cpu =
      { m.cpu with prefixes := {}, instructionStart := m'.cpu.instructionStart } := by
  have hunfailed := h.unfailed
  have hdivides := h'.divides.trans h.divides.symm
  obtain ⟨⟨⟨registers, prefixes, latch, halted, fatal, divides, count, start⟩, b⟩, session⟩ := m
  obtain ⟨⟨⟨registers', prefixes', latch', halted', fatal', divides', count', start'⟩, b'⟩,
    session'⟩ := m'
  obtain rfl : fatal = false := hunfailed
  obtain rfl : divides' = divides := hdivides
  rfl

/-- A machine that takes over a snapshot has the future of the machine it was taken from. -/
theorem Rested.resumes (h : m.Rested config) (h' : m'.BuiltFrom config)
    (hold : m.board.holdPulses = m'.board.holdPulses) :
    m.Resumes ((Snapshot.capture m).restore m') := by
  have hcpu := restore_cpu h h'
  have hboard := restore_board h.toBuiltFrom h' hold
  have hfresh : m.cpu.prefixes.isRepeating = false := Bool.eq_false_iff.2 h.fresh
  have hcarried : ({} : Prefixes).carried = m.cpu.prefixes.carried := by
    unfold Prefixes.carried
    rw [hfresh]
    rfl
  unfold Resumes
  generalize (Snapshot.capture m).restore m' = r at hcpu hboard
  obtain ⟨⟨c, b⟩, session⟩ := r
  obtain rfl : c = _ := hcpu
  obtain rfl : b = _ := hboard
  exact .intro (.intro {} m'.cpu.instructionStart hcarried) m.board m'.board.stopRequested

/-- Snapshots are transparent. A machine of the same configuration that takes over a snapshot makes
the same steps as the machine it was taken from, with the same results, and agrees with it after
each of them in all that a snapshot keeps: registers, instruction count, halt, latch, interrupt
controller, timer and memory. -/
theorem restore_transparent (h : Reached config m) (hold : m.board.holdPulses = 0)
    (h' : m'.BuiltFrom config) (hold' : m'.board.holdPulses = 0) :
    let r := (Snapshot.capture m).restore m'
    (∀ n, (r.after n).step.1 = (m.after n).step.1 ∧
      Snapshot.capture (r.after n) = Snapshot.capture (m.after n)) ∧
    ∀ n, (r.steps n).1 = (m.steps n).1 ∧
      Snapshot.capture (r.steps n).2 = Snapshot.capture (m.steps n).2 := by
  intro r
  have hr : m.Resumes r := h.rested.resumes h' (hold.trans hold'.symm)
  exact ⟨fun n => ⟨(hr.after n).step.1, (hr.after n).capture⟩,
    fun n => ⟨(hr.steps n).1, (hr.steps n).2.capture⟩⟩

/-- A machine of 64 bytes of memory and a timer that interrupts every other pulse. -/
def smallConfig : Config where
  memorySize := 64
  timerDivisor := 2
  program := ⟨0, 0⟩

/-- A repeated store of three bytes, which a snapshot interrupts after the first, is finished by
another machine, whose run was to end. -/
theorem store_resumed :
    let fresh : Machine ExpansionCard := ofConfig smallConfig
    let loaded := (fresh.loadProgram ⟨#[0xB9, 0x03, 0x00, 0xF3, 0xAA, 0xEB, 0xFE]⟩).2
    let m := loaded.after 2
    let r := (Snapshot.capture m).restore fresh.stop
    m.cpu.registers.ecx = 2 ∧ ∀ n, (r.after n).step.1 = (m.after n).step.1 ∧
      Snapshot.capture (r.after n) = Snapshot.capture (m.after n) := by
  intro fresh loaded m r
  have hloaded : Reached smallConfig loaded := .program .built _
  have hok : ∀ {result : Except Fault Unit}, result.isOk = true → result = .ok () := by
    rintro (f | a) h
    · cases h
    · rfl
  have hm : Reached smallConfig m :=
    (hloaded.stepped (hok (by decide +kernel))).stepped (hok (by decide +kernel))
  have hfresh : fresh.stop.BuiltFrom smallConfig := ⟨rfl, rfl⟩
  exact ⟨by decide +kernel, (restore_transparent hm (by decide +kernel) hfresh rfl).1⟩

end Restoration

end Machine

end Pc8086

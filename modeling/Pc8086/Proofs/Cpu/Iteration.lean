import Pc8086.Proofs.Cpu.UniformInstructions

namespace Pc8086.Cpu

open Exec

section Entry

variable {β : Type}

variable [Bus β]

/-- Another master has the bus, so that only the clock goes on. -/
def Held (s : System β) : Prop :=
  Bus.holdRequested s.bus = true

def Requested (s : System β) : Prop :=
  Bus.interruptRequested s.bus = true

def Taken (s : System β) : Prop :=
  s.cpu.latch = .waited ∧ Requested s ∧ s.cpu.registers.flags.interrupt = true

def sampled (s : System β) : System β :=
  { s with cpu.latch := (s.cpu.latch.sample (Bus.interruptRequested s.bus)).2 }

def delivered (s : System β) : System β where
  cpu := { s.cpu with latch := .idle, halted := false, prefixes := s.cpu.prefixes.reset }
  bus := (Bus.acknowledgeInterrupt s.bus).2

theorem serviceInterrupt_eq (s : System β) :
    serviceInterrupt s =
      if (s.cpu.latch.sample (Bus.interruptRequested s.bus)).1 && s.cpu.registers.flags.interrupt
      then enterVector (Bus.acknowledgeInterrupt s.bus).1 (delivered s)
      else .ok () (sampled s) := by
  unfold serviceInterrupt
  rw [run_get, run_cpu]
  dsimp only
  rw [run_modifyCpu, run_registers]
  split <;> rfl

theorem taken_iff (s : System β) :
    Taken s ↔ ((s.cpu.latch.sample (Bus.interruptRequested s.bus)).1 &&
      s.cpu.registers.flags.interrupt) = true := by
  unfold Taken Requested RequestLatch.sample
  cases s.cpu.latch <;> cases Bus.interruptRequested s.bus <;> simp

theorem serviceInterrupt_of_taken {s : System β} (h : Taken s) :
    serviceInterrupt s = enterVector (Bus.acknowledgeInterrupt s.bus).1 (delivered s) := by
  rw [serviceInterrupt_eq, if_pos ((taken_iff s).1 h)]

theorem serviceInterrupt_of_not_taken {s : System β} (h : ¬Taken s) :
    serviceInterrupt s = .ok () (sampled s) := by
  rw [serviceInterrupt_eq, if_neg (mt (taken_iff s).2 h)]

/-- Where the step begins its instruction: behind the acknowledge cycle, if there was one. -/
inductive Entry (s : System β) : System β → Prop where
  | taken (h : Taken s) : Entry s (delivered s)
  | sampled (h : ¬Taken s) : Entry s (sampled s)

theorem exists_entry (s : System β) : ∃ t, Entry s t := by
  by_cases h : Taken s
  · exact ⟨_, .taken h⟩
  · exact ⟨_, .sampled h⟩

def instructionPhase : Exec β Unit := do
  if !(← Exec.cpu).halted then
    beginInstruction
    let trap := (← Exec.registers).flags.trap
    runInstruction none segmentSize
    if trap then enterVector 1

theorem iteration_eq :
    (iteration : Exec β Unit) = serviceInterrupt >>= fun _ => instructionPhase := rfl

def begun (s : System β) : System β :=
  { s with
    cpu.prefixes := if s.cpu.prefixes.isRepeating then s.cpu.prefixes else s.cpu.prefixes.reset
    cpu.instructionStart := s.cpu.registers.ip }

theorem instructionPhase_of_halted {s : System β} (h : s.cpu.halted = true) :
    instructionPhase s = .ok () s := by
  unfold instructionPhase
  rw [run_cpu, h]
  rfl

theorem instructionPhase_of_running {s : System β} (h : s.cpu.halted = false) :
    instructionPhase s =
      (runInstruction none segmentSize >>= fun _ =>
        if s.cpu.registers.flags.trap then enterVector 1 else pure ()) (begun s) := by
  unfold instructionPhase
  rw [run_cpu, h]
  rfl

theorem iteration_of_halted {s : System β} (ht : ¬Taken s) (h : s.cpu.halted = true) :
    iteration s = .ok () (sampled s) := by
  have hs : (sampled s).cpu.halted = true := h
  rw [iteration_eq, bind_ok _ (serviceInterrupt_of_not_taken ht), instructionPhase_of_halted hs]

theorem recover_of_fatal {f : Fault} (hf : f.isFatal = true) (s : System β) :
    recover f s = .error f { s with cpu.fatalError := true } := by
  unfold recover
  rw [hf]
  rfl

theorem recover_of_not_fatal {f : Fault} (hf : f.isFatal = false) (s : System β) :
    recover f s =
      (if s.cpu.divideErrorInterrupt then enterVector 0 else pure () : Exec β Unit)
        { s with cpu.prefixes := s.cpu.prefixes.reset } := by
  unfold recover
  rw [hf]
  rfl

theorem uniform_running {γ : Type} [Bus γ] (trap : Bool) :
    Uniform Change β γ
      (runInstruction none segmentSize >>= fun _ => if trap then enterVector 1 else pure ())
      (runInstruction none segmentSize >>= fun _ => if trap then enterVector 1 else pure ()) :=
  .bind (uniform_runInstruction none segmentSize) fun _ => uniform_enterVectorIf trap 1

end Entry

section Interior

variable {β : Type} [Bus β]

/-- A property that nothing in a step breaks between its entry and its clock pulse, and nothing
behind the pulse. -/
structure Interior (I : System β → Prop) : Prop extends Invariant Change I where
  housekeeping {s} (p : Prefixes) (i : UInt16) (e : Bool) (h : I s) :
    I { s with cpu := { s.cpu with prefixes := p, instructionStart := i, fatalError := e } }

variable {I J : System β → Prop} {s t : System β}

theorem Interior.instructionPhase (hI : Interior I) (h : I s) : I (final (instructionPhase s)) := by
  cases hh : s.cpu.halted with
  | true =>
    rw [instructionPhase_of_halted hh]
    exact h
  | false =>
    rw [instructionPhase_of_running hh]
    have hb : I (begun s) := hI.housekeeping _ _ s.cpu.fatalError h
    exact (uniform_running _).preserves hI.toInvariant hb

theorem Interior.iteration (hI : Interior I) (ht : Entry s t) (h : I t) :
    I (final (iteration s)) := by
  rw [iteration_eq]
  refine final_bind ?_ fun _ _ => hI.instructionPhase
  cases ht with
  | taken ht =>
    rw [serviceInterrupt_of_taken ht]
    exact (uniform_enterVector _).preserves hI.toInvariant h
  | sampled ht =>
    rw [serviceInterrupt_of_not_taken ht]
    exact h

theorem Interior.recover (hI : Interior I) (f : Fault) (h : I s) : I (final (recover f s)) := by
  cases hf : f.isFatal with
  | true =>
    rw [recover_of_fatal hf]
    exact hI.housekeeping s.cpu.prefixes s.cpu.instructionStart true h
  | false =>
    have hp := hI.housekeeping s.cpu.prefixes.reset s.cpu.instructionStart s.cpu.fatalError h
    rw [recover_of_not_fatal hf]
    exact (uniform_enterVectorIf _ 0).preserves hI.toInvariant hp

theorem step_of_held (h : Held s) :
    step s = .ok () ⟨s.cpu, Bus.clockPulse (Bus.acknowledgeHold s.bus)⟩ :=
  if_pos h

theorem step_of_not_held (h : ¬Held s) :
    step s =
      match iteration s with
      | .ok () s => .ok () (retire s)
      | .error f s => recover f (retire s) :=
  if_neg h

theorem Interior.close (hJ : Interior J) (hr : ∀ s, I s → J (retire s)) (hs : ¬Held s)
    (h : I (final (Exec.iteration s))) : J (final (step s)) := by
  rw [step_of_not_held hs]
  generalize Exec.iteration s = p at h
  cases p with
  | ok a s => exact hr s h
  | error f s => exact hJ.recover f (hr s h)

/-- What holds from the entry to the pulse and what, on that account, holds behind it. -/
theorem Interior.step (hI : Interior I) (hJ : Interior J) (hr : ∀ s, I s → J (retire s))
    (hs : ¬Held s) (ht : Entry s t) (h : I t) : J (final (step s)) :=
  hJ.close hr hs (hI.iteration ht h)

end Interior

section Latch

variable {β : Type} [Bus β] {s t : System β}

theorem interior_of_cpu {P : Cpu → Prop} (hc : ∀ f c, Change f → P c → P (f c))
    (hk : ∀ c p i e, P c → P { c with prefixes := p, instructionStart := i, fatalError := e }) :
    Interior fun s : System β => P s.cpu where
  toInvariant := invariant_of_cpu hc
  housekeeping p i e h := hk _ p i e h

theorem interior_latch (l : RequestLatch) :
    Interior fun s : System β => s.cpu.latch = l ∨ s.cpu.latch = .idle := by
  refine interior_of_cpu (P := fun c => c.latch = l ∨ c.latch = .idle) ?_ fun _ _ _ _ h => h
  intro f c hf h
  cases hf with
  | ordinary r p => exact h
  | enable r =>
    dsimp only
    split
    · exact h
    · exact .inr rfl
  | halt => exact h

theorem interior_halted : Interior fun s : System β => s.cpu.halted = true := by
  refine interior_of_cpu (P := fun c => c.halted = true) ?_ fun _ _ _ _ h => h
  intro f c hf h
  cases hf with
  | ordinary r p => exact h
  | enable r =>
    dsimp only
    split
    · exact h
    · exact h
  | halt => rfl

theorem retire_latch (l : RequestLatch) (s : System β)
    (h : s.cpu.latch = l ∨ s.cpu.latch = .idle) :
    (retire s).cpu.latch = l.retire ∨ (retire s).cpu.latch = .idle := by
  change s.cpu.latch.retire = _ ∨ s.cpu.latch.retire = _
  rcases h with h | h <;> rw [h]
  · exact .inl rfl
  · exact .inr rfl

theorem step_latch (hs : ¬Held s) (ht : Entry s t) :
    (final (step s)).cpu.latch = t.cpu.latch.retire ∨ (final (step s)).cpu.latch = .idle :=
  (interior_latch t.cpu.latch).step (interior_latch t.cpu.latch.retire) (retire_latch _) hs ht
    (.inl rfl)

theorem step_halted (hs : ¬Held s) (ht : Entry s t) (h : t.cpu.halted = true) :
    (final (step s)).cpu.halted = true :=
  interior_halted.step interior_halted (fun _ h => h) hs ht h

/-- The step turns interrupts on by the instruction for it. -/
def Enables (s : System β) : Prop :=
  ¬Held s ∧ ∃ t u, serviceInterrupt s = .ok () t ∧ t.cpu.halted = false ∧
    decodeInstruction none segmentSize (begun t) = .ok (.changeFlag .enableInterrupts) u ∧
    u.cpu.registers.flags.interrupt = false

/-- A request waits anew after interrupts were turned on. -/
theorem Enables.latch (h : Enables s) : (final (step s)).cpu.latch = .idle := by
  obtain ⟨hs, t, u, hi, hh, hd, hf⟩ := h
  have hidle : Interior fun s : System β => s.cpu.latch = .idle ∨ s.cpu.latch = .idle :=
    interior_latch .idle
  have hu : ∃ v, execute (.changeFlag .enableInterrupts) u = .ok () v ∧ v.cpu.latch = .idle := by
    refine ⟨_, rfl, ?_⟩
    dsimp only
    rw [if_neg (by simp [hf])]
  obtain ⟨v, hv, hl⟩ := hu
  have hr : runInstruction none segmentSize (begun t) = .ok () v := by
    rw [runInstruction_eq, bind_ok execute hd, hv]
  have hit : Exec.iteration s =
      (if t.cpu.registers.flags.trap then enterVector 1 else pure () : Exec β Unit) v := by
    rw [iteration_eq, bind_ok _ hi, instructionPhase_of_running hh, bind_ok _ hr]
  -- behind the instruction there is only the trap, which leaves the latch alone
  refine or_self_iff.1 (hidle.close (retire_latch .idle) hs ?_)
  rw [hit]
  exact (uniform_enterVectorIf _ 1).preserves hidle.toInvariant (.inl hl)

end Latch

end Pc8086.Cpu

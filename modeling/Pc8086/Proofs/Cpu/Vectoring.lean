import Pc8086.Proofs.Cpu.Shadow

namespace Pc8086.Cpu

open Exec

variable {β : Type} [Bus β]

inductive Cause where
  | request
  /-- An instruction for it, or the one that looks at the overflow flag. -/
  | instruction
  | singleStep
  | divideError
  deriving DecidableEq

/-- After an iteration with a divide error and its clock pulse. -/
def aborted (s : System β) : System β :=
  { retire s with cpu.prefixes := (retire s).cpu.prefixes.reset }

/-- The step from `s` enters the vector, and `w` is the state right after the entry. -/
inductive Enters (s : System β) : Cause → UInt8 → System β → Prop where
  | request {w : System β} (hs : ¬Held s) (ht : Taken s)
    (hw : enterVector (Bus.acknowledgeInterrupt s.bus).1 (delivered s) = .ok () w) :
    Enters s .request (Bus.acknowledgeInterrupt s.bus).1 w
  | interrupt {t u w : System β} {vector : UInt8} (ht : Fetches s t)
    (hu : decodeInstruction none segmentSize (begun t) = .ok (.interrupt vector) u)
    (hw : enterVector vector u = .ok () w) : Enters s .instruction vector w
  | overflow {t u w : System β} (ht : Fetches s t)
    (hu : decodeInstruction none segmentSize (begun t) = .ok .interruptOnOverflow u)
    (ho : u.cpu.registers.flags.overflow = true)
    (hw : enterVector 4 u = .ok () w) : Enters s .instruction 4 w
  | singleStep {t u w : System β} (ht : Fetches s t) (htrap : t.cpu.registers.flags.trap = true)
    (hu : runInstruction none segmentSize (begun t) = .ok () u)
    (hw : enterVector 1 u = .ok () w) : Enters s .singleStep 1 w
  | divideError {u w : System β} {f : Fault} (hs : ¬Held s) (hu : iteration s = .error f u)
    (hf : f.isFatal = false) (hon : u.cpu.divideErrorInterrupt = true)
    (hw : enterVector 0 (aborted u) = .ok () w) : Enters s .divideError 0 w

def Traps (s : System β) : Prop :=
  ∃ t, Fetches s t ∧ t.cpu.registers.flags.trap = true

def Halts (s : System β) : Prop :=
  ∃ t u, Fetches s t ∧ decodeInstruction none segmentSize (begun t) = .ok .halt u

def withBus (v : System β) (bus : β) : System β :=
  { v with bus := bus }

/-- What stands at the address in `w` is the next instruction of all, though the step from `s` ends
in `v`: it runs in that step, or in the first one in which the bus is free, whatever else has become
of the bus, without an interrupt before it. -/
inductive Next (s w v : System β) : Prop where
  | now (h : Fetches s w)
  | later (hw : v.cpu.registers = w.cpu.registers)
    (h : ∀ bus, ¬Held (withBus v bus) → Fetches (withBus v bus) (sampled (withBus v bus)))

variable {s t u v w : System β} {c : Cause} {vector : UInt8}

section Halted

/-- The end of a step neither halts the processor nor wakes it. -/
theorem halted_inert (b : Bool) : Inert β fun c => c.halted = b :=
  inert_of_working fun _ _ _ _ h => h

theorem enterVector_halted (vector : UInt8) (s : System β) :
    (final (enterVector vector s)).cpu.halted = s.cpu.halted :=
  (halted_inert s.cpu.halted).enterVector vector s rfl

theorem halted_of_enterVectorIf {on : Bool} {f : Fault}
    (h : (if on then enterVector vector else pure () : Exec β Unit) s = .error f u) :
    on = true ∧ u.cpu.halted = s.cpu.halted := by
  cases on with
  | false => cases h
  | true =>
    have hentry : enterVector vector s = .error f u := h
    have hkept := enterVector_halted vector s
    rw [hentry] at hkept
    exact ⟨rfl, hkept⟩

theorem halted_of_enterVector (h : enterVector vector s = .ok () w) :
    w.cpu.halted = s.cpu.halted := by
  rw [← enterVector_halted vector s, h]
  rfl

theorem running_performing {i : Instruction} (hi : i ≠ .halt) :
    Performing (fun _ (x _ : Exec β _) => Preserves (fun c => c.halted = false) x) i := by
  refine preserves_performing (fun _ _ _ h => h) (fun _ s h => ?_) fun h => absurd h hi
  change Cpu.halted (if s.cpu.registers.flags.interrupt then _ else _) = false
  split
  · exact h
  · exact h

/-- An instruction halts if it is a halt. -/
theorem Fetches.halted_run_iff (h : Fetches s t) :
    (final (runInstruction none segmentSize (begun t))).cpu.halted = true ↔
      ∃ u, decodeInstruction none segmentSize (begun t) = .ok .halt u := by
  have hdecode := (decoded_alert h.2.2).2
  rw [runInstruction_eq]
  cases hd : decodeInstruction none segmentSize (begun t) with
  | error f u =>
    rw [hd] at hdecode
    rw [bind_error _ hd]
    exact iff_of_false (Bool.eq_false_iff.1 hdecode) (by rintro ⟨_, ⟨⟩⟩)
  | ok i u =>
    rw [hd] at hdecode
    rw [bind_ok _ hd]
    by_cases hi : i = .halt
    · subst hi
      exact iff_of_true rfl ⟨u, rfl⟩
    · have hrunning := (running_performing hi).execute u hdecode
      refine iff_of_false (Bool.eq_false_iff.1 hrunning) ?_
      rintro ⟨_, ⟨⟩⟩
      exact hi rfl

theorem Fetches.halted_step (h : Fetches s t) :
    (final (step s)).cpu.halted =
      (final (runInstruction none segmentSize (begun t))).cpu.halted :=
  h.close (halted_inert _) (halted_inert _) (fun _ h => h) rfl

theorem Fetches.unique {t' : System β} (h : Fetches s t) (h' : Fetches s t') : t = t' := by
  have heq := h.2.1.symm.trans h'.2.1
  cases heq
  rfl

theorem Fetches.halts_iff (h : Fetches s t) :
    Halts s ↔ (final (runInstruction none segmentSize (begun t))).cpu.halted = true := by
  rw [h.halted_run_iff]
  refine ⟨fun ⟨t', u, h', hu⟩ => ?_, fun ⟨u, hu⟩ => ⟨t, u, h, hu⟩⟩
  rw [h.unique h']
  exact ⟨u, hu⟩

/-- A halt cannot fail. -/
theorem Fetches.run_of_halts (h : Fetches s t) (hs : Halts s) :
    ∃ u, runInstruction none segmentSize (begun t) = .ok () u := by
  obtain ⟨t', u, h', hu⟩ := hs
  rw [h.unique h', runInstruction_eq, bind_ok _ hu]
  exact ⟨_, rfl⟩

theorem Fetches.traps_iff (h : Fetches s t) :
    Traps s ↔ t.cpu.registers.flags.trap = true := by
  refine ⟨fun ⟨t', h', ht⟩ => ?_, fun ht => ⟨t, h, ht⟩⟩
  rw [h.unique h']
  exact ht

/-- Without an instruction a fault comes from taking an interrupt, which wakes the processor. -/
theorem running_of_error {f : Fault} (hs : ¬Held s) (hu : iteration s = .error f u) :
    (∃ t, Fetches s t) ∨ u.cpu.halted = false ∧ ∀ t, ¬Fetches s t := by
  rw [iteration_eq] at hu
  cases hx : serviceInterrupt s with
  | ok a t =>
    rw [bind_ok _ hx] at hu
    cases ht : t.cpu.halted with
    | true =>
      rw [instructionPhase_of_halted ht] at hu
      cases hu
    | false => exact .inl ⟨t, hs, hx, ht⟩
  | error f' t =>
    rw [bind_error _ hx] at hu
    cases hu
    refine .inr ⟨?_, fun t' h => ?_⟩
    · have htaken : Taken s := Classical.byContradiction fun htaken => by
        rw [serviceInterrupt_of_not_taken htaken] at hx
        cases hx
      rw [serviceInterrupt_of_taken htaken] at hx
      have hkept := enterVector_halted (Bus.acknowledgeInterrupt s.bus).1 (delivered s)
      rw [hx] at hkept
      exact hkept
    · have hok := h.2.1
      rw [hx] at hok
      cases hok

end Halted

section Entry

theorem Enters.cleared (h : Enters s c vector w) : Cleared w.cpu.registers.flags := by
  cases h with
  | request _ _ hw => exact cleared_of_enterVector hw
  | interrupt _ _ hw => exact cleared_of_enterVector hw
  | overflow _ _ _ hw => exact cleared_of_enterVector hw
  | singleStep _ _ _ hw => exact cleared_of_enterVector hw
  | divideError _ _ _ _ hw => exact cleared_of_enterVector hw

/-- The handler of a request begins in the same step. -/
theorem fetches_of_request (hs : ¬Held s) (ht : Taken s)
    (hw : enterVector (Bus.acknowledgeInterrupt s.bus).1 (delivered s) = .ok () w) :
    Fetches s w :=
  ⟨hs, (serviceInterrupt_of_taken ht).trans hw, halted_of_enterVector hw⟩

/-- An instruction for it leaves the processor behind the entry, and running. -/
theorem Fetches.run_entry {i : Instruction} (h : Fetches s t)
    (hu : decodeInstruction none segmentSize (begun t) = .ok i u) (hi : i ≠ .halt)
    (hw : execute i u = .ok () w) :
    runInstruction none segmentSize (begun t) = .ok () w ∧ w.cpu.halted = false ∧ ¬Halts s := by
  have hrun : runInstruction none segmentSize (begun t) = .ok () w := by
    rw [runInstruction_eq, bind_ok _ hu, hw]
  have hiff := h.halted_run_iff
  have hhalts := h.halts_iff
  rw [hrun] at hiff hhalts
  have hrunning : w.cpu.halted = false := Bool.eq_false_iff.2 fun hhalted => by
    obtain ⟨u', hu'⟩ := hiff.1 hhalted
    rw [hu] at hu'
    cases hu'
    exact hi rfl
  exact ⟨hrun, hrunning, mt hhalts.1 (Bool.eq_false_iff.1 hrunning)⟩

theorem execute_interruptOnOverflow (ho : u.cpu.registers.flags.overflow = true) :
    execute .interruptOnOverflow u = enterVector 4 u := by
  change (if u.cpu.registers.flags.overflow then enterVector 4 else pure () : Exec β Unit) u = _
  rw [if_pos ho]

theorem Enters.of_instruction (h : Enters s .instruction vector w) :
    ∃ t, Fetches s t ∧ runInstruction none segmentSize (begun t) = .ok () w ∧
      w.cpu.halted = false ∧ ¬Halts s := by
  cases h with
  | interrupt ht hu hw => exact ⟨_, ht, ht.run_entry hu nofun hw⟩
  | overflow ht hu ho hw =>
    rw [← execute_interruptOnOverflow ho] at hw
    exact ⟨_, ht, ht.run_entry hu nofun hw⟩

/-- A fault finds the processor halted if it comes from the trap behind a halt. -/
theorem halted_of_error_iff {f : Fault} (hs : ¬Held s) (hu : iteration s = .error f u) :
    u.cpu.halted = true ↔ Halts s ∧ Traps s := by
  obtain ⟨t, ht⟩ | ⟨hrunning, hnone⟩ := running_of_error hs hu
  · rw [ht.iteration] at hu
    obtain hrun | ⟨_, x, hrun, htrap⟩ := error_of_bind hu
    · -- the fault is the instruction's own, so the instruction is not a halt
      have hhalts : ¬Halts s := fun hhalts => by
        obtain ⟨x, hx⟩ := ht.run_of_halts hhalts
        rw [hrun] at hx
        cases hx
      have hiff := ht.halts_iff
      rw [hrun] at hiff
      exact iff_of_false (mt hiff.2 hhalts) fun h => hhalts h.1
    · obtain ⟨hon, hsame⟩ := halted_of_enterVectorIf htrap
      rw [ht.halts_iff, ht.traps_iff, hrun, hsame]
      exact (and_iff_left hon).symm
  · exact iff_of_false (Bool.eq_false_iff.1 hrunning) fun ⟨⟨t, _, ht, _⟩, _⟩ => hnone t ht

/-- Right after an entry the processor is halted if the step has single-stepped over a halt. -/
theorem Enters.halted_iff (h : Enters s c vector w) :
    w.cpu.halted = true ↔ Halts s ∧ Traps s := by
  cases c with
  | request =>
    cases h with
    | request hs ht hw =>
      have hf := fetches_of_request hs ht hw
      have htrap := (cleared_of_enterVector hw).2
      rw [hf.traps_iff, htrap]
      exact iff_of_false (Bool.eq_false_iff.1 hf.2.2) fun h => Bool.false_ne_true h.2
  | instruction =>
    obtain ⟨t, -, -, hrunning, hhalts⟩ := h.of_instruction
    exact iff_of_false (Bool.eq_false_iff.1 hrunning) fun h => hhalts h.1
  | singleStep =>
    cases h with
    | singleStep ht htrap hu hw =>
      rw [ht.halts_iff, ht.traps_iff, hu, halted_of_enterVector hw]
      exact (and_iff_left htrap).symm
  | divideError =>
    cases h with
    | @divideError u _ _ hs hu hf hon hw =>
      have hsame : w.cpu.halted = u.cpu.halted := (halted_of_enterVector hw).trans rfl
      rw [hsame]
      exact halted_of_error_iff hs hu

end Entry

section After

theorem fetches_of_off (hs : ¬Held s) (hrunning : s.cpu.halted = false) (hoff : Off s.cpu) :
    Fetches s (sampled s) :=
  ⟨hs, serviceInterrupt_of_not_taken (not_taken_of_off hoff), hrunning⟩

structure Parked (c : Cpu) : Prop where
  halted : c.halted = true
  off : Off c

theorem Parked.not_fetches (h : Parked s.cpu) : ¬Fetches s t := by
  intro hf
  have heq := (serviceInterrupt_of_not_taken (not_taken_of_off h.off)).symm.trans hf.2.1
  cases heq
  exact Bool.false_ne_true (hf.2.2.symm.trans h.halted)

theorem Parked.step (h : Parked s.cpu) : Parked (final (step s)).cpu := by
  by_cases hs : Held s
  · rw [step_of_held hs]
    exact h
  · rw [step_of_not_held hs, iteration_of_halted (not_taken_of_off h.off) h.halted]
    exact ⟨h.halted, h.off⟩

/-- Nothing wakes a parked processor, whatever happens on the bus between its steps. -/
theorem Parked.never_fetches {boundary : Nat → System β} (h : Parked (boundary 0).cpu)
    (hnext : ∀ n, (boundary (n + 1)).cpu = (final (Cpu.step (boundary n))).cpu) (n : Nat)
    (t : System β) : ¬Fetches (boundary n) t := by
  have hparked : Parked (boundary n).cpu := by
    induction n with
    | zero => exact h
    | succ n ih =>
      rw [hnext]
      exact ih.step
  exact hparked.not_fetches

/-- At the end of the step the processor is as the entry has left it, unless that was not the end of
it: a request's handler begins, or a single step follows. -/
theorem Enters.registers_eq (h : Enters s c vector w) (hv : step s = .ok () v)
    (hc : c ≠ .request) (ht : ¬(c = .instruction ∧ Traps s)) :
    v.cpu.registers = w.cpu.registers ∧ v.cpu.halted = w.cpu.halted := by
  -- where the iteration succeeds, the step only retires it
  have hclosed : ¬Held s → iteration s = .ok () w → v = retire w := fun hs hi => by
    rw [step_of_not_held hs, hi] at hv
    cases hv
    rfl
  cases c with
  | request => exact absurd rfl hc
  | instruction =>
    obtain ⟨t, hf, hrun, -, -⟩ := h.of_instruction
    have htrap : ¬t.cpu.registers.flags.trap = true := fun hs => ht ⟨rfl, t, hf, hs⟩
    have hi : iteration s = .ok () w := by
      rw [hf.iteration, bind_ok _ hrun, if_neg htrap]
      rfl
    rw [hclosed hf.1 hi]
    exact ⟨rfl, rfl⟩
  | singleStep =>
    cases h with
    | singleStep hf htrap hu hw =>
      have hi : iteration s = .ok () w := by
        rw [hf.iteration, bind_ok _ hu, if_pos htrap, hw]
      rw [hclosed hf.1 hi]
      exact ⟨rfl, rfl⟩
  | divideError =>
    cases h with
    | divideError hs hu hfatal hon hw =>
      have hon' : (retire _).cpu.divideErrorInterrupt = true := hon
      rw [step_of_not_held hs, hu] at hv
      dsimp only at hv
      rw [recover_of_not_fatal hfatal, if_pos hon'] at hv
      have heq := hv.symm.trans hw
      cases heq
      exact ⟨rfl, rfl⟩

theorem Enters.next (h : Enters s c vector w) (hv : step s = .ok () v)
    (hs : ¬(Halts s ∧ Traps s)) (ht : ¬(c = .instruction ∧ Traps s)) : Next s w v := by
  by_cases hc : c = .request
  · subst hc
    cases h with
    | request hs ht hw => exact .now (fetches_of_request hs ht hw)
  obtain ⟨hregisters, hhalted⟩ := h.registers_eq hv hc ht
  have hrunning : v.cpu.halted = false :=
    hhalted.trans (Bool.eq_false_iff.2 (mt h.halted_iff.1 hs))
  have hoff : Off v.cpu := by
    unfold Off
    rw [hregisters]
    exact h.cleared.1
  exact .later hregisters fun bus hfree => fetches_of_off hfree hrunning hoff

theorem Enters.halted_step_iff (h : Enters s c vector w) :
    (final (step s)).cpu.halted = true ↔ Halts s := by
  have hfetches : ∀ {t}, Fetches s t → ((final (step s)).cpu.halted = true ↔ Halts s) :=
    fun hf => by rw [hf.halted_step, hf.halts_iff]
  cases h with
  | request hs ht hw => exact hfetches (fetches_of_request hs ht hw)
  | interrupt hf => exact hfetches hf
  | overflow hf => exact hfetches hf
  | singleStep hf => exact hfetches hf
  | divideError hs hu hfatal hon hw =>
    obtain ⟨t, hf⟩ | ⟨hrunning, hnone⟩ := running_of_error hs hu
    · exact hfetches hf
    · have hstep : (final (step s)).cpu.halted = false := by
        refine (halted_inert false).close hs ?_
        rw [hu]
        exact hrunning
      exact iff_of_false (Bool.eq_false_iff.1 hstep) fun ⟨t, _, hf, _⟩ => hnone t hf

theorem Enters.cause_of_halted (h : Enters s c vector w) (hw : w.cpu.halted = true) :
    c ≠ .request ∧ c ≠ .instruction := by
  refine ⟨?_, ?_⟩
  · rintro rfl
    cases h with
    | request hs ht hentry =>
      exact Bool.false_ne_true ((halted_of_enterVector hentry).symm.trans hw)
  · rintro rfl
    obtain ⟨t, -, -, hrunning, -⟩ := h.of_instruction
    exact Bool.false_ne_true (hrunning.symm.trans hw)

theorem Enters.parked (h : Enters s c vector w) (hv : step s = .ok () v)
    (hw : w.cpu.halted = true) : Parked v.cpu := by
  obtain ⟨hrequest, hinstruction⟩ := h.cause_of_halted hw
  obtain ⟨hregisters, hhalted⟩ := h.registers_eq hv hrequest fun hc => hinstruction hc.1
  refine ⟨hhalted.trans hw, ?_⟩
  unfold Off
  rw [hregisters]
  exact h.cleared.1

/-- Any step that enters an interrupt vector and does not fail. Right after the entry the processor
is halted if and only if the step has single-stepped over a halt; at its end, if and only if the
instruction of the step was a halt. But for that single step, what stands at the entry is executed
next, in the same step or in the first one in which the bus is free, except that the trap of an
instruction which is itself an entry comes first. Behind the single step over a halt no instruction
is ever executed. -/
theorem entry_halted_iff (hv : step s = .ok () v) (hw : Enters s c vector w) :
    (w.cpu.halted = true ↔ Halts s ∧ Traps s) ∧
    (v.cpu.halted = true ↔ Halts s) ∧
    (¬(Halts s ∧ Traps s) → Next s w v ∨ c = .instruction ∧ Traps s) ∧
    (Halts s ∧ Traps s → ∀ boundary : Nat → System β, (boundary 0).cpu = v.cpu →
      (∀ n, (boundary (n + 1)).cpu = (final (step (boundary n))).cpu) →
      ∀ n t, ¬Fetches (boundary n) t) := by
  have hend := hw.halted_step_iff
  rw [hv] at hend
  refine ⟨hw.halted_iff, hend, fun hs => ?_, fun hs boundary hstart hnext => ?_⟩
  · by_cases ht : c = .instruction ∧ Traps s
    · exact .inr ht
    · exact .inl (hw.next hv hs ht)
  · have hparked : Parked (boundary 0).cpu := by
      rw [hstart]
      exact hw.parked hv (hw.halted_iff.2 hs)
    exact hparked.never_fetches hnext

end After

/-- A program of one byte at address 0, with the trap flag set, on a board of 16 bytes. The
single-step handler at address 8 increments AX. -/
def stepping (b : UInt8) : System (Board ExpansionCard) where
  cpu := { registers := { esp := 16, flags := { trap := true } } }
  bus :=
    { memory := ⟨⟨#[b, 0, 0, 0, 8, 0, 0, 0, 0x40, 0, 0, 0, 0, 0, 0, 0]⟩⟩
      controller := .initial
      components := []
      owners := []
      ignoreUnknownPorts := false }

def steppedOver (b : UInt8) : System (Board ExpansionCard) :=
  final (runInstruction none segmentSize (begun (sampled (stepping b))))

def trapped (b : UInt8) : System (Board ExpansionCard) :=
  final (enterVector 1 (steppedOver b))

theorem fetches_stepping (b : UInt8) : Fetches (stepping b) (sampled (stepping b)) := by
  refine fetches_of_off (fun h => ?_) rfl rfl
  cases h

theorem enters_stepping {b : UInt8}
    (hrun : fault? (runInstruction none segmentSize (begun (sampled (stepping b)))) = none)
    (hentry : fault? (enterVector 1 (steppedOver b)) = none) :
    Enters (stepping b) .singleStep 1 (trapped b) :=
  .singleStep (fetches_stepping b) rfl (eq_ok_of_fault hrun) (eq_ok_of_fault hentry)

/-- Over an instruction that does nothing the handler is next. -/
theorem stepping_nop :
    step (stepping 0x90) = .ok () (final (step (stepping 0x90))) ∧
      Enters (stepping 0x90) .singleStep 1 (trapped 0x90) ∧
      (trapped 0x90).cpu.codeAddress = ⟨0, 8⟩ ∧
      Next (stepping 0x90) (trapped 0x90) (final (step (stepping 0x90))) := by
  have hv : step (stepping 0x90) = .ok () (final (step (stepping 0x90))) :=
    eq_ok_of_fault (by decide +kernel)
  have hw : Enters (stepping 0x90) .singleStep 1 (trapped 0x90) :=
    enters_stepping (by decide +kernel) (by decide +kernel)
  obtain ⟨hhalted, -, hnext, -⟩ := entry_halted_iff hv hw
  have hrunning : ¬(trapped 0x90).cpu.halted = true := by decide +kernel
  exact ⟨hv, hw, by decide +kernel, (hnext (mt hhalted.2 hrunning)).resolve_right nofun⟩

/-- Over a halt the handler, whose address has been loaded, does not begin: the processor stays
halted, with interrupts off. -/
theorem stepping_halt :
    step (stepping 0xF4) = .ok () (final (step (stepping 0xF4))) ∧
      Enters (stepping 0xF4) .singleStep 1 (trapped 0xF4) ∧
      (trapped 0xF4).cpu.codeAddress = ⟨0, 8⟩ ∧
      (trapped 0xF4).cpu.halted = true ∧
      (final (step (stepping 0xF4))).cpu.halted = true ∧
      ∀ t, ¬Fetches (final (step (stepping 0xF4))) t := by
  have hv : step (stepping 0xF4) = .ok () (final (step (stepping 0xF4))) :=
    eq_ok_of_fault (by decide +kernel)
  have hw : Enters (stepping 0xF4) .singleStep 1 (trapped 0xF4) :=
    enters_stepping (by decide +kernel) (by decide +kernel)
  have hhalted : (trapped 0xF4).cpu.halted = true := by decide +kernel
  have hparked := hw.parked hv hhalted
  exact ⟨hv, hw, by decide +kernel, hhalted, hparked.halted, fun t => hparked.not_fetches⟩

end Pc8086.Cpu

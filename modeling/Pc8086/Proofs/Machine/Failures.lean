import Pc8086.Proofs.Cpu.Atomicity
import Pc8086.Proofs.Machine.Resumption

namespace Pc8086

open Cpu Exec

variable {δ : Type} [Peripheral δ] {s t v : System (Board δ)} {f : Fault}

theorem Fault.OfAccess.isFatal (h : f.OfAccess) : f.isFatal = true := by
  cases h <;> rfl

section Record

/-- The entry to a vector fails in its accesses only. -/
theorem ofAccess_of_enterVector {vector : UInt8} (h : enterVector vector s = .error f t) :
    f.OfAccess :=
  ((contains_working Board.covers_all.serves).enterVector vector).fault h trivial

/-- Failures of a step. Whatever fails is fatal, a divide error is never reported; and the failure
is recorded, unless it is one of the entry to the vector of a divide error, and none had been
recorded before. -/
theorem step_failure (h : step s = .error f t) :
    f.isFatal = true ∧
    (t.cpu.fatalError = true ↔
      s.cpu.fatalError = true ∨ ∀ a v, iteration s ≠ .error (.divideError a) v) := by
  obtain ⟨-, hfails⟩ := fails_of_step h
  have hiteration := iteration_fatalError s
  cases hfails with
  | fatal hi hf =>
    refine ⟨hf, iff_of_true rfl (.inr fun a v hd => ?_)⟩
    cases hi.symm.trans hd
    cases hf
  | @vector f _ v _ hi hf ht =>
    obtain ⟨a, rfl⟩ := Fault.eq_divideError hf
    have hvector := keeps_fatalError (uniform_enterVector 0)
      { retire v with cpu.prefixes := v.cpu.prefixes.reset }
    rw [ht] at hvector
    rw [hi] at hiteration
    have hkept : t.cpu.fatalError = s.cpu.fatalError := hvector.trans hiteration
    rw [hkept]
    refine ⟨(ofAccess_of_enterVector ht).isFatal, .inl, fun h => ?_⟩
    exact h.resolve_right fun h => h a v hi

/-- An undefined operation is reported and recorded. -/
theorem undefined_recorded :
    let s : System (Board ExpansionCard) := ⟨{ registers := { ip := 2 } }, dividing⟩
    let t := final (step s)
    step s = .error (.illegalInstruction [0xFE, 0xF8] ⟨0, 2⟩ 0) t ∧ t.cpu.fatalError = true ∧
      ∀ a v, iteration s ≠ .error (.divideError a) v := by
  intro s t
  have h : step s = .error (.illegalInstruction [0xFE, 0xF8] ⟨0, 2⟩ 0) t :=
    eq_error_of_fault (by decide +kernel)
  have ht : t.cpu.fatalError = true := by decide +kernel
  exact ⟨h, ht, ((step_failure h).2.1 ht).resolve_left (by decide)⟩

/-- The division by zero cannot be vectored, because the stack lies outside of memory. This failure
is reported, but not recorded. -/
theorem vectoring_unrecorded :
    let s : System (Board ExpansionCard) := ⟨{ registers := { esp := 0x100 } }, dividing⟩
    let t := final (step s)
    step s = .error (.addressOutOfRange 0xFE) t ∧ t.cpu.fatalError = false :=
  ⟨eq_error_of_fault (by decide +kernel), by decide +kernel⟩

end Record

section Iteration

variable {I : Board δ → Prop} {E : Fault → Prop}

theorem contains_serviceInterrupt (hI : Board.Covers I E) :
    Contains I E (serviceInterrupt : Exec (Board δ) Unit) := by
  intro s h
  by_cases ht : Taken s
  · rw [serviceInterrupt_of_taken ht]
    exact (contains_working hI.serves).enterVector _ (delivered s)
      (hI.devices _ s.bus.components s.bus.stopRequested h)
  · rw [serviceInterrupt_of_not_taken ht]
    exact .ok () h

theorem contains_iteration (hI : Board.Covers I E) :
    Contains I (Fault.OfIteration E) (iteration : Exec (Board δ) Unit) := by
  have hI : Board.Covers I (Fault.OfIteration E) := hI.mono fun _ => .bus
  have hrun := (contains_fetching hI.serves .endless).runInstruction
    (fun i => contains_performing hI.serves (i := i) (fun _ _ _ _ _ => .instruction (.illegal ..))
      fun _ _ => .instruction (.divide _)) none segmentSize
  rw [iteration_eq]
  refine (contains_serviceInterrupt hI).bind fun _ => ?_
  intro s h
  cases hh : s.cpu.halted with
  | true =>
    rw [instructionPhase_of_halted hh]
    exact .ok () h
  | false =>
    rw [instructionPhase_of_running hh]
    exact hrun.bind (fun _ => (contains_working hI.serves).enterVectorIf _ 1) (begun s) h

end Iteration

section Endless

variable {rep : Option UInt8} {n : Nat} {a : SegmentedAddress}

theorem forall_offsets_succ {P : UInt16 → Prop} {ip : UInt16} (h0 : P ip)
    (h : ∀ i < n, P (ip + 1 + UInt16.ofNat i)) : ∀ i < n + 1, P (ip + UInt16.ofNat i) := by
  intro i hi
  cases i with
  | zero => rwa [add_ofNat_zero]
  | succ i =>
    rw [add_ofNat_succ]
    exact h i (Nat.lt_of_succ_lt_succ hi)

/-- Prefixes are given up on after as many bytes, by induction on these. -/
theorem isPrefix_of_endless (hs : Roomy s)
    (h : decodeInstruction rep n s = .error (.endlessPrefixes a) t) :
    ∀ i < n, IsPrefix (s.bus.memory.peek
      (linear s.cpu.registers.cs (s.cpu.registers.ip + UInt16.ofNat i))) := by
  induction n generalizing s rep with
  | zero => exact fun i hi => absurd hi (Nat.not_lt_zero i)
  | succ n ih =>
    have hfetch := run_fetchByte hs
    generalize hb : s.bus.memory.peek (linear s.cpu.registers.cs s.cpu.registers.ip) = b at hfetch
    have hnext : IsPrefix b → ∀ rep, decodeInstruction rep n (pushed b s) =
        .error (.endlessPrefixes a) t → ∀ i < n + 1, IsPrefix (s.bus.memory.peek
          (linear s.cpu.registers.cs (s.cpu.registers.ip + UInt16.ofNat i))) :=
      fun hp _ h => forall_offsets_succ (P := fun o =>
        IsPrefix (s.bus.memory.peek (linear s.cpu.registers.cs o))) (hb ▸ hp)
          (ih (s := pushed b s) hs h)
    unfold decodeInstruction at h
    rw [bind_ok _ hfetch] at h
    by_cases hsimple : PrefixByte.isSimple b = true
    · rw [if_pos hsimple, run_modifyCpu] at h
      exact hnext (.inl hsimple) _ h
    · rw [if_neg hsimple] at h
      by_cases hrepeat : PrefixByte.isRepeat b = true
      · rw [if_pos hrepeat, run_modifyCpu] at h
        exact hnext (.inr hrepeat) _ h
      · rw [if_neg hrepeat] at h
        -- behind the prefixes nothing but an access can fail
        have hopcode := (contains_prefixing (Board.covers_all (δ := δ)).serves).decodePrefixed rep b
        cases hopcode.fault h trivial

/-- The step looks for an opcode in a code segment that has nothing but prefixes, which would go on
for ever. -/
def Endless (s : System (Board δ)) : Prop :=
  ∃ t, Fetches s t ∧ ∀ offset, IsPrefix (t.bus.memory.peek (linear t.cpu.registers.cs offset))

theorem Cpu.Raised.endless (hs : Roomy s) (h : Raised s (.endlessPrefixes a) v) : Endless s := by
  let E (f : Fault) : Prop := f.OfAccess ∨ f.OfInstruction
  have hE : Board.Covers (fun _ : Board δ => True) E := Board.covers_all.mono fun _ => .inl
  have hnot : ¬E (.endlessPrefixes a) := by
    rintro (h | h) <;> cases h
  cases h with
  | entry h => exact absurd ((contains_serviceInterrupt hE).fault h trivial) hnot
  | execution _ _ h =>
    have hperform := fun i => contains_performing hE.serves (i := i)
      (fun _ _ _ _ _ => .inr (.illegal ..)) fun _ _ => .inr (.divide _)
    exact absurd ((hperform _).execute.fault h trivial) hnot
  | trap _ _ _ h =>
    exact absurd (((contains_working hE.serves).enterVector 1).fault h trivial) hnot
  | @decoding t hf h =>
    have hroomy := Board.covers_roomy (δ := δ) s.bus.ignoreUnknownPorts
    have ht : Roomy t := ((contains_serviceInterrupt hroomy).holds hf.2.1 ⟨hs, rfl⟩).1
    refine ⟨t, hf, fun offset => ?_⟩
    have hall := isPrefix_of_endless (s := begun t) ht h
      (offset - t.cpu.registers.ip).toNat (UInt16.toNat_lt _)
    have hsum : t.cpu.registers.ip + (offset - t.cpu.registers.ip) = offset := by
      rw [UInt16.add_comm, UInt16.sub_add_cancel]
    rw [UInt16.ofNat_toNat] at hall
    exact hsum ▸ hall

end Endless

section Roomy

/-- The failures left where memory reaches as far as the address bus. No address is out of range;
and if unknown ports are ignored, nothing is reported but an illegal instruction, or that the step
would never come to an end. -/
theorem step_failure_of_roomy (hs : Roomy s) (h : step s = .error f t) :
    (∀ a, f ≠ .addressOutOfRange a) ∧
    (s.bus.ignoreUnknownPorts = true →
      (∃ bytes start executed, f = .illegalInstruction bytes start executed) ∨
      (∃ start, f = .endlessPrefixes start) ∧ Endless s) := by
  obtain ⟨hfree, hfails⟩ := fails_of_step h
  have hports := Board.covers_roomy (δ := δ) s.bus.ignoreUnknownPorts
  have hiteration := contains_iteration hports
  cases hfails with
  | fatal hi hf =>
    cases hiteration.fault hi ⟨hs, rfl⟩ with
    | bus h => exact ⟨h.ne_address, fun hon => absurd hon h.not_ignored⟩
    | endless a =>
      exact ⟨nofun, fun _ => .inr ⟨⟨a, rfl⟩, (raised_of_iteration hfree hi).endless hs⟩⟩
    | instruction h =>
      cases h with
      | illegal => exact ⟨nofun, fun _ => .inl ⟨_, _, _, rfl⟩⟩
      | divide => cases hf
  | @vector _ _ v _ hi hf ht =>
    have hv := hports.clockPulse (hiteration.holds_of_error hi ⟨hs, rfl⟩)
    have h := ((contains_working hports.serves).enterVector 0).fault ht hv
    exact ⟨h.ne_address, fun hon => absurd hon h.not_ignored⟩

/-- A machine whose program begins with an escape to the second opcode map. -/
def escaping (m : Memory) : System (Board ExpansionCard) where
  cpu := {}
  bus :=
    { memory := m.poke 0 0x0F
      controller := .initial
      components := []
      owners := []
      ignoreUnknownPorts := true }

theorem run_escaping {m : Memory} (hm : 0x100000 ≤ m.size) (hzero : ∀ a, m.peek a = 0) :
    ∃ u, runInstruction none segmentSize (begun (sampled (escaping m))) =
      .error (.illegalInstruction [0x0F, 0] ⟨0, 0⟩ 0) u := by
  have hroom : 0x100000 ≤ (m.poke 0 0x0F).size := by rwa [Memory.size_poke]
  have hpoked : ∀ a, (m.poke 0 0x0F).peek a = if a = 0 then 0x0F else 0 := by
    intro a
    rw [Memory.peek_poke (Nat.lt_of_lt_of_le (by decide) hm), hzero]
  let b := begun (sampled (escaping m))
  let c := withRegisters b { b.cpu.registers with ip := 1 }
  have hescape : fetchByte b = .ok 0x0F c := by
    rw [run_fetchByte (s := b) hroom]
    exact congrArg (EStateM.Result.ok · c) (hpoked (linear 0 0))
  have hopcode : fetchByte c = .ok 0 (withRegisters b { b.cpu.registers with ip := 2 }) := by
    rw [run_fetchByte (s := c) hroom]
    exact congrArg (EStateM.Result.ok · _) (hpoked (linear 0 1))
  change ∃ u, runInstruction none (0xFFFF + 1) b = _
  unfold runInstruction
  rw [bind_ok _ hescape]
  change ∃ u, (fetchByte >>= fun e => finish [0x0F, e] (Opcode.ofEscaped e)) c = _
  rw [bind_ok _ hopcode]
  exact ⟨_, rfl⟩

theorem step_escaping {m : Memory} (hm : 0x100000 ≤ m.size) (hzero : ∀ a, m.peek a = 0) :
    ∃ t, step (escaping m) = .error (.illegalInstruction [0x0F, 0] ⟨0, 0⟩ 0) t := by
  have hfree : ¬Held (escaping m) := Bool.false_ne_true
  have htaken : ¬Taken (escaping m) := fun h => Bool.false_ne_true h.2.2
  have hfetches : Fetches (escaping m) (sampled (escaping m)) :=
    ⟨hfree, serviceInterrupt_of_not_taken htaken, rfl⟩
  obtain ⟨u, hrun⟩ := run_escaping hm hzero
  refine ⟨{ retire u with cpu.fatalError := true }, ?_⟩
  rw [step_of_not_held hfree, hfetches.iteration, bind_error _ hrun]
  exact recover_of_fatal rfl (retire u)

/-- With the default memory the machine reports it. -/
theorem escaping_fails :
    let s := escaping (Memory.zeroed Memory.defaultSize)
    ∃ f t, step s = .error f t ∧ s.bus.ignoreUnknownPorts = true ∧
      (∀ a, f ≠ .addressOutOfRange a) ∧
      ((∃ bytes start executed, f = .illegalInstruction bytes start executed) ∨
        ∃ start, f = .endlessPrefixes start) := by
  have hm : 0x100000 ≤ (Memory.zeroed Memory.defaultSize).size := by
    rw [Memory.size_zeroed]
    exact Nat.le_refl _
  have hzero : ∀ a, (Memory.zeroed Memory.defaultSize).peek a = 0 := Memory.peek_zeroed _
  -- nothing is to be evaluated byte by byte
  generalize Memory.zeroed Memory.defaultSize = m at hm hzero ⊢
  have hroom : Roomy (escaping m) := by
    change 0x100000 ≤ (m.poke 0 0x0F).size
    rwa [Memory.size_poke]
  obtain ⟨t, hstep⟩ := step_escaping hm hzero
  obtain ⟨haddress, hleft⟩ := step_failure_of_roomy hroom hstep
  exact ⟨_, t, hstep, rfl, haddress, (hleft rfl).imp id And.left⟩

end Roomy

end Pc8086

import Pc8086.Proofs.Cpu.MultiWord
import Pc8086.Proofs.Cpu.Vectoring

namespace Pc8086.Cpu

open Exec

section Code

/-- The flags that the opcode `b` may change. For the opcodes with several operations, `reg` is the
field of the addressing byte that tells which. -/
def affectedByOpcode (b reg : UInt8) : List Flag :=
  if b < 0x40 && b &&& 7 < 6 || 0x80 ≤ b && b < 0x86 ||
      [0xA6, 0xA7, 0xA8, 0xA9, 0xAE, 0xAF].contains b then Flag.status
  else if 0x40 ≤ b && b < 0x50 then [.parity, .adjust, .zero, .sign, .overflow]
  else
    match b with
    | 0x27 | 0x2F | 0x9E => [.carry, .parity, .adjust, .zero, .sign]
    | 0x37 | 0x3F => [.carry, .adjust]
    | 0x69 | 0x6B => [.carry, .overflow]
    | 0x9D | 0xCF => Flag.all
    | 0xC0 | 0xC1 | 0xD0 | 0xD1 | 0xD2 | 0xD3 =>
      if reg < 4 then [.carry, .overflow] else [.carry, .parity, .zero, .sign, .overflow]
    | 0xCC | 0xCD | 0xCE => [.trap, .interrupt]
    | 0xD4 | 0xD5 => [.parity, .zero, .sign]
    | 0xF5 | 0xF8 | 0xF9 => [.carry]
    | 0xF6 | 0xF7 =>
      if [0, 1, 3].contains reg then Flag.status
      else if [4, 5].contains reg then [.carry, .overflow]
      else []
    | 0xFA | 0xFB => [.interrupt]
    | 0xFC | 0xFD => [.direction]
    | 0xFE | 0xFF => if reg < 2 then [.parity, .adjust, .zero, .sign, .overflow] else []
    | _ => []

/-- The flags that the code behind the prefixes may change. Behind an escape byte there is one
product, and nothing else that changes any. -/
def affectedByBody (c : Nat → UInt8) : List Flag :=
  if c 0 = 0x0F then if c 1 = 0xAF then [.carry, .overflow] else []
  else affectedByOpcode (c 0) (ModRM.ofByte (c 1)).reg

def affectedByCode (c : Nat → UInt8) : List Flag :=
  affectedByBody fun k => c ((leadingPrefixes segmentSize c).length + k)

end Code

section Opcodes

def Opcode.affected (reg : UInt8) : Opcode → List Flag
  | arithmetic .. | arithmeticImmediate .. | test _ | testImmediate _ | string .compare _
  | string .scan _ => Flag.status
  | increment _ | decrement _ => [.parity, .adjust, .zero, .sign, .overflow]
  | multiplyImmediate _ | multiplyRegister => [.carry, .overflow]
  | adjustAfterAdd | adjustAfterSub | storeFlags => [.carry, .parity, .adjust, .zero, .sign]
  | adjustDigitAfterAdd | adjustDigitAfterSub => [.carry, .adjust]
  | splitDigits | joinDigits => [.parity, .zero, .sign]
  | popFlags | returnInterrupt => Flag.all
  | breakpoint | interrupt | interruptOnOverflow => [.trap, .interrupt]
  | changeFlag change => change.affected
  | shift .. => (Shift.ofCode reg).affected
  | unary _ =>
    match reg with
    | 0 | 1 | 3 => Flag.status
    | 4 | 5 => [.carry, .overflow]
    | _ => []
  | step | indirect =>
    match reg with
    | 0 | 1 => [.parity, .adjust, .zero, .sign, .overflow]
    | _ => []
  | _ => []

theorem ofByte_affected (b x : UInt8) :
    (Opcode.ofByte b).affected (ModRM.ofByte x).reg = affectedByOpcode b (ModRM.ofByte x).reg := by
  have hmap (b : UInt8) : ∀ reg : Fin 8,
      (Opcode.ofByte b).affected (UInt8.ofNat reg) = affectedByOpcode b (UInt8.ofNat reg) := by
    refine byte_of_below (n := 256) (P := fun b => ∀ reg : Fin 8,
      (Opcode.ofByte b).affected (UInt8.ofNat reg) = affectedByOpcode b (UInt8.ofNat reg)) ?_
      b.toNat_lt
    decide +kernel
  refine byte_of_below (n := 8)
    (P := fun reg => (Opcode.ofByte b).affected reg = affectedByOpcode b reg) (hmap b) ?_
  exact Nat.lt_succ_of_le Nat.and_le_right

theorem ofEscaped_affected (b reg : UInt8) :
    (Opcode.ofEscaped b).affected reg = if b = 0xAF then [.carry, .overflow] else [] := by
  unfold Opcode.ofEscaped
  by_cases hb : b = 0xAF
  · subst hb
    rfl
  · rw [if_neg hb]
    split
    · rfl
    split
    · rfl
    split <;> first | exact absurd rfl hb | rfl

end Opcodes

section Results

variable {β α : Type} {i : Instruction} {l : List Flag}

def Affects (x : Exec β Instruction) (l : List Flag) : Prop :=
  ∀ s i t, x s = .ok i t → i.affected ⊆ l

theorem affects_pure (h : i.affected ⊆ l) : Affects (pure i : Exec β Instruction) l := by
  intro s j t hj
  cases hj
  exact h

theorem Affects.bind {x : Exec β α} {f : α → Exec β Instruction} (h : ∀ a, Affects (f a) l) :
    Affects (x >>= f) l := by
  intro s i t hi
  obtain ⟨a, u, -, hu⟩ := ok_of_bind hi
  exact h a u i t hu

theorem affected_shift (op : Shift) (w : Width) (p : Place) (count : UInt8) :
    (Instruction.shift op w p count).affected ⊆ op.affected := by
  change (if count = 0 then [] else op.affected) ⊆ op.affected
  split
  · exact List.nil_subset _
  · exact List.Subset.refl _

end Results

section Decoding

variable {δ : Type} [Peripheral δ] {s t : System (Board δ)} {i : Instruction}

/-- The addressing byte of a group is the next one. -/
theorem affected_group {l : List Flag} {f : ModRM × Place → Exec (Board δ) Instruction}
    (hf : ∀ p, Affects (f (ModRM.ofByte (code s 0), p)) l)
    (h : (decodeModRM >>= f) s = .ok i t) : i.affected ⊆ l := by
  obtain ⟨⟨m, p⟩, u, hm, hu⟩ := ok_of_bind h
  obtain ⟨-, rfl⟩ := takes_decodeModRM s _ u hm
  exact hf p u i t hu

theorem affects_decodeUnary (w : Width) (size : OperandSize) (reg : UInt8) (p : Place) :
    Affects (decodeUnary w reg p : Exec (Board δ) Instruction)
      ((Opcode.unary size).affected reg) := by
  unfold decodeUnary
  split
  · exact Affects.bind fun _ => affects_pure (List.Subset.refl _)
  · exact Affects.bind fun _ => affects_pure (List.Subset.refl _)
  · exact affects_pure (List.nil_subset _)
  · exact affects_pure (List.Subset.refl _)
  · exact affects_pure (List.Subset.refl _)
  · exact affects_pure (List.Subset.refl _)
  · exact affects_pure (List.nil_subset _)
  · exact affects_pure (List.nil_subset _)

theorem affected_decodeIndirect (w : Width) (reg : UInt8) (p : Place) (bytes : List UInt8) :
    (decodeIndirect w reg p bytes).affected ⊆ Opcode.indirect.affected reg := by
  unfold decodeIndirect
  split
  · exact List.Subset.refl _
  · exact List.Subset.refl _
  all_goals cases p <;> exact List.nil_subset _

/-- Decoding an opcode gives instructions that change no other flags. -/
theorem affected_decode {bytes : List UInt8} {op : Opcode} (h : decode bytes op s = .ok i t) :
    i.affected ⊆ op.affected (ModRM.ofByte (code s 0)).reg := by
  have hwidth {size : OperandSize} {f : Width → Exec (Board δ) Instruction}
      (h : (widthOf size >>= f) s = .ok i t) : f (size.width s.cpu.prefixes) s = .ok i t := h
  have hcurrent {f : Width → Exec (Board δ) Instruction}
      (h : (currentWidth >>= f) s = .ok i t) : f s.cpu.prefixes.operandWidth s = .ok i t := h
  cases op with
  | arithmetic op layout size =>
    refine (?_ : Affects (decode bytes _) _) s i t h
    cases layout with
    | memoryRegister =>
      exact Affects.bind fun _ => Affects.bind fun _ => affects_pure (List.Subset.refl _)
    | registerMemory =>
      exact Affects.bind fun _ => Affects.bind fun _ => affects_pure (List.Subset.refl _)
    | accumulatorImmediate =>
      exact Affects.bind fun _ => Affects.bind fun _ => affects_pure (List.Subset.refl _)
  | string op size =>
    cases h
    cases op <;> exact List.Subset.refl _
  | returnNear releases =>
    refine (?_ : Affects (decode bytes _) _) s i t h
    cases releases with
    | false => exact affects_pure (List.nil_subset _)
    | true => exact Affects.bind fun _ => affects_pure (List.nil_subset _)
  | returnFar releases =>
    refine (?_ : Affects (decode bytes _) _) s i t h
    cases releases with
    | false => exact affects_pure (List.nil_subset _)
    | true => exact Affects.bind fun _ => affects_pure (List.nil_subset _)
  | shift count size =>
    refine affected_group (fun p => ?_) (hwidth h)
    cases count with
    | one => exact affects_pure (affected_shift _ _ _ _)
    | cl => exact Affects.bind fun _ => affects_pure (affected_shift _ _ _ _)
    | immediate => exact Affects.bind fun _ => affects_pure (affected_shift _ _ _ _)
  | unary size =>
    exact affected_group (fun p => affects_decodeUnary _ size _ p) (hwidth h)
  | step =>
    refine affected_group (fun p => ?_) h
    dsimp only
    generalize (ModRM.ofByte (code s 0)).reg = reg
    split
    · exact affects_pure (List.Subset.refl _)
    · exact affects_pure (List.Subset.refl _)
    · exact Affects.bind fun _ => affects_pure (List.nil_subset _)
  | indirect =>
    refine affected_group (fun p => ?_) (hcurrent h)
    exact affects_pure (affected_decodeIndirect _ _ p _)
  -- the other opcodes are one instruction each
  | _ =>
    refine (?_ : Affects (decode bytes _) _) s i t h
    unfold decode
    with_reducible repeat' first
      | exact affects_pure (List.Subset.refl _)
      | exact affects_pure (List.nil_subset _)
      | refine Affects.bind fun _ => ?_
      | split

theorem decodeOpcode_of_ne {β : Type} [Bus β] {b : UInt8} (h : b ≠ 0x0F) :
    (decodeOpcode b : Exec β Instruction) = decode [b] (Opcode.ofByte b) := by
  have hb := ofByte_isEscape b
  unfold decodeOpcode
  split
  · next he =>
    rw [he] at hb
    exact absurd (beq_iff_eq.1 hb.symm) h
  · rfl

theorem affected_decodeOpcode (h : decodeOpcode (code s 0) (advanced 1 s) = .ok i t) :
    i.affected ⊆ affectedByBody (code s) := by
  unfold affectedByBody
  by_cases hb : code s 0 = 0x0F
  · rw [hb] at h
    change (fetchByte >>= fun e => decode [0x0F, e] (Opcode.ofEscaped e)) (advanced 1 s) = _ at h
    obtain ⟨e, u, hf, hd⟩ := ok_of_bind h
    obtain ⟨rfl, rfl⟩ := takes_fetchByte _ e u hf
    rw [code_advanced] at hd
    rw [if_pos hb, ← ofEscaped_affected]
    exact affected_decode hd
  · rw [decodeOpcode_of_ne hb] at h
    have hd := affected_decode h
    rw [code_advanced] at hd
    rw [if_neg hb, ← ofByte_affected]
    exact hd

/-- A repetition of no elements is passed over, and any other is of elements like the one without
the prefix. -/
theorem affected_decodePrefixed {rep : Option UInt8}
    (h : decodePrefixed rep (code s 0) (advanced 1 s) = .ok i t) :
    i.affected ⊆ affectedByBody (code s) := by
  unfold decodePrefixed at h
  cases rep with
  | none => exact affected_decodeOpcode h
  | some r =>
    generalize hop : Opcode.ofByte (code s 0) = op at h
    cases op with
    | string op size =>
      have hplain := affected_decodeOpcode (decodeOpcode_string hop (advanced 1 s))
      dsimp only at h
      rw [run_registers] at h
      split at h
      · rw [run_modifyCpu, decodeOpcode_string hop] at h
        cases h
        cases op <;> exact hplain
      · cases h
        exact List.nil_subset _
    | _ => exact affected_decodeOpcode h

/-- Prefixes have no part in it. By induction on the bytes that are looked at. -/
theorem affected_decodeInstruction {rep : Option UInt8} {n : Nat}
    (h : decodeInstruction rep n s = .ok i t) :
    i.affected ⊆ affectedByBody fun k => code s ((leadingPrefixes n (code s)).length + k) := by
  induction n generalizing rep s with
  | zero => cases h
  | succ n ih =>
    obtain ⟨b, u, hf, hd⟩ := ok_of_bind h
    obtain ⟨rfl, rfl⟩ := takes_fetchByte s b u hf
    by_cases hb : IsPrefix (code s 0)
    · rw [decodeInstruction_of_isPrefix hb hf] at h
      have hrest := ih h
      have hcode : code (pushed (code s 0) s) = fun k => code s (k + 1) :=
        funext (code_pushed _ s)
      rw [hcode] at hrest
      rw [leadingPrefixes_succ_of_isPrefix hb]
      simp only [List.length_cons, Nat.add_right_comm]
      exact hrest
    · obtain ⟨hsimple, hrepeat⟩ := not_or.1 hb
      have hnone : leadingPrefixes (n + 1) (code s) = [] := if_neg hb
      rw [if_neg hsimple, if_neg hrepeat] at hd
      rw [hnone]
      simp only [List.length_nil, Nat.zero_add]
      exact affected_decodePrefixed hd

end Decoding

section Steps

variable {δ : Type} [Peripheral δ] {s t : System (Board δ)} {i : Instruction} {f : Flag}

/-- The step has no part in an interrupt, a trap or a fault. -/
structure Uneventful (s : System (Board δ)) : Prop where
  undisturbed : ¬Held s → ¬Taken s
  untrapped : ¬Traps s
  faultless : ¬Held s → fault? (iteration s) = none

theorem not_traps_of_trap_off (ht : ¬Taken s) (h : s.cpu.registers.flags.trap = false) :
    ¬Traps s := by
  rintro ⟨t, ⟨-, hservice, -⟩, htrap⟩
  rw [serviceInterrupt_of_not_taken ht] at hservice
  cases hservice
  exact Bool.false_ne_true (h.symm.trans htrap)

/-- Nothing happens in the step, or an instruction is carried out. -/
theorem Uneventful.step (h : Uneventful s) :
    ∃ t, step s = .ok () t ∧
      (t.cpu.registers.flags = s.cpu.registers.flags ∨ ∃ i, Completes s i t) := by
  by_cases hs : Held s
  · exact ⟨_, step_of_held hs, .inl rfl⟩
  have htaken := h.undisturbed hs
  rw [step_of_not_held hs]
  cases hrunning : s.cpu.halted with
  | true =>
    rw [iteration_of_halted htaken hrunning]
    exact ⟨_, rfl, .inl rfl⟩
  | false =>
    have hfetches : Fetches s (sampled s) :=
      ⟨hs, serviceInterrupt_of_not_taken htaken, hrunning⟩
    have htrap : (sampled s).cpu.registers.flags.trap = false :=
      Bool.eq_false_iff.2 fun htrap => h.untrapped ⟨_, hfetches, htrap⟩
    cases hv : iteration s with
    | error f v =>
      have hfaultless := h.faultless hs
      rw [hv] at hfaultless
      cases hfaultless
    | ok a v =>
      obtain ⟨_, w, hrun, hend⟩ := ok_of_bind (hfetches.iteration.symm.trans hv)
      rw [htrap] at hend
      cases hend
      rw [runInstruction_eq] at hrun
      obtain ⟨i, u, hd, he⟩ := ok_of_bind hrun
      exact ⟨_, rfl, .inr ⟨i, u, _, ⟨hs, htaken, hrunning, htrap, hd⟩, he, rfl⟩⟩

/-- The instruction changes no flags but its own, and those are among what the code tells. -/
theorem Completes.flags (h : Completes s i t) :
    i.affected ⊆ affectedByCode (code s) ∧
      ∀ f ∉ i.affected, t.cpu.registers.flags.get f = s.cpu.registers.flags.get f := by
  obtain ⟨u, v, hu, he, rfl⟩ := h
  refine ⟨affected_decodeInstruction (s := begun (sampled s)) hu.decodes, fun f hf => ?_⟩
  have hkept := keepsFlag_execute hf u
  rw [he] at hkept
  exact hkept.trans (congrArg (fun p : Flags => p.get f) hu.sameOperands.2)

def Flag.control : List Flag :=
  [trap, interrupt, direction]

/-- The instruction takes flags from the stack, enters an interrupt or is the one for the flag. -/
inductive Instruction.Controls (f : Flag) : Instruction → Prop
  | popFlags : Controls f .popFlags
  | returnInterrupt : Controls f .returnInterrupt
  | interrupt (vector : UInt8) : Controls f (.interrupt vector)
  | interruptOnOverflow : Controls f .interruptOnOverflow
  | changeFlag (change : FlagChange) (h : f ∈ change.affected) : Controls f (.changeFlag change)

theorem controls_of_affected (hf : f ∈ Flag.control) (h : f ∈ i.affected) : i.Controls f := by
  have hresult {l : List Flag} (hl : ∀ g ∈ l, g ∉ Flag.control) (h : f ∈ l) : i.Controls f :=
    absurd hf (hl f h)
  cases i with
  | popFlags => exact .popFlags
  | returnInterrupt => exact .returnInterrupt
  | interrupt vector => exact .interrupt vector
  | interruptOnOverflow => exact .interruptOnOverflow
  | changeFlag change => exact .changeFlag change h
  | shift op w p count =>
    refine hresult (l := op.affected) ?_ (affected_shift op w p count h)
    cases op <;> decide
  | unary op | accumulator op | string op =>
    cases op <;> (dsimp only [Instruction.affected] at h; exact hresult (by decide) h)
  | _ =>
    dsimp only [Instruction.affected] at h
    exact hresult (by decide) h

/-- A step without interrupt, trap or fault succeeds. A flag that it changes is one of those for the
instruction that it has carried out, and one of those for the opcode. The flags that are not about
results change by the instructions for them only. -/
theorem changed_flag_affected (h : Uneventful s) :
    ∃ t, step s = .ok () t ∧
      ∀ f, t.cpu.registers.flags.get f ≠ s.cpu.registers.flags.get f →
        ∃ i, Completes s i t ∧ f ∈ i.affected ∧ f ∈ affectedByCode (code s) ∧
          (f ∈ Flag.control → i.Controls f) := by
  obtain ⟨t, ht, hidle | ⟨i, hi⟩⟩ := h.step
  · exact ⟨t, ht, fun f hf => absurd (congrArg (fun p : Flags => p.get f) hidle) hf⟩
  · obtain ⟨hcode, hkept⟩ := hi.flags
    refine ⟨t, ht, fun f hf => ?_⟩
    have hmem : f ∈ i.affected := Classical.byContradiction fun hmem => hf (hkept f hmem)
    exact ⟨i, hi, hmem, hcode hmem, fun hcontrol => controls_of_affected hcontrol hmem⟩

end Steps

def steppingUp : System (Board ExpansionCard) where
  cpu := { registers := { eax := 0xFFFF, flags := { carry := true } } }
  bus := loaded [0x2E, 0x40]

/-- The zero flag is another behind the step, and the carry flag is not. -/
theorem changed_flag_affected_stepping_up :
    Uneventful steppingUp ∧ ∃ t, step steppingUp = .ok () t ∧
      t.cpu.registers.flags.carry = true ∧ t.cpu.registers.flags.zero = true ∧
      .zero ∈ affectedByCode (code steppingUp) := by
  have htaken : ¬Taken steppingUp := fun htaken => Bool.false_ne_true htaken.2.2
  have huneventful : Uneventful steppingUp :=
    { undisturbed := fun _ => htaken
      untrapped := not_traps_of_trap_off htaken rfl
      faultless := fun _ => by decide +kernel }
  obtain ⟨t, ht, hchanged⟩ := changed_flag_affected huneventful
  have hcarry : t.cpu.registers.flags.carry = true := Classical.byContradiction fun hcarry => by
    obtain ⟨i, -, -, hcode, -⟩ := hchanged .carry hcarry
    exact absurd hcode (by decide +kernel)
  have hzero : (final (step steppingUp)).cpu.registers.flags.zero = true := by decide +kernel
  rw [ht] at hzero
  obtain ⟨i, -, -, hcode, -⟩ := hchanged .zero fun h => Bool.false_ne_true (h.symm.trans hzero)
  exact ⟨huneventful, t, ht, hcarry, hzero, hcode⟩

end Pc8086.Cpu

import Pc8086.Proofs.Cpu.Encoding
import Pc8086.Proofs.Cpu.NarrowExecution

namespace Pc8086.Cpu

open Exec

def Opcode.extended? : Opcode → Option Width
  | .moveZeroExtended w | .moveSignExtended w => some w
  | _ => none

/-- No opcode extends a doubleword. -/
theorem extended_ofByte (b : UInt8) : (Opcode.ofByte b).extended? ≠ some .dword :=
  byte_of_below (n := 256) (P := fun b => (Opcode.ofByte b).extended? ≠ some .dword)
    (by decide +kernel) b.toNat_lt

theorem extended_ofEscaped (b : UInt8) : (Opcode.ofEscaped b).extended? ≠ some .dword :=
  byte_of_below (n := 256) (P := fun b => (Opcode.ofEscaped b).extended? ≠ some .dword)
    (by decide +kernel) b.toNat_lt

theorem operandWidth_of_unsized {c : Cpu} (h : Unsized c) : c.prefixes.operandWidth = .word := by
  unfold Prefixes.operandWidth
  rw [if_neg (mt List.contains_iff_mem.1 h)]

section Decoding

variable {β : Type} {w : Width}

theorem narrow_currentWidth : Unaware (· ≠ .dword) (currentWidth : Exec β Width) := by
  refine unaware_cpu (fun c h => unaware_pure ?_) fun _ _ => rfl
  rw [operandWidth_of_unsized h]
  decide

theorem narrow_widthOf (size : OperandSize) :
    Unaware (· ≠ .dword) (widthOf size : Exec β Width) := by
  cases size with
  | byte =>
    have hbyte : Width.byte ≠ .dword := by decide
    exact unaware_cpu (fun _ _ => unaware_pure hbyte) fun _ _ => rfl
  | current => exact narrow_currentWidth

theorem oblivious_operandSegment (i : Segment) :
    Oblivious (operandSegment i : Exec β Segment) :=
  unaware_cpu (fun _ _ => oblivious_pure _) fun _ _ => rfl

variable [Bus β]

theorem oblivious_fetchByte : Oblivious (fetchByte : Exec β UInt8) := by
  refine unaware_cpu (fun _ _ => ?_) fun _ _ => rfl
  exact (oblivious_onBus _).then fun b => (oblivious_jumpBy 1).then fun _ => oblivious_pure b

theorem oblivious_fetchWord : Oblivious (fetchWord : Exec β UInt16) :=
  oblivious_fetchByte.then fun _ => oblivious_fetchByte.then fun _ => oblivious_pure _

theorem oblivious_fetchSignedByte : Oblivious (fetchSignedByte : Exec β UInt32) :=
  oblivious_fetchByte.then fun _ => oblivious_pure _

theorem oblivious_fetch (w : Width) : Oblivious (fetch w : Exec β UInt32) := by
  cases w with
  | byte => exact oblivious_fetchByte.then fun _ => oblivious_pure _
  | word => exact oblivious_fetchWord.then fun _ => oblivious_pure _
  | dword =>
    exact oblivious_fetchWord.then fun _ => oblivious_fetchWord.then fun _ => oblivious_pure _

theorem oblivious_fetchImmediate (form : ImmediateForm) (w : Width) :
    Oblivious (fetchImmediate form w : Exec β UInt32) := by
  cases form with
  | full => exact oblivious_fetch w
  | signedByte => exact oblivious_fetchSignedByte
  | byte => exact oblivious_fetch .byte

theorem oblivious_fetchShortDistance : Oblivious (fetchShortDistance : Exec β UInt16) :=
  oblivious_fetchSignedByte.then fun _ => oblivious_pure _

theorem oblivious_fetchFarAddress : Oblivious (fetchFarAddress : Exec β SegmentedAddress) :=
  oblivious_fetchWord.then fun _ => oblivious_fetchWord.then fun _ => oblivious_pure _

theorem offset_withUpper (r q : Registers) (i : BaseIndex) :
    i.offset (r.withUpper q) = i.offset r := by
  cases i <;> simp only [BaseIndex.offset, Registers.word_withUpper]

theorem oblivious_decodeBase (m : ModRM) :
    Oblivious (decodeBase m : Exec β (Segment × UInt16)) := by
  unfold decodeBase
  split
  · exact oblivious_fetchWord.then fun _ => oblivious_pure _
  · exact unaware_registers (fun _ => oblivious_pure _) fun r q => by rw [offset_withUpper]

theorem oblivious_decodeDisplaced (m : ModRM) (i : Segment) (base : UInt16) :
    Oblivious (decodeDisplaced m i base : Exec β Place) := by
  have hplace : ∀ offset, Oblivious
      (do return .memory ⟨← operandSegment i, base + offset⟩ : Exec β Place) :=
    fun _ => (oblivious_operandSegment i).then fun _ => oblivious_pure _
  unfold decodeDisplaced
  split
  · exact (oblivious_fetchSignedByte.then fun _ => oblivious_pure _).then hplace
  · exact oblivious_fetchWord.then hplace
  · exact hplace 0

theorem oblivious_decodePlace (m : ModRM) : Oblivious (decodePlace m : Exec β Place) := by
  by_cases h : (m.mode == 3) = true
  · unfold decodePlace
    rw [if_pos h]
    exact oblivious_pure _
  · rw [decodePlace_eq h]
    exact (oblivious_decodeBase m).then fun _ => oblivious_decodeDisplaced m _ _

theorem oblivious_decodeModRM : Oblivious (decodeModRM : Exec β (ModRM × Place)) :=
  oblivious_fetchByte.then fun _ => (oblivious_decodePlace _).then fun _ => oblivious_pure _

theorem oblivious_directLocation : Oblivious (directLocation : Exec β Location) :=
  oblivious_fetchWord.then fun _ => unaware_cpu (fun _ _ => oblivious_pure _) fun _ _ => rfl

theorem narrow_decodeUnary (hw : w ≠ .dword) (code : UInt8) (p : Place) :
    Unaware Instruction.Narrow (decodeUnary w code p : Exec β Instruction) := by
  unfold decodeUnary
  split
  all_goals first
    | exact unaware_pure hw
    | exact (oblivious_fetch w).then fun _ => unaware_pure hw

theorem narrow_decodeIndirect (hw : w ≠ .dword) (code : UInt8) (p : Place) (bytes : List UInt8) :
    (decodeIndirect w code p bytes).Narrow := by
  unfold decodeIndirect
  repeat' split
  all_goals first
    | exact hw
    | exact trivial

theorem narrow_decode (bytes : List UInt8) {op : Opcode} (h : op.extended? ≠ some .dword) :
    Unaware Instruction.Narrow (decode bytes op : Exec β Instruction) := by
  have hbyte : Width.byte ≠ .dword := by decide
  have hcount : Oblivious ((·.lowByte .cx) <$> Exec.registers : Exec β UInt8) :=
    unaware_registers (f := fun r => pure (r.lowByte .cx)) (fun _ => oblivious_pure _) fun r q => by
      rw [r.lowByte_withUpper]
  unfold decode
  repeat' with_reducible first
    | exact hcount
    | exact oblivious_decodeModRM
    | exact oblivious_fetch _
    | exact oblivious_fetchByte
    | exact oblivious_fetchWord
    | exact oblivious_fetchImmediate _ _
    | exact oblivious_fetchShortDistance
    | exact oblivious_fetchFarAddress
    | exact oblivious_directLocation
    | exact oblivious_readPlace ‹_› _
    | exact narrow_decodeUnary ‹_› _ _
    | refine unaware_pure ?_
    | refine narrow_currentWidth.bind fun w hw => ?_
    | refine (narrow_widthOf _).bind fun w hw => ?_
    | refine unaware_cpu (fun _ _ => unaware_pure ?_) fun _ _ => rfl
    | refine unaware_registers (fun _ => unaware_pure ?_) fun r q => by rw [r.word_withUpper]
    | refine Unaware.then ?_ fun _ => ?_
    | split
  all_goals first
    | exact trivial
    | assumption
    | exact ⟨‹_›, fun hw => h (congrArg some hw)⟩
    | exact narrow_decodeIndirect ‹_› _ _ _

theorem narrow_decodeOpcode (b : UInt8) :
    Unaware Instruction.Narrow (decodeOpcode b : Exec β Instruction) := by
  have h := extended_ofByte b
  unfold decodeOpcode
  generalize Opcode.ofByte b = op at h
  split
  · exact oblivious_fetchByte.then fun e => narrow_decode _ (extended_ofEscaped e)
  · exact narrow_decode _ h

theorem narrow_decodePrefixed (rep : Option UInt8) (b : UInt8) :
    Unaware Instruction.Narrow (decodePrefixed rep b : Exec β Instruction) := by
  unfold decodePrefixed
  split
  · refine unaware_registers (fun r => ?_) fun r q => by rw [r.word_withUpper]
    split
    · exact Unaware.then (oblivious_modifyCpu (fun _ _ => rfl) fun _ h => h) fun _ =>
        narrow_decodeOpcode b
    · exact unaware_pure trivial
  · exact narrow_decodeOpcode b

end Decoding

section Prefixes

variable {β : Type} [Bus β] {s t : System β} {b : UInt8} {n : Nat}

/-- The operand-size prefix is one of the prefixes that follow here, within `n` bytes. -/
def MeetsOperandSize (n : Nat) (s : System β) : Prop :=
  ∃ ps t, (∀ p ∈ ps, IsPrefix p) ∧ ps.length < n ∧
    Supplies s (ps ++ [PrefixByte.operandSize]) t

theorem meets_of_fetched (h : fetchByte s = .ok PrefixByte.operandSize t) :
    MeetsOperandSize (n + 1) s :=
  ⟨[], t, fun _ h => absurd h List.not_mem_nil, Nat.succ_pos n, supplies_singleton.2 h⟩

theorem MeetsOperandSize.before {p : Prefixes} (h : MeetsOperandSize n { t with cpu.prefixes := p })
    (hf : fetchByte s = .ok b t) (hb : IsPrefix b) : MeetsOperandSize (n + 1) s := by
  obtain ⟨ps, u, hps, hn, hu⟩ := h
  refine ⟨b :: ps, { u with cpu.prefixes := t.cpu.prefixes }, ?_, Nat.succ_lt_succ hn,
    t, hf, hu.withPrefixes t.cpu.prefixes⟩
  exact List.forall_mem_cons.2 ⟨hb, hps⟩

/-- An opcode comes before any operand-size prefix. -/
theorem not_meets_of_opcode (hf : fetchByte s = .ok b t) (hb : ¬IsPrefix b) :
    ¬MeetsOperandSize n s := by
  rintro ⟨_ | ⟨p, ps⟩, u, hps, -, v, hv, -⟩
  · rw [hf] at hv
    cases hv
    exact hb (by decide)
  · rw [hf] at hv
    cases hv
    exact hb (hps _ List.mem_cons_self)

/-- By induction on the number of bytes that are looked at. -/
theorem ignores_decodeInstruction (rep : Option UInt8) (hs : Unsized s.cpu)
    (h : ¬MeetsOperandSize n s) :
    IgnoresUpper Unsized Instruction.Narrow (decodeInstruction rep n) s := by
  induction n generalizing rep s with
  | zero => exact unaware_throw (fun _ _ => rfl) s hs
  | succ n ih =>
    refine (oblivious_fetchByte s hs).bind fun b t hf _ ht => ?_
    have hb : PrefixByte.operandSize ≠ b := by
      rintro rfl
      exact h (meets_of_fetched hf)
    have hrecord : Oblivious
        (modifyCpu fun c => { c with prefixes := c.prefixes.push b } : Exec β Unit) :=
      oblivious_modifyCpu (fun _ _ => rfl) fun c hc => List.not_mem_cons_of_ne_of_not_mem hb hc
    have hbehind : IsPrefix b → ∀ rep, IgnoresUpper Unsized Instruction.Narrow
        (do
          modifyCpu fun c => { c with prefixes := c.prefixes.push b }
          decodeInstruction rep n : Exec β Instruction) t := by
      intro hp rep
      refine (hrecord t ht).bind fun _ u hu _ hunsized => ih rep hunsized fun hm => ?_
      cases hu
      exact h (hm.before hf hp)
    split
    · next hsimple => exact hbehind (.inl hsimple) rep
    · split
      · next hrepeat => exact hbehind (.inr hrepeat) (some b)
      · exact narrow_decodePrefixed rep b t ht

theorem ignores_runInstruction (rep : Option UInt8) (hs : Unsized s.cpu)
    (h : ¬MeetsOperandSize n s) :
    IgnoresUpper Unsized (fun _ => True) (runInstruction rep n) s := by
  rw [runInstruction_eq]
  exact (ignores_decodeInstruction rep hs h).bind fun i t _ hi ht => oblivious_execute hi t ht

end Prefixes

end Pc8086.Cpu

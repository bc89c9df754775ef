import Pc8086.Cpu.Instruction
import Pc8086.Proofs.Cpu.DoubleWidth

namespace Pc8086.Cpu

namespace Registers

def upperHalf (r : Registers) (i : Reg) : UInt16 :=
  (r.dword i >>> 16).toUInt16

def joinHalves (y x : UInt32) : UInt32 :=
  (y &&& 0xFFFF0000) ||| x.toUInt16.toUInt32

/-- With the upper halves of `q` in place of its own. -/
def withUpper (r q : Registers) : Registers :=
  { r with
    eax := joinHalves q.eax r.eax
    ecx := joinHalves q.ecx r.ecx
    edx := joinHalves q.edx r.edx
    ebx := joinHalves q.ebx r.ebx
    esp := joinHalves q.esp r.esp
    ebp := joinHalves q.ebp r.ebp
    esi := joinHalves q.esi r.esi
    edi := joinHalves q.edi r.edi }

/-- The change neither looks at the upper halves nor changes them. -/
def SparesUpper (f : Registers → Registers) : Prop :=
  ∀ r q, f (r.withUpper q) = (f r).withUpper q

section Halves

theorem joinHalves_toUInt16 (y x : UInt32) : (joinHalves y x).toUInt16 = x.toUInt16 :=
  splice_toUInt16 y x.toUInt16

theorem joinHalves_getLsbD (y x : UInt32) {i : Nat} (hi : i < 32) :
    (joinHalves y x).toBitVec.getLsbD i =
      if i < 16 then x.toBitVec.getLsbD i else y.toBitVec.getLsbD i := by
  unfold joinHalves
  rw [splice_getLsbD _ _ hi]
  split
  · next hl => rw [UInt32.toBitVec_toUInt16, BitVec.getLsbD_setWidth, decide_eq_true hl,
      Bool.true_and]
  · rfl

theorem joinHalves_upper (y x : UInt32) :
    (joinHalves y x >>> 16).toUInt16 = (y >>> 16).toUInt16 := by
  apply UInt16.eq_of_toBitVec_eq
  apply BitVec.eq_of_getLsbD_eq
  intro i hi
  have hshifted : ∀ x : UInt32,
      (x >>> 16).toUInt16.toBitVec.getLsbD i = x.toBitVec.getLsbD (16 + i) := by
    intro x
    rw [UInt32.toBitVec_toUInt16, BitVec.getLsbD_setWidth, decide_eq_true hi, Bool.true_and,
      UInt32.toBitVec_shiftRight]
    change BitVec.getLsbD (x.toBitVec >>> (16#32 % 32)) i = _
    simp
  rw [hshifted, hshifted, joinHalves_getLsbD _ _ (by omega), if_neg (by omega)]

theorem joinHalves_overwrite (y x : UInt32) {m v : UInt32} (hm : m ||| 0xFFFF = 0xFFFFFFFF)
    (hv : v.toNat < 65536) :
    (joinHalves y x &&& m) ||| v = joinHalves y ((x &&& m) ||| v) := by
  apply UInt32.eq_of_toBitVec_eq
  apply BitVec.eq_of_getLsbD_eq
  intro i hi
  rw [joinHalves_getLsbD _ _ hi]
  simp only [UInt32.toBitVec_or, UInt32.toBitVec_and, BitVec.getLsbD_or, BitVec.getLsbD_and]
  rw [joinHalves_getLsbD _ _ hi]
  split
  · rfl
  · next hl =>
    have hlower : ∀ i, i < 32 → (0xFFFF#32).getLsbD i = decide (i < 16) := by decide
    have hones : ∀ i, i < 32 → (0xFFFFFFFF#32).getLsbD i = true := by decide
    have hmask : m.toBitVec.getLsbD i = true := by
      have hbit := congrArg (fun u : UInt32 => u.toBitVec.getLsbD i) hm
      change (m.toBitVec ||| 0xFFFF#32).getLsbD i = (0xFFFFFFFF#32).getLsbD i at hbit
      rwa [BitVec.getLsbD_or, hlower i hi, hones i hi, decide_eq_false hl, Bool.or_false] at hbit
    have hvalue : v.toBitVec.getLsbD i = false := by
      have hpow : 2 ^ 16 ≤ 2 ^ i := Nat.pow_le_pow_right (by decide) (Nat.le_of_not_lt hl)
      exact Nat.testBit_lt_two_pow (Nat.lt_of_lt_of_le hv hpow)
    rw [hmask, hvalue, Bool.and_true, Bool.or_false]

theorem toUInt8_shiftRight (x : UInt32) : (x >>> 8).toUInt8 = (x.toUInt16 >>> 8).toUInt8 := by
  apply UInt8.eq_of_toBitVec_eq
  apply BitVec.eq_of_getLsbD_eq
  intro i hi
  have hlow : 8 + i < 16 := by omega
  simp [hi, hlow]

/-- Only the lower half counts for a number of at most sixteen bits. -/
theorem toInt_joinHalves {w : Width} (hw : w ≠ .dword) (y x : UInt32) :
    w.toInt (joinHalves y x) = w.toInt x := by
  have hlow : (joinHalves y x).toNat % 65536 = x.toNat % 65536 := by
    have h := congrArg UInt16.toNat (joinHalves_toUInt16 y x)
    rwa [UInt32.toNat_toUInt16, UInt32.toNat_toUInt16] at h
  have hnumber : ∀ n : Nat, n ∣ 65536 →
      ((joinHalves y x).toNat : Int).bmod n = (x.toNat : Int).bmod n := by
    intro n hn
    have hrest : (joinHalves y x).toNat % n = x.toNat % n := by
      rw [← Nat.mod_mod_of_dvd _ hn, hlow, Nat.mod_mod_of_dvd _ hn]
    rw [← Int.emod_bmod, ← Int.emod_bmod (x.toNat : Int), ← Int.natCast_emod, hrest,
      Int.natCast_emod]
  cases w with
  | byte => exact hnumber 256 (by decide)
  | word => exact hnumber 65536 (by decide)
  | dword => exact absurd rfl hw

theorem signBit_joinHalves {w : Width} (hw : w ≠ .dword) (y x : UInt32) :
    joinHalves y x &&& w.signBit = x &&& w.signBit := by
  apply UInt32.eq_of_toBitVec_eq
  apply BitVec.eq_of_getLsbD_eq
  intro i hi
  have hbit : ∀ i, i < 32 → 16 ≤ i → w.signBit.toBitVec.getLsbD i = false := by
    cases w with
    | byte => decide
    | word => decide
    | dword => exact absurd rfl hw
  rw [UInt32.toBitVec_and, UInt32.toBitVec_and, BitVec.getLsbD_and, BitVec.getLsbD_and,
    joinHalves_getLsbD _ _ hi]
  split
  · rfl
  · next hl => rw [hbit i hi (Nat.le_of_not_lt hl), Bool.and_false, Bool.and_false]

end Halves

section Reading

variable (r q : Registers)

@[simp] theorem withUpper_self : r.withUpper r = r := by
  unfold withUpper joinHalves
  simp only [splice_self]

theorem withUpper_withUpper (p : Registers) : r.withUpper (p.withUpper q) = r.withUpper q := by
  unfold withUpper joinHalves
  simp only [splice_splice]

@[simp] theorem dword_withUpper (i : Reg) :
    (r.withUpper q).dword i = joinHalves (q.dword i) (r.dword i) := by
  cases i <;> rfl

@[simp] theorem word_withUpper (i : Reg) : (r.withUpper q).word i = r.word i := by
  unfold word
  rw [dword_withUpper, joinHalves_toUInt16]

@[simp] theorem upperHalf_withUpper (i : Reg) : (r.withUpper q).upperHalf i = q.upperHalf i := by
  unfold upperHalf
  rw [dword_withUpper, joinHalves_upper]

@[simp] theorem lowByte_withUpper (i : Reg) : (r.withUpper q).lowByte i = r.lowByte i := by
  have hlow : ∀ r : Registers, r.lowByte i = (r.word i).toUInt8 := fun r =>
    (UInt32.toUInt8_toUInt16 (r.dword i)).symm
  rw [hlow, hlow, word_withUpper]

@[simp] theorem highByte_withUpper (i : Reg) : (r.withUpper q).highByte i = r.highByte i := by
  have hhigh : ∀ r : Registers, r.highByte i = (r.word i >>> 8).toUInt8 := fun r =>
    toUInt8_shiftRight (r.dword i)
  rw [hhigh, hhigh, word_withUpper]

@[simp] theorem al_withUpper : (r.withUpper q).al = r.al :=
  lowByte_withUpper r q .ax

@[simp] theorem ah_withUpper : (r.withUpper q).ah = r.ah :=
  highByte_withUpper r q .ax

@[simp] theorem segment_withUpper (i : Segment) : (r.withUpper q).segment i = r.segment i := by
  cases i <;> rfl

@[simp] theorem flags_withUpper : (r.withUpper q).flags = r.flags := rfl

theorem read_withUpper {w : Width} (hw : w ≠ .dword) (i : Reg) :
    (r.withUpper q).read w i = r.read w i := by
  cases w with
  | byte => cases i <;> simp [read, byte, Reg.byteHost]
  | word => simp [read]
  | dword => exact absurd rfl hw

end Reading

section Writing

variable (r q : Registers)

theorem setDword_withUpper (i : Reg) (x : UInt32) :
    (r.withUpper q).setDword i (joinHalves (q.dword i) x) = (r.setDword i x).withUpper q := by
  cases i <;> rfl

theorem overwrite_withUpper (i : Reg) {m v : UInt32} (hm : m ||| 0xFFFF = 0xFFFFFFFF)
    (hv : v.toNat < 65536) :
    (r.withUpper q).setDword i (((r.withUpper q).dword i &&& m) ||| v) =
      (r.setDword i ((r.dword i &&& m) ||| v)).withUpper q := by
  rw [dword_withUpper, joinHalves_overwrite _ _ hm hv, setDword_withUpper]

@[simp] theorem setWord_withUpper (i : Reg) (v : UInt16) :
    (r.withUpper q).setWord i v = (r.setWord i v).withUpper q :=
  overwrite_withUpper r q i (by decide) (by simpa using v.toNat_lt)

@[simp] theorem setLowByte_withUpper (i : Reg) (v : UInt8) :
    (r.withUpper q).setLowByte i v = (r.setLowByte i v).withUpper q :=
  overwrite_withUpper r q i (by decide) (by have h := v.toNat_lt; simp; omega)

@[simp] theorem setHighByte_withUpper (i : Reg) (v : UInt8) :
    (r.withUpper q).setHighByte i v = (r.setHighByte i v).withUpper q :=
  overwrite_withUpper r q i (by decide) (by have h := v.toNat_lt; simp [Nat.shiftLeft_eq]; omega)

@[simp] theorem setAl_withUpper (v : UInt8) : (r.withUpper q).setAl v = (r.setAl v).withUpper q :=
  setLowByte_withUpper r q .ax v

@[simp] theorem setAh_withUpper (v : UInt8) : (r.withUpper q).setAh v = (r.setAh v).withUpper q :=
  setHighByte_withUpper r q .ax v

@[simp] theorem setSegment_withUpper (s : Segment) (v : UInt16) :
    (r.withUpper q).setSegment s v = (r.setSegment s v).withUpper q := by
  cases s <;> rfl

@[simp] theorem setLost_withUpper (lost : Bool) :
    (r.withUpper q).setLost lost = (r.setLost lost).withUpper q := rfl

@[simp] theorem flagByte_withUpper (v : UInt8) :
    (r.withUpper q).flagByte v = (r.flagByte v).withUpper q := rfl

theorem write_withUpper {w : Width} (hw : w ≠ .dword) (i : Reg) (v : UInt32) :
    (r.withUpper q).write w i v = (r.write w i v).withUpper q := by
  cases w with
  | byte => cases i <;> simp [write, setByte, Reg.byteHost]
  | word => simp [write]
  | dword => exact absurd rfl hw

end Writing

section Arithmetic

variable {w : Width} (hw : w ≠ .dword) (r q : Registers)
include hw

theorem doubleAccumulator_withUpper :
    (r.withUpper q).doubleAccumulator w = r.doubleAccumulator w := by
  cases w with
  | byte => simp [doubleAccumulator]
  | word => simp [doubleAccumulator]
  | dword => exact absurd rfl hw

theorem setDoubleAccumulator_withUpper (low high : UInt32) :
    (r.withUpper q).setDoubleAccumulator w low high =
      (r.setDoubleAccumulator w low high).withUpper q := by
  cases w with
  | byte => simp [setDoubleAccumulator]
  | word => simp [setDoubleAccumulator]
  | dword => exact absurd rfl hw

theorem multiply_withUpper (v : UInt32) :
    (r.withUpper q).multiply w v = (r.multiply w v).withUpper q := by
  simp only [multiply_eq, wideMultiply, read_withUpper r q hw, setDoubleAccumulator_withUpper hw,
    setLost_withUpper]

theorem multiplySigned_withUpper (v : UInt32) :
    (r.withUpper q).multiplySigned w v = (r.multiplySigned w v).withUpper q := by
  simp only [multiplySigned_eq, wideMultiplySigned, read_withUpper r q hw, setDoubleAccumulator_withUpper hw,
    setLost_withUpper]

theorem multiplyTruncated_withUpper (i : Reg) (a b : UInt32) :
    (r.withUpper q).multiplyTruncated w i a b = (r.multiplyTruncated w i a b).withUpper q := by
  simp only [multiplyTruncated, setLost_withUpper, write_withUpper _ _ hw]

theorem divide?_withUpper (v : UInt32) :
    (r.withUpper q).divide? w v = (r.divide? w v).map (·.withUpper q) := by
  simp only [divide?_eq, wideDivide?, doubleAccumulator_withUpper hw, setDoubleAccumulator_withUpper hw]
  split <;> rfl

theorem divideSigned?_withUpper (v : UInt32) :
    (r.withUpper q).divideSigned? w v = (r.divideSigned? w v).map (·.withUpper q) := by
  simp only [divideSigned?_eq, wideDivideSigned?, doubleAccumulator_withUpper hw, setDoubleAccumulator_withUpper hw]
  split <;> rfl

theorem extendAccumulator_withUpper :
    (r.withUpper q).extendAccumulator w = (r.extendAccumulator w).withUpper q := by
  have hnarrow : ∀ r : Registers, r.extendAccumulator w =
      r.setWord .ax (Width.byte.signExtend (r.dword .ax)).toUInt16 := by
    intro r
    cases w with
    | byte => rfl
    | word => rfl
    | dword => exact absurd rfl hw
  simp only [hnarrow, Width.signExtend, dword_withUpper, setWord_withUpper,
    toInt_joinHalves (show Width.byte ≠ .dword by decide)]

theorem extendDouble_withUpper :
    (r.withUpper q).extendDouble w = (r.extendDouble w).withUpper q := by
  have hnarrow : ∀ r : Registers, r.extendDouble w =
      r.setWord .dx (if r.dword .ax &&& Width.word.signBit != 0 then 0xFFFF else 0) := by
    intro r
    cases w with
    | byte => rfl
    | word => rfl
    | dword => exact absurd rfl hw
  simp only [hnarrow, dword_withUpper, setWord_withUpper,
    signBit_joinHalves (show Width.word ≠ .dword by decide)]

end Arithmetic

section Decimal

def setFlags (r : Registers) (f : Flags) : Registers :=
  { r with flags := f }

@[simp] theorem setFlags_withUpper (r q : Registers) (f : Flags) :
    (r.withUpper q).setFlags f = (r.setFlags f).withUpper q := rfl

theorem sparesUpper_flags (f : Flags → Flags) :
    SparesUpper fun r => { r with flags := f r.flags } :=
  fun _ _ => rfl

theorem sparesUpper_adjustPacked (low high : UInt8) :
    SparesUpper fun r => r.adjustPacked low high := by
  have heq : ∀ r : Registers, r.adjustPacked low high =
      let lower := r.al &&& 0x0F > 9 || r.flags.adjust
      let upper := r.al > 0x99 || r.flags.carry
      let v := r.al + (if upper then high else 0) + (if lower then low else 0)
      ((r.setFlags { r.flags with carry := upper, adjust := lower }).setAl v).flagByte v :=
    fun _ => rfl
  intro r q
  simp only [heq, al_withUpper, flags_withUpper, setFlags_withUpper, setAl_withUpper,
    flagByte_withUpper]

theorem sparesUpper_adjustUnpacked (low high : UInt8) :
    SparesUpper fun r => r.adjustUnpacked low high := by
  have heq : ∀ r : Registers, r.adjustUnpacked low high =
      let carry := r.flags.adjust || r.al &&& 0x0F > 9
      let v := if carry then r.al + low else r.al
      let r := if carry then r.setAh (r.ah + high) else r
      (r.setFlags { r.flags with carry := carry, adjust := carry }).setAl (v &&& 0x0F) :=
    fun _ => rfl
  intro r q
  simp only [heq, al_withUpper, ah_withUpper, flags_withUpper, setAh_withUpper]
  split <;> simp only [flags_withUpper, setFlags_withUpper, setAl_withUpper]

theorem splitDigits?_withUpper (r q : Registers) (base : UInt8) :
    (r.withUpper q).splitDigits? base = (r.splitDigits? base).map (·.withUpper q) := by
  simp only [splitDigits?, al_withUpper, setAh_withUpper, setAl_withUpper, flagByte_withUpper]
  split <;> rfl

theorem sparesUpper_joinDigits (base : UInt8) : SparesUpper fun r => r.joinDigits base := by
  intro r q
  simp only [joinDigits, al_withUpper, ah_withUpper, setWord_withUpper, flagByte_withUpper]

end Decimal

end Registers

end Pc8086.Cpu

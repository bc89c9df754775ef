import Mathlib.Tactic.LinearCombination
import Pc8086.Proofs.Cpu.DoubleAccumulator
import Pc8086.Proofs.Cpu.Supply

namespace Pc8086

namespace Width

variable (w : Width) (signed : Bool)

def value (v : UInt32) : Int :=
  if signed then w.toInt v else w.toNat v

def Holds (x : Int) : Prop :=
  if signed then w.Signed x else w.Unsigned x

def HoldsDouble (x : Int) : Prop :=
  if signed then -(2 ^ (2 * w.bits - 1) : Nat) ≤ x ∧ x < (2 ^ (2 * w.bits - 1) : Nat)
  else 0 ≤ x ∧ x < (2 ^ (2 * w.bits) : Nat)

/-- What stands above `v` in twice the width: zeros or copies of its sign. -/
def extension (v : UInt32) : UInt32 :=
  if signed = true ∧ w.toInt v < 0 then w.mask else 0

variable {w signed}

theorem value_ofInt {x : Int} (h : w.Holds signed x) : w.value signed (UInt32.ofInt x) = x := by
  unfold value
  unfold Holds at h
  cases signed with
  | true => exact (w.toInt_ofInt_eq_iff x).2 h
  | false =>
    change (w.toNat (UInt32.ofInt x) : Int) = x
    rw [w.toNat_ofInt]
    exact Int.emod_eq_of_lt h.1 h.2

theorem holds_value (v : UInt32) : w.Holds signed (w.value signed v) := by
  unfold value Holds
  cases signed with
  | true => exact w.signed_toInt v
  | false => exact ⟨Int.natCast_nonneg _, Int.ofNat_lt.2 (w.toNat_lt v)⟩

theorem value_congr {a b : UInt32} (h : w.toNat a = w.toNat b) :
    w.value signed a = w.value signed b := by
  unfold value
  rw [w.toInt_eq, w.toInt_eq, h]

theorem toNat_eq_of_value {a b : UInt32} (h : w.value signed a = w.value signed b) :
    w.toNat a = w.toNat b := by
  have ha := w.toNat_lt a
  have hb := w.toNat_lt b
  unfold value at h
  cases signed with
  | true =>
    simp only [if_true, w.toInt_eq] at h
    split at h <;> split at h <;> omega
  | false => exact Int.ofNat_inj.1 h

theorem value_eq_zero_iff {v : UInt32} : w.value signed v = 0 ↔ w.toNat v = 0 := by
  have hm := w.two_pow_bits
  have hv := w.toNat_lt v
  unfold value
  cases signed with
  | true =>
    simp only [if_true, w.toInt_eq]
    split <;> omega
  | false => exact Int.natCast_eq_zero

theorem extension_unsigned (v : UInt32) : w.extension false v = 0 :=
  if_neg fun h => Bool.false_ne_true h.1

theorem toNat_extension_signed (v : UInt32) :
    (w.extension true v).toNat = if w.toNat v < 2 ^ (w.bits - 1) then 0 else 2 ^ w.bits - 1 := by
  have hm := w.two_pow_bits
  have hv := w.toNat_lt v
  have hneg : w.toInt v < 0 ↔ ¬w.toNat v < 2 ^ (w.bits - 1) := by
    rw [w.toInt_eq]
    split <;> omega
  unfold extension
  simp only [true_and, hneg]
  split
  · exact w.mask_toNat
  · exact (if_pos (not_not.1 ‹_›)).symm

end Width

namespace Cpu

namespace Registers

def double (r : Registers) (signed : Bool) (w : Width) : Int :=
  if signed then r.signedDouble w else (r.doubleAccumulator w).toNat

structure Multiplied (signed : Bool) (w : Width) (v : UInt32) (r r' : Registers) : Prop where
  product : r'.double signed w = w.value signed (r.lowHalf w) * w.value signed v
  fits : w.HoldsDouble signed (w.value signed (r.lowHalf w) * w.value signed v)
  /-- The upper half is more than zeros or copies of the sign. -/
  carry : r'.flags.carry = true ↔ r'.highHalf w ≠ w.extension signed (r'.lowHalf w)
  flags : r'.flags = { r.flags with carry := r'.flags.carry, overflow := r'.flags.carry }

/-- The double accumulator was divided by `v`, towards zero. -/
structure Divided (signed : Bool) (w : Width) (v : UInt32) (r r' : Registers) : Prop where
  quotient : r.double signed w =
    w.value signed (r'.lowHalf w) * w.value signed v + w.value signed (r'.highHalf w)
  remainder : (w.value signed (r'.highHalf w)).natAbs < (w.value signed v).natAbs
  sign : w.value signed (r'.highHalf w) = 0 ∨
    (w.value signed (r'.highHalf w)).sign = (r.double signed w).sign
  flags : r'.flags = r.flags

def Indivisible (signed : Bool) (w : Width) (v : UInt32) (r : Registers) : Prop :=
  w.value signed v = 0 ∨ ¬w.Holds signed ((r.double signed w).tdiv (w.value signed v))

variable (r : Registers) {w : Width} {v : UInt32}

theorem toNat_lowHalf : w.toNat (r.lowHalf w) = (r.lowHalf w).toNat :=
  r.toNat_read w .ax

/-- Both flags are set to the same, and the others are kept. -/
theorem flags_lost {r r' : Registers} {low high : UInt32} {lost : Bool}
    (h : r' = (r.setDoubleAccumulator w low high).setLost lost) :
    r'.flags = { r.flags with carry := r'.flags.carry, overflow := r'.flags.carry } := by
  rw [h, ← flags_setDoubleAccumulator r w low high]
  rfl

theorem holdsDouble_double (signed : Bool) : w.HoldsDouble signed (r.double signed w) := by
  cases signed with
  | true => exact r.signedDouble_bounds w
  | false => exact ⟨Int.natCast_nonneg _, Int.ofNat_lt.2 (r.double_lt w)⟩

theorem multiplied_unsigned (hv : v.toNat < 2 ^ w.bits) :
    Multiplied false w v r (r.multiply w v) := by
  have hproduct : w.value false (r.lowHalf w) * w.value false v =
      ((r.multiply w v).doubleAccumulator w).toNat := by
    change (w.toNat _ : Int) * w.toNat v = _
    rw [r.double_multiply w v hv, w.toNat_eq_self hv, toNat_lowHalf, Int.natCast_mul]
  refine ⟨hproduct.symm, ?_, ?_, flags_lost (r.multiply_eq v w)⟩
  · rw [hproduct]
    exact holdsDouble_double _ false
  · rw [Width.extension_unsigned, multiply_eq, wideMultiply, highHalf_setLost, ne_eq, ← UInt32.toNat_inj,
      toNat_highHalf_set, ← w.toNat_truncate]
    exact bne_iff_ne.trans (not_congr UInt32.toNat_inj.symm)

theorem multiplied_signed : Multiplied true w v r (r.multiplySigned w v) := by
  have hproduct : w.value true (r.lowHalf w) * w.value true v =
      (r.multiplySigned w v).signedDouble w := (r.double_multiplySigned w v).symm
  refine ⟨hproduct.symm, ?_, ?_, flags_lost (r.multiplySigned_eq v w)⟩
  · rw [hproduct]
    exact holdsDouble_double _ true
  · have hfits := w.natAbs_mul_toInt (r.lowHalf w) v
    have hhalves := signed_iff_halves w hfits (w.toNat_ofInt _) (toNat_ofInt_upper w _)
    have hlost := w.toInt_ofInt_eq_iff (w.toInt (r.lowHalf w) * w.toInt v)
    have hsame : (r.multiplySigned w v).flags.carry = true ↔
        ¬w.Signed (w.toInt (r.lowHalf w) * w.toInt v) := by
      rw [multiplySigned_eq]
      exact bne_iff_ne.trans (not_congr hlost)
    rw [hsame, hhalves, ne_eq, ← UInt32.toNat_inj, Width.toNat_extension_signed, toNat_lowHalf,
      multiplySigned_eq, wideMultiplySigned, highHalf_setLost, lowHalf_setLost, toNat_lowHalf_set,
      toNat_highHalf_set]
    rfl

structure MultipliedInto (w : Width) (i : Reg) (x y : UInt32) (r r' : Registers) : Prop where
  product : ((r'.read w i).toNat : Int) = w.toInt x * w.toInt y % (2 ^ w.bits : Nat)
  fits : w.HoldsDouble true (w.toInt x * w.toInt y)
  /-- The product was cut. -/
  carry : r'.flags.carry = true ↔ ¬w.Signed (w.toInt x * w.toInt y)
  flags : r'.flags = { r.flags with carry := r'.flags.carry, overflow := r'.flags.carry }

theorem holdsDouble_product (x y : UInt32) : w.HoldsDouble true (w.toInt x * w.toInt y) := by
  have hfits := w.natAbs_mul_toInt x y
  rw [Width.HoldsDouble, if_pos rfl]
  cases w <;> simp only [Width.bits, Nat.reduceMul, Nat.reduceSub, Nat.reducePow] at * <;> omega

theorem multipliedInto_multiplyTruncated (i : Reg) (x y : UInt32) :
    MultipliedInto w i x y r (r.multiplyTruncated w i x y) := by
  let low := w.truncate (UInt32.ofInt (w.toInt x * w.toInt y))
  have hlow : w.toNat low = w.toNat (UInt32.ofInt (w.toInt x * w.toInt y)) := by
    rw [w.toNat_eq_self ((w.toNat_truncate _).trans_lt (w.toNat_lt _)), w.toNat_truncate]
  have hsame : w.toInt low = w.toInt (UInt32.ofInt (w.toInt x * w.toInt y)) := by
    rw [w.toInt_eq, w.toInt_eq, hlow]
  have hflags : (r.multiplyTruncated w i x y).flags =
      (r.setLost (w.toInt low != w.toInt x * w.toInt y)).flags := apart_flags.write _ w i low
  refine ⟨?_, holdsDouble_product x y, ?_, ?_⟩
  · rw [multiplyTruncated, toNat_read_write, ← w.toNat_ofInt]
    exact congrArg Nat.cast hlow
  · rw [hflags, ← w.toInt_ofInt_eq_iff, ← hsame]
    exact bne_iff_ne
  · rw [hflags]
    rfl

theorem divided_of_halves {signed : Bool} {low high : UInt32} (hv : w.value signed v ≠ 0)
    (hlow : w.value signed low = (r.double signed w).tdiv (w.value signed v))
    (hhigh : w.value signed high = (r.double signed w).tmod (w.value signed v)) :
    Divided signed w v r (r.setDoubleAccumulator w low high) := by
  have hlower : w.value signed ((r.setDoubleAccumulator w low high).lowHalf w) =
      (r.double signed w).tdiv (w.value signed v) := by
    rw [← hlow]
    exact Width.value_congr ((toNat_lowHalf _).trans (toNat_lowHalf_set ..))
  have hupper : w.value signed ((r.setDoubleAccumulator w low high).highHalf w) =
      (r.double signed w).tmod (w.value signed v) := by
    rw [← hhigh]
    exact Width.value_congr ((toNat_highHalf _ w).trans (toNat_highHalf_set ..))
  refine ⟨?_, ?_, ?_, flags_setDoubleAccumulator r w low high⟩
  · rw [hlower, hupper, Int.mul_comm, Int.mul_tdiv_add_tmod]
  · rw [hupper, Int.natAbs_tmod]
    exact Nat.mod_lt _ (Int.natAbs_pos.2 hv)
  · rw [hupper, Int.sign_tmod]
    split
    · next hdvd => exact .inl (Int.tmod_eq_zero_of_dvd hdvd)
    · exact .inr rfl

theorem divide?_unsigned (hv : v.toNat < 2 ^ w.bits) :
    (Indivisible false w v r → r.divide? w v = none) ∧
      (¬Indivisible false w v r → ∃ r', r.divide? w v = some r' ∧ Divided false w v r r') := by
  have hself := w.toNat_eq_self hv
  have hvalue : w.value false v = v.toNat := congrArg Nat.cast hself
  have hquotient : (r.double false w).tdiv (w.value false v) =
      ((r.doubleAccumulator w).toNat / v.toNat : Nat) := by
    rw [hvalue]
    rfl
  have hcond : Indivisible false w v r ↔
      v.toNat = 0 ∨ Nat.pow 2 w.bits ≤ (r.doubleAccumulator w).toNat / v.toNat := by
    rw [Indivisible, Width.value_eq_zero_iff, hself, hquotient]
    refine or_congr_right ?_
    rw [Width.Holds, if_neg Bool.false_ne_true, Width.Unsigned, Nat.pow_eq]
    generalize (r.doubleAccumulator w).toNat / v.toNat = q
    omega
  rw [divide?_eq]
  refine ⟨fun h => if_pos (hcond.1 h), fun h => ⟨_, if_neg (mt hcond.2 h), ?_⟩⟩
  rw [hcond, not_or, not_le] at h
  have hpos : 0 < v.toNat := Nat.pos_of_ne_zero h.1
  have hcut {n : Nat} (hn : n < 2 ^ w.bits) : w.value false n.toUInt32 = n := by
    have hmod : w.toNat n.toUInt32 = n % 2 ^ 32 % 2 ^ w.bits := rfl
    have hcut : w.toNat n.toUInt32 = n := by
      rw [hmod, Nat.mod_mod_of_dvd _ w.two_pow_bits_dvd, Nat.mod_eq_of_lt hn]
    exact congrArg Nat.cast hcut
  refine divided_of_halves r (mt Width.value_eq_zero_iff.1 (hself ▸ h.1)) ?_ ?_
  · rw [hcut h.2, hquotient]
  · rw [hcut ((Nat.mod_lt _ hpos).trans hv), hvalue]
    rfl

theorem divideSigned?_signed :
    (Indivisible true w v r → r.divideSigned? w v = none) ∧
      (¬Indivisible true w v r → ∃ r', r.divideSigned? w v = some r' ∧ Divided true w v r r') := by
  have hcond : Indivisible true w v r ↔ w.toInt v = 0 ∨
      (r.signedDouble w).tdiv (w.toInt v) < -Int.pow 2 (w.bits - 1) ∨
      Int.pow 2 (w.bits - 1) ≤ (r.signedDouble w).tdiv (w.toInt v) := by
    have hbase : Int.pow 2 (w.bits - 1) = (2 ^ (w.bits - 1) : Nat) := by
      cases w <;> rfl
    rw [hbase]
    refine or_congr_right ?_
    change ¬w.Signed ((r.signedDouble w).tdiv (w.toInt v)) ↔ _
    rw [Width.Signed]
    omega
  rw [divideSigned?_eq]
  refine ⟨fun h => if_pos (hcond.1 h), fun h => ⟨_, if_neg (mt hcond.2 h), ?_⟩⟩
  obtain ⟨hne, hholds⟩ := not_or.1 h
  refine divided_of_halves r hne (Width.value_ofInt (not_not.1 hholds)) (Width.value_ofInt ?_)
  -- a remainder is smaller than the divisor, so it has a place
  have hdivisor := w.signed_toInt v
  have hremainder := Int.natAbs_tmod (r.signedDouble w) (w.toInt v)
  have hlt := Nat.mod_lt (r.signedDouble w).natAbs (Int.natAbs_pos.2 hne)
  change -_ ≤ (r.signedDouble w).tmod (w.toInt v) ∧ (r.signedDouble w).tmod (w.toInt v) < _
  change (r.signedDouble w).natAbs % (w.toInt v).natAbs < (w.toInt v).natAbs at hlt
  rw [Width.Signed] at hdivisor
  omega

def division? (signed : Bool) (w : Width) (v : UInt32) : Option Registers :=
  if signed then r.divideSigned? w v else r.divide? w v

theorem division?_divided (signed : Bool) (hv : v.toNat < 2 ^ w.bits) :
    (Indivisible signed w v r → r.division? signed w v = none) ∧
      (¬Indivisible signed w v r →
        ∃ r', r.division? signed w v = some r' ∧ Divided signed w v r r') := by
  cases signed with
  | true => exact r.divideSigned?_signed
  | false => exact r.divide?_unsigned hv

/-- Whatever the divisor, the quotient is a number of twice the width. -/
theorem natAbs_quotient_le (signed : Bool) (x : Int) :
    ((r.double signed w).tdiv x).natAbs < 2 ^ (2 * w.bits) := by
  refine (Int.natAbs_tdiv_le_natAbs _ x).trans_lt ?_
  cases signed with
  | true =>
    have hbounds := r.signedDouble_bounds w
    have hpow : 2 ^ (2 * w.bits) = 2 * 2 ^ (2 * w.bits - 1) := by
      cases w <;> rfl
    change (r.signedDouble w).natAbs < _
    omega
  | false => exact r.double_lt w

/-- A product divided by one of its factors is the other. -/
theorem Divided.of_multiplied {signed : Bool} {r r' r'' : Registers}
    (hm : Multiplied signed w v r r') (hd : Divided signed w v r' r'') :
    w.value signed (r''.lowHalf w) = w.value signed (r.lowHalf w) ∧
      w.value signed (r''.highHalf w) = 0 := by
  have hsum := hd.quotient
  have hlt := hd.remainder
  rw [hm.product] at hsum
  generalize w.value signed v = x at *
  have hdvd : x ∣ w.value signed (r''.highHalf w) := by
    refine ⟨w.value signed (r.lowHalf w) - w.value signed (r''.lowHalf w), ?_⟩
    linear_combination -hsum
  have hzero : w.value signed (r''.highHalf w) = 0 :=
    Int.eq_zero_of_dvd_of_natAbs_lt_natAbs hdvd hlt
  have hx : x ≠ 0 := by
    rintro rfl
    exact absurd hlt (Nat.not_lt_zero _)
  rw [hzero, add_zero] at hsum
  exact ⟨(Int.eq_of_mul_eq_mul_right hx hsum).symm, hzero⟩

/-- A product can be divided by every factor that is not zero. -/
theorem divisible_of_multiplied {signed : Bool} {r r' : Registers}
    (hm : Multiplied signed w v r r') (hv : w.value signed v ≠ 0) :
    ¬Indivisible signed w v r' := by
  rintro (h | h)
  · exact hv h
  · rw [hm.product, Int.mul_tdiv_cancel _ hv] at h
    exact h (Width.holds_value _)

end Registers

open Exec

def AccumulatorOperation.multiplication : Bool → AccumulatorOperation
  | true => .multiplySigned
  | false => .multiply

def AccumulatorOperation.division : Bool → AccumulatorOperation
  | true => .divideSigned
  | false => .divide

variable {β : Type} [Bus β] {w : Width} {s t : System β} {v : UInt32} {source : Place}
  {signed : Bool}

/-- By induction on the number of bytes. -/
theorem toNat_lt_of_readBytes {i : Segment} {offset : UInt16} {n : Nat} (hn : n ≤ 4)
    (h : readBytes i offset n s = .ok v t) : v.toNat < 2 ^ (8 * n) := by
  induction n generalizing offset s v t with
  | zero =>
    cases h
    exact Nat.one_pos
  | succ n ih =>
    obtain ⟨a, u, -, h⟩ := ok_of_bind h
    obtain ⟨b, u, -, h⟩ := ok_of_bind h
    obtain ⟨rest, u, hrest, h⟩ := ok_of_bind h
    cases h
    have hlt := ih (by omega) hrest
    have hb := b.toNat_lt
    have hpow : 2 ^ (8 * (n + 1)) = 2 ^ (8 * n) * 256 := Nat.pow_add 2 (8 * n) 8
    have hroom : 2 ^ (8 * n) ≤ 2 ^ 24 := Nat.pow_le_pow_right (by decide) (by omega)
    rw [Memory.byte_below_toNat rest b (hlt.trans_le hroom), hpow]
    omega

theorem toNat_lt_of_readPlace (h : readPlace w source s = .ok v t) : v.toNat < 2 ^ w.bits := by
  cases source with
  | register i =>
    cases h
    rw [← Registers.toNat_read]
    exact w.toNat_lt _
  | memory l =>
    have hbytes : w.bytes ≤ 4 := by
      cases w <;> decide
    have hbits : 8 * w.bytes = w.bits := by
      cases w <;> rfl
    exact hbits ▸ toNat_lt_of_readBytes hbytes h

theorem registers_of_readPlace (h : readPlace w source s = .ok v t) :
    t.cpu.registers = s.cpu.registers := by
  have hkept := (keeps_accessing (g := id)).readPlace w source s
  rwa [h] at hkept

theorem registers_of_readSource {p : Source} (h : readSource w p s = .ok v t) :
    t.cpu.registers = s.cpu.registers := by
  have hkept := (keeps_accessing (g := id)).readSource w p s
  rwa [h] at hkept

theorem execute_multiplication (signed : Bool) (h : readPlace w source s = .ok v t) :
    ∃ r, execute (.accumulator (.multiplication signed) w source) s =
        .ok () { t with cpu.registers := r } ∧
      Registers.Multiplied signed w v s.cpu.registers r := by
  rw [← registers_of_readPlace h, execute, accumulator, bind_ok _ h]
  cases signed with
  | true => exact ⟨_, rfl, t.cpu.registers.multiplied_signed⟩
  | false => exact ⟨_, rfl, t.cpu.registers.multiplied_unsigned (toNat_lt_of_readPlace h)⟩

/-- The result of a division is stored, and the lack of one reported. -/
theorem execute_division_eq (h : readPlace w source s = .ok v t) {r' : Option Registers}
    (hr : t.cpu.registers.division? signed w v = r') :
    execute (.accumulator (.division signed) w source) s =
      r'.elim (.error (.divideError t.cpu.instructionAddress) t)
        fun r => .ok () { t with cpu.registers := r } := by
  subst hr
  rw [execute, accumulator, bind_ok _ h, run_registers]
  cases signed with
  | true =>
    change _ = (t.cpu.registers.divideSigned? w v).elim _ _
    dsimp only [AccumulatorOperation.division]
    cases t.cpu.registers.divideSigned? w v <;> rfl
  | false =>
    change _ = (t.cpu.registers.divide? w v).elim _ _
    dsimp only [AccumulatorOperation.division]
    cases t.cpu.registers.divide? w v <;> rfl

theorem execute_division (signed : Bool) (h : readPlace w source s = .ok v t) :
    (Registers.Indivisible signed w v s.cpu.registers →
      execute (.accumulator (.division signed) w source) s =
        .error (.divideError t.cpu.instructionAddress) t) ∧
    (¬Registers.Indivisible signed w v s.cpu.registers →
      ∃ r, execute (.accumulator (.division signed) w source) s =
          .ok () { t with cpu.registers := r } ∧
        Registers.Divided signed w v s.cpu.registers r) := by
  obtain ⟨hnone, hsome⟩ := t.cpu.registers.division?_divided signed (toNat_lt_of_readPlace h)
  rw [← registers_of_readPlace h]
  refine ⟨fun hi => execute_division_eq h (hnone hi), fun hi => ?_⟩
  obtain ⟨r, hr, hdivided⟩ := hsome hi
  exact ⟨r, execute_division_eq h hr, hdivided⟩

theorem execute_multiplyTruncated {i : Reg} {a b : Source} {u : System β} {x y : UInt32}
    (ha : readSource w a s = .ok x t) (hb : readSource w b t = .ok y u) :
    ∃ r, execute (.multiplyTruncated w i a b) s = .ok () { u with cpu.registers := r } ∧
      Registers.MultipliedInto w i x y s.cpu.registers r := by
  have hkept := (registers_of_readSource hb).trans (registers_of_readSource ha)
  refine ⟨u.cpu.registers.multiplyTruncated w i x y, ?_, ?_⟩
  · rw [execute, bind_ok _ ha, bind_ok _ hb]
    rfl
  · rw [← hkept]
    exact u.cpu.registers.multipliedInto_multiplyTruncated i x y

/-- Multiplication and division of the accumulator by every operand that can be read, with or
without a sign. The product is exact in the double accumulator. A divisor of zero and a quotient
without a place are a divide error, and every other quotient is exact with its remainder; neither
dividend nor quotient leaves twice the width. A product into a register is cut. What was multiplied
is restored by division. -/
theorem products_and_quotients (signed : Bool) (w : Width) :
    (∀ source (s t : System β) v, readPlace w source s = .ok v t →
      (∃ r, execute (.accumulator (.multiplication signed) w source) s =
          .ok () { t with cpu.registers := r } ∧
        Registers.Multiplied signed w v s.cpu.registers r) ∧
      (Registers.Indivisible signed w v s.cpu.registers →
        execute (.accumulator (.division signed) w source) s =
          .error (.divideError t.cpu.instructionAddress) t) ∧
      (¬Registers.Indivisible signed w v s.cpu.registers →
        ∃ r, execute (.accumulator (.division signed) w source) s =
            .ok () { t with cpu.registers := r } ∧
          Registers.Divided signed w v s.cpu.registers r) ∧
      w.HoldsDouble signed (s.cpu.registers.double signed w) ∧
      ((s.cpu.registers.double signed w).tdiv (w.value signed v)).natAbs < 2 ^ (2 * w.bits)) ∧
    (∀ i a b (s t u : System β) x y, readSource w a s = .ok x t → readSource w b t = .ok y u →
      ∃ r, execute (.multiplyTruncated w i a b) s = .ok () { u with cpu.registers := r } ∧
        Registers.MultipliedInto w i x y s.cpu.registers r) ∧
    ∀ source source' (s t m u : System β) v, readPlace w source s = .ok v t → v ≠ 0 →
      execute (.accumulator (.multiplication signed) w source) s = .ok () m →
      readPlace w source' m = .ok v u →
      ∃ r, execute (.accumulator (.division signed) w source') m =
          .ok () { u with cpu.registers := r } ∧
        r.lowHalf w = s.cpu.registers.lowHalf w ∧ r.highHalf w = 0 := by
  refine ⟨fun source s t v h => ?_, fun i a b s t u x y => execute_multiplyTruncated, ?_⟩
  · obtain ⟨herror, hok⟩ := execute_division signed h
    exact ⟨execute_multiplication signed h, herror, hok,
      s.cpu.registers.holdsDouble_double signed, s.cpu.registers.natAbs_quotient_le signed _⟩
  · intro source source' s t m u v h hv hmul h'
    obtain ⟨r', hr', hmultiplied⟩ := execute_multiplication signed h
    rw [hr'] at hmul
    cases hmul
    have hvalue : w.value signed v ≠ 0 := by
      rw [ne_eq, Width.value_eq_zero_iff, w.toNat_eq_self (toNat_lt_of_readPlace h)]
      exact fun hzero => hv (UInt32.toNat_inj.1 hzero)
    -- the quotient is the other factor, so it has a place
    have hdivisible := Registers.divisible_of_multiplied hmultiplied hvalue
    obtain ⟨r, hr, hdivided⟩ := (execute_division signed h').2 hdivisible
    obtain ⟨hlower, hupper⟩ := hdivided.of_multiplied hmultiplied
    refine ⟨r, hr, ?_, ?_⟩
    · have hsame := Width.toNat_eq_of_value hlower
      rw [Registers.toNat_lowHalf, Registers.toNat_lowHalf] at hsame
      exact UInt32.toNat_inj.1 hsame
    · rw [Width.value_eq_zero_iff, Registers.toNat_highHalf] at hupper
      exact UInt32.toNat_inj.1 hupper

/-- In the double accumulator stands a positive number, and in the accumulator the least. BX holds
one less than zero, CX one. -/
def leastWord : System (Board ExpansionCard) where
  cpu := { registers := { eax := 0x8000, ebx := 0xFFFF, ecx := 1 } }
  bus := loaded []

/-- The opposite of the least word has a place in twice the width only. -/
theorem products_and_quotients_of_least_word :
    ∃ m r r' r'',
      (execute (.accumulator .multiplySigned .word (.register .bx)) leastWord =
          .ok () { leastWord with cpu.registers := m } ∧
        m.double true .word = 0x8000 ∧ m.flags.carry = true) ∧
      (execute (.multiplyTruncated .word .dx (.register .ax) (.register .bx)) leastWord =
          .ok () { leastWord with cpu.registers := r } ∧
        (r.read .word .dx).toNat = 0x8000 ∧ r.flags.carry = true) ∧
      execute (.accumulator .divideSigned .word (.register .cx)) leastWord =
        .error (.divideError ⟨0, 0⟩) leastWord ∧
      (execute (.accumulator .divideSigned .word (.register .bx)) leastWord =
          .ok () { leastWord with cpu.registers := r' } ∧
        Registers.Divided true .word 0xFFFF leastWord.cpu.registers r') ∧
      execute (.accumulator .divideSigned .word (.register .bx))
          { leastWord with cpu.registers := m } =
        .ok () { leastWord with cpu.registers := r'' } ∧
      r''.lowHalf .word = 0x8000 ∧ r''.highHalf .word = 0 := by
  obtain ⟨haccumulator, htruncated, hrestored⟩ :=
    products_and_quotients (β := Board ExpansionCard) true .word
  have hread : readPlace .word (.register .bx) leastWord = .ok 0xFFFF leastWord := rfl
  have hone : readPlace .word (.register .cx) leastWord = .ok 1 leastWord := rfl
  obtain ⟨⟨m, hm, hmultiplied⟩, -, hdivide, -⟩ := haccumulator _ _ _ _ hread
  obtain ⟨r, hr, hinto⟩ :=
    htruncated .dx (.register .ax) (.register .bx) leastWord _ _ _ _ rfl hread
  obtain ⟨-, herror, -⟩ := haccumulator _ _ _ _ hone
  have hdivisible : ¬Registers.Indivisible true .word 0xFFFF leastWord.cpu.registers := by
    rintro (h | h)
    · exact absurd h (by decide +kernel)
    · exact h ⟨by decide +kernel, by decide +kernel⟩
  obtain ⟨r', hr', hdivided⟩ := hdivide hdivisible
  -- the registers after the product in a form that can be evaluated
  have hsame : leastWord.cpu.registers.multiplySigned .word 0xFFFF = m :=
    congrArg (fun s => s.cpu.registers) (EStateM.Result.ok.inj hm).2
  have hkept : readPlace .word (.register .bx) { leastWord with cpu.registers := m } =
      .ok 0xFFFF { leastWord with cpu.registers := m } := by
    rw [← hsame]
    exact readPlace_register (by decide +kernel)
  obtain ⟨r'', hr'', hlower, hupper⟩ :=
    hrestored _ _ _ _ _ _ _ hread (by decide) hm hkept
  refine ⟨m, r, r', r'', ⟨hm, ?_, ?_⟩, ⟨hr, ?_, ?_⟩, ?_, ⟨hr', hdivided⟩, hr'', hlower, hupper⟩
  · rw [hmultiplied.product]
    decide +kernel
  · rw [← hsame]
    decide +kernel
  · exact Int.ofNat_inj.1 (hinto.product.trans (by decide +kernel))
  · rw [hinto.carry]
    exact fun h => absurd h.2 (by decide +kernel)
  · exact herror (.inr fun h => absurd h.2 (by decide +kernel))

end Cpu

end Pc8086

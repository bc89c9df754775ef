import Pc8086.Proofs.Cpu.Operands

namespace Pc8086

namespace Width

variable (w : Width) (v : UInt32) (x : Int)

/-- Exactly the numbers that have a place are read again. -/
theorem toInt_ofInt_eq_iff : w.toInt (UInt32.ofInt x) = x ↔ w.Signed x := by
  refine ⟨fun h => h ▸ w.signed_toInt _, fun h => ?_⟩
  have hmod := w.toNat_ofInt x
  rw [Signed] at h
  rw [w.toInt_eq]
  split <;> cases w <;> simp only [bits] at * <;> omega

end Width

namespace Cpu.Registers

def lowHalf (r : Registers) (w : Width) : UInt32 :=
  r.read w .ax

def highHalf (r : Registers) : Width → UInt32
  | .byte => r.ah.toUInt32
  | .word => (r.word .dx).toUInt32
  | .dword => r.dword .dx

def signedDouble (r : Registers) (w : Width) : Int :=
  Int.bmod (r.doubleAccumulator w).toNat (2 ^ (2 * w.bits))

section Halves

variable (r : Registers) (w : Width) (low high : UInt32)

theorem toNat_read (i : Reg) : w.toNat (r.read w i) = (r.read w i).toNat := by
  cases w with
  | byte => exact Width.toNat_eq_self _ (UInt8.toNat_lt _)
  | word => exact Width.toNat_eq_self _ (UInt16.toNat_lt _)
  | dword => exact Width.toNat_eq_self _ (UInt32.toNat_lt _)

theorem toNat_highHalf : w.toNat (r.highHalf w) = (r.highHalf w).toNat := by
  cases w with
  | byte => exact Width.toNat_eq_self _ (UInt8.toNat_lt _)
  | word => exact Width.toNat_eq_self _ (UInt16.toNat_lt _)
  | dword => exact Width.toNat_eq_self _ (UInt32.toNat_lt _)

theorem lowByte_setHighByte (i : Reg) (v : UInt8) :
    (r.setHighByte i v).lowByte i = r.lowByte i := by
  have hv := v.toNat_lt
  have hshift : (v.toUInt32 <<< 8).toNat % 2 ^ 8 = 0 := by
    rw [UInt32.toNat_shiftLeft, UInt8.toNat_toUInt32]
    change v.toNat <<< 8 % 2 ^ 32 % 2 ^ 8 = _
    rw [Nat.shiftLeft_eq]
    omega
  have hmask : UInt32.toNat 0xFFFF00FF % 2 ^ 8 = 2 ^ 8 - 1 := rfl
  rw [lowByte, lowByte, setHighByte, dword_setDword, ← UInt8.toNat_inj, UInt32.toNat_toUInt8,
    UInt32.toNat_toUInt8, UInt32.toNat_or, UInt32.toNat_and, Nat.or_mod_two_pow,
    Nat.and_mod_two_pow, hmask, hshift, Nat.or_zero, Nat.and_two_pow_sub_one_eq_mod, Nat.mod_mod]

theorem toNat_shiftLeft_or {h l : UInt64} {k : UInt64} (hk : k.toNat < 64)
    (hh : h.toNat < 2 ^ (64 - k.toNat)) (hl : l.toNat < 2 ^ k.toNat) :
    (h <<< k ||| l).toNat = 2 ^ k.toNat * h.toNat + l.toNat := by
  have hpow : 2 ^ (64 - k.toNat) * 2 ^ k.toNat = 2 ^ 64 := by
    rw [← Nat.pow_add, Nat.sub_add_cancel hk.le]
  have hfits : h.toNat * 2 ^ k.toNat < 2 ^ 64 := by
    rw [← hpow]
    exact Nat.mul_lt_mul_of_pos_right hh (Nat.two_pow_pos _)
  rw [UInt64.toNat_or, UInt64.toNat_shiftLeft, Nat.mod_eq_of_lt hk, Nat.shiftLeft_eq,
    Nat.mod_eq_of_lt hfits, Nat.mul_comm, Nat.two_pow_add_eq_or_of_lt hl]

theorem doubleAccumulator_toNat : (r.doubleAccumulator w).toNat =
    2 ^ w.bits * (r.highHalf w).toNat + (r.lowHalf w).toNat := by
  cases w with
  | byte =>
    change (r.word .ax).toNat = 2 ^ 8 * (r.highByte .ax).toNat + (r.lowByte .ax).toNat
    rw [word, highByte, lowByte, UInt32.toNat_toUInt16, UInt32.toNat_toUInt8,
      UInt32.toNat_toUInt8, UInt32.toNat_shiftRight]
    change _ = 2 ^ 8 * ((r.dword .ax).toNat >>> 8 % 2 ^ 8) + _
    rw [Nat.shiftRight_eq_div_pow]
    omega
  | word =>
    have hk : (16 : UInt64).toNat < 64 := by decide
    exact toNat_shiftLeft_or hk ((UInt16.toNat_lt _).trans (by decide)) (UInt16.toNat_lt _)
  | dword =>
    have hk : (32 : UInt64).toNat < 64 := by decide
    exact toNat_shiftLeft_or hk (UInt32.toNat_lt _) (UInt32.toNat_lt _)

theorem toNat_lowHalf_set :
    ((r.setDoubleAccumulator w low high).lowHalf w).toNat = w.toNat low := by
  cases w with
  | byte =>
    change (((r.setAl low.toUInt8).setHighByte .ax high.toUInt8).lowByte .ax).toNat = _
    rw [lowByte_setHighByte, setAl, lowByte_setLowByte, UInt32.toNat_toUInt8]
    rfl
  | word =>
    change (((r.setWord .ax low.toUInt16).setWord .dx high.toUInt16).word .ax).toNat = _
    rw [word_setWord_of_ne _ (by decide), word_setWord, UInt32.toNat_toUInt16]
    rfl
  | dword => exact (Width.toNat_eq_self .dword low.toNat_lt).symm

theorem toNat_highHalf_set :
    ((r.setDoubleAccumulator w low high).highHalf w).toNat = w.toNat high := by
  cases w with
  | byte =>
    change (((r.setAl low.toUInt8).setHighByte .ax high.toUInt8).highByte .ax).toNat = _
    rw [highByte_setHighByte, UInt32.toNat_toUInt8]
    rfl
  | word =>
    change (((r.setWord .ax low.toUInt16).setWord .dx high.toUInt16).word .dx).toNat = _
    rw [word_setWord, UInt32.toNat_toUInt16]
    rfl
  | dword => exact (Width.toNat_eq_self .dword high.toNat_lt).symm

theorem flags_setDoubleAccumulator : (r.setDoubleAccumulator w low high).flags = r.flags :=
  apart_flags.setDoubleAccumulator r w low high

theorem lowHalf_setLost (lost : Bool) : (r.setLost lost).lowHalf w = r.lowHalf w := by
  cases w <;> rfl

theorem highHalf_setLost (lost : Bool) : (r.setLost lost).highHalf w = r.highHalf w := by
  cases w <;> rfl

theorem double_set : ((r.setDoubleAccumulator w low high).doubleAccumulator w).toNat =
    2 ^ w.bits * w.toNat high + w.toNat low := by
  rw [doubleAccumulator_toNat, toNat_lowHalf_set, toNat_highHalf_set]

theorem doubleAccumulator_setLost (lost : Bool) :
    (r.setLost lost).doubleAccumulator w = r.doubleAccumulator w := by
  cases w <;> rfl

end Halves

section Products

variable (r : Registers) (w : Width) (v : UInt32)

theorem lowHalf_lt : (r.lowHalf w).toNat < 2 ^ w.bits :=
  (r.toNat_read w .ax) ▸ w.toNat_lt _

theorem highHalf_lt : (r.highHalf w).toNat < 2 ^ w.bits :=
  (r.toNat_highHalf w) ▸ w.toNat_lt _

theorem double_multiply (hv : v.toNat < 2 ^ w.bits) :
    ((r.multiply w v).doubleAccumulator w).toNat = (r.lowHalf w).toNat * v.toNat := by
  have hexact : _ = (r.lowHalf w).toNat * v.toNat := toNat_wide_mul (r.read w .ax) v
  have hupper : (r.lowHalf w).toNat * v.toNat / 2 ^ w.bits < 2 ^ w.bits :=
    Nat.div_lt_of_lt_mul (Nat.mul_lt_mul'' (r.lowHalf_lt w) hv)
  rw [multiply_eq, wideMultiply, doubleAccumulator_setLost, double_set, toNat_high_of_wide,
    toNat_low_of_wide, hexact, Nat.mod_eq_of_lt hupper, Nat.div_add_mod]

/-- A number is put together again from its halves. -/
theorem bmod_halves {x : Int} {low high : Nat} (hx : x.natAbs ≤ 2 ^ (2 * w.bits - 2))
    (hlow : (low : Int) = x % (2 ^ w.bits : Nat))
    (hhigh : (high : Int) = x / (2 ^ w.bits : Nat) % (2 ^ w.bits : Nat)) :
    Int.bmod (2 ^ w.bits * high + low : Nat) (2 ^ (2 * w.bits)) = x := by
  rw [Int.bmod_eq_iff (Nat.two_pow_pos _)]
  cases w <;> simp only [Width.bits, Nat.reduceMul, Nat.reduceSub, Nat.reducePow] at * <;> omega

/-- The upper half repeats the sign of the lower one where this holds the whole number. -/
theorem signed_iff_halves {x : Int} {low high : Nat} (hx : x.natAbs ≤ 2 ^ (2 * w.bits - 2))
    (hlow : (low : Int) = x % (2 ^ w.bits : Nat))
    (hhigh : (high : Int) = x / (2 ^ w.bits : Nat) % (2 ^ w.bits : Nat)) :
    w.Signed x ↔ high = if low < 2 ^ (w.bits - 1) then 0 else 2 ^ w.bits - 1 := by
  rw [Width.Signed]
  split <;> cases w <;>
    simp only [Width.bits, Nat.reduceMul, Nat.reduceSub, Nat.reducePow] at * <;> omega

theorem toNat_ofInt_upper (x : Int) : (w.toNat (UInt32.ofInt (x / Int.pow 2 w.bits)) : Int) =
    x / (2 ^ w.bits : Nat) % (2 ^ w.bits : Nat) := by
  have hbase : Int.pow 2 w.bits = (2 ^ w.bits : Nat) := by
    cases w <;> rfl
  rw [w.toNat_ofInt, hbase]

theorem double_multiplySigned :
    (r.multiplySigned w v).signedDouble w = w.toInt (r.lowHalf w) * w.toInt v := by
  rw [signedDouble, multiplySigned_eq, wideMultiplySigned, doubleAccumulator_setLost, double_set]
  exact bmod_halves w (w.natAbs_mul_toInt (r.lowHalf w) v) (w.toNat_ofInt _)
    (toNat_ofInt_upper w _)

end Products

section Quotients

variable (r : Registers) (w : Width) (x y : Int)

theorem double_lt : (r.doubleAccumulator w).toNat < 2 ^ (2 * w.bits) := by
  have hl := r.lowHalf_lt w
  have hu := r.highHalf_lt w
  rw [doubleAccumulator_toNat]
  cases w <;> simp only [Width.bits, Nat.reduceMul, Nat.reducePow] at * <;> omega

theorem signedDouble_bounds : -(2 ^ (2 * w.bits - 1) : Nat) ≤ r.signedDouble w ∧
    r.signedDouble w < (2 ^ (2 * w.bits - 1) : Nat) := by
  have hpow : 2 ^ (2 * w.bits) = 2 * 2 ^ (2 * w.bits - 1) := by
    cases w <;> rfl
  have hl := Int.le_bmod (x := (r.doubleAccumulator w).toNat) (Nat.two_pow_pos (2 * w.bits))
  have hu := Int.bmod_lt (x := (r.doubleAccumulator w).toNat) (Nat.two_pow_pos (2 * w.bits))
  rw [signedDouble]
  omega

end Quotients

end Cpu.Registers

end Pc8086

import Mathlib.Tactic.NormNum
import Pc8086.Cpu.Accumulator
import Pc8086.Proofs.Cpu.ArithmeticFlags
import Pc8086.Proofs.Cpu.WordRegisters

namespace Pc8086

namespace Width

variable (w : Width)

theorem two_pow_bits_dvd : 2 ^ w.bits ∣ 2 ^ 32 := by
  cases w <;> decide

theorem toNat_ofInt (x : Int) : (w.toNat (UInt32.ofInt x) : Int) = x % (2 ^ w.bits : Nat) := by
  have hpos : 0 ≤ x % 2 ^ 32 := Int.emod_nonneg x (by decide)
  have hofInt : ((UInt32.ofInt x).toNat : Int) = x % 2 ^ 32 := by
    change (((x % 2 ^ 32).toNat % 2 ^ 32 : Nat) : Int) = _
    rw [Int.natCast_mod, Int.toNat_of_nonneg hpos]
    exact Int.emod_emod_of_dvd x dvd_rfl
  rw [toNat, Int.natCast_mod, hofInt]
  exact Int.emod_emod_of_dvd x (by exact_mod_cast w.two_pow_bits_dvd)

theorem toInt_eq_bmod (v : UInt32) : w.toInt v = (w.toNat v : Int).bmod (2 ^ w.bits) := by
  rw [toNat, Int.natCast_mod, Int.emod_bmod]
  rfl

theorem toInt_ofInt (x : Int) : w.toInt (UInt32.ofInt x) = x.bmod (2 ^ w.bits) := by
  rw [toInt_eq_bmod, toNat_ofInt, Int.emod_bmod]

theorem signed_toInt (v : UInt32) : w.Signed (w.toInt v) := by
  have hv := w.toNat_lt v
  have hm := w.two_pow_bits
  rw [Signed, w.toInt_eq]
  split <;> omega

theorem natAbs_toInt (v : UInt32) : (w.toInt v).natAbs ≤ 2 ^ (w.bits - 1) := by
  have h := w.signed_toInt v
  rw [Signed] at h
  omega

/-- Two numbers in two's complement have a product in two's complement of twice the width. -/
theorem natAbs_mul_toInt (a b : UInt32) :
    (w.toInt a * w.toInt b).natAbs ≤ 2 ^ (2 * w.bits - 2) := by
  have hpow : 2 ^ (2 * w.bits - 2) = 2 ^ (w.bits - 1) * 2 ^ (w.bits - 1) := by
    cases w <;> rfl
  rw [Int.natAbs_mul, hpow]
  exact Nat.mul_le_mul (w.natAbs_toInt a) (w.natAbs_toInt b)

theorem mul_toInt_bmod (a b : UInt32) :
    (w.toInt a * w.toInt b).bmod (2 ^ (2 * w.bits)) = w.toInt a * w.toInt b := by
  have h := w.natAbs_mul_toInt a b
  apply Int.bmod_eq_of_le_mul_two <;> cases w <;>
    simp only [bits, Nat.reduceMul, Nat.reduceSub, Nat.reducePow] at * <;> omega

theorem byte_toInt (v : UInt32) : byte.toInt v = v.toUInt8.toInt8.toInt := by
  rw [toInt_eq_bmod]
  exact (BitVec.toInt_eq_toNat_bmod v.toUInt8.toBitVec).symm

theorem word_toInt (v : UInt32) : word.toInt v = v.toUInt16.toInt16.toInt := by
  rw [toInt_eq_bmod]
  exact (BitVec.toInt_eq_toNat_bmod v.toUInt16.toBitVec).symm

theorem dword_toInt (v : UInt32) : dword.toInt v = v.toInt32.toInt :=
  (BitVec.toInt_eq_toNat_bmod v.toBitVec).symm

end Width

namespace Cpu.Registers

def doubleAccumulator (r : Registers) : Width → UInt64
  | .byte => (r.word .ax).toUInt64
  | .word => (r.word .dx).toUInt64 <<< 16 ||| (r.word .ax).toUInt64
  | .dword => (r.dword .dx).toUInt64 <<< 32 ||| (r.dword .ax).toUInt64

/-- The unsigned product, by one rule for all widths. -/
def wideMultiply (r : Registers) (w : Width) (source : UInt32) : Registers :=
  let product := (r.read w .ax).toUInt64 * source.toUInt64
  let high := (product >>> w.bits.toUInt64).toUInt32
  (r.setDoubleAccumulator w product.toUInt32 high).setLost (w.truncate high != 0)

def wideMultiplySigned (r : Registers) (w : Width) (source : UInt32) : Registers :=
  let product := w.toInt (r.read w .ax) * w.toInt source
  let low := UInt32.ofInt product
  let high := UInt32.ofInt (product / Int.pow 2 w.bits)
  (r.setDoubleAccumulator w low high).setLost (w.toInt low != product)

def wideDivide? (r : Registers) (w : Width) (source : UInt32) : Option Registers :=
  let dividend := (r.doubleAccumulator w).toNat
  let divisor := source.toNat
  if divisor = 0 ∨ Nat.pow 2 w.bits ≤ dividend / divisor then none
  else
    some (r.setDoubleAccumulator w (dividend / divisor).toUInt32 (dividend % divisor).toUInt32)

def wideDivideSigned? (r : Registers) (w : Width) (source : UInt32) : Option Registers :=
  let dividend := ((r.doubleAccumulator w).toNat : Int).bmod (Nat.pow 2 (2 * w.bits))
  let divisor := w.toInt source
  let quotient := dividend.tdiv divisor
  if divisor = 0 ∨ quotient < -Int.pow 2 (w.bits - 1) ∨ Int.pow 2 (w.bits - 1) ≤ quotient then none
  else
    some (r.setDoubleAccumulator w (UInt32.ofInt quotient) (UInt32.ofInt (dividend.tmod divisor)))

variable (r : Registers) (w : Width) (source : UInt32)

section Halves

variable {w} {low high low' high' : UInt32}

/-- Of either half only the bits that count are stored. -/
theorem setDoubleAccumulator_congr (hlow : w.toNat low = w.toNat low')
    (hhigh : w.toNat high = w.toNat high') :
    r.setDoubleAccumulator w low high = r.setDoubleAccumulator w low' high' := by
  cases w with
  | byte =>
    have hl : low.toUInt8 = low'.toUInt8 := UInt8.toNat_inj.1 hlow
    have hh : high.toUInt8 = high'.toUInt8 := UInt8.toNat_inj.1 hhigh
    unfold setDoubleAccumulator
    rw [hl, hh]
  | word =>
    have hl : low.toUInt16 = low'.toUInt16 := UInt16.toNat_inj.1 hlow
    have hh : high.toUInt16 = high'.toUInt16 := UInt16.toNat_inj.1 hhigh
    unfold setDoubleAccumulator
    rw [hl, hh]
  | dword =>
    have hself : ∀ v : UInt32, Width.dword.toNat v = v.toNat := fun v =>
      Width.toNat_eq_self _ v.toNat_lt
    rw [hself, hself, UInt32.toNat_inj] at hlow hhigh
    rw [hlow, hhigh]

theorem low_or_high (v : UInt16) :
    v.toUInt8.toUInt32 ||| (v >>> 8).toUInt8.toUInt32 <<< 8 = v.toUInt32 := by
  have hv := v.toNat_lt
  have hshift : ((v >>> 8).toUInt8.toUInt32 <<< 8).toNat = 2 ^ 8 * (v.toNat / 2 ^ 8) := by
    rw [UInt32.toNat_shiftLeft, UInt8.toNat_toUInt32, UInt16.toNat_toUInt8,
      UInt16.toNat_shiftRight, Nat.shiftLeft_eq]
    change (v.toNat >>> 8 % 2 ^ 8) * 2 ^ 8 % 2 ^ 32 = _
    rw [Nat.shiftRight_eq_div_pow]
    omega
  rw [← UInt32.toNat_inj, UInt32.or_comm, UInt32.toNat_or, hshift, UInt8.toNat_toUInt32,
    UInt16.toNat_toUInt8, UInt16.toNat_toUInt32,
    ← Nat.two_pow_add_eq_or_of_lt (Nat.mod_lt _ (by decide))]
  exact Nat.div_add_mod _ _

theorem and_or_distrib_right (a b c : UInt32) : (a ||| b) &&& c = (a &&& c) ||| (b &&& c) := by
  rw [← UInt32.toNat_inj, UInt32.toNat_and, UInt32.toNat_or, UInt32.toNat_or, UInt32.toNat_and,
    UInt32.toNat_and, Nat.and_or_distrib_right]

/-- A word in the accumulator is its two bytes in AL and AH. -/
theorem setWord_ax (v : UInt16) :
    r.setWord .ax v = r.setDoubleAccumulator .byte v.toUInt32 (v >>> 8).toUInt32 := by
  have hbyte : v.toUInt8.toUInt32 &&& 0xFF = v.toUInt8.toUInt32 := by
    rw [← UInt32.toNat_inj, UInt32.toNat_and, UInt8.toNat_toUInt32]
    exact (Nat.and_two_pow_sub_one_eq_mod _ 8).trans (Nat.mod_eq_of_lt v.toUInt8.toNat_lt)
  have hlow : v.toUInt8.toUInt32 &&& 0xFFFF00FF = v.toUInt8.toUInt32 := by
    rw [← hbyte, UInt32.and_assoc]
    rfl
  have hmasks : (0xFFFFFF00 : UInt32) &&& 0xFFFF00FF = 0xFFFF0000 := rfl
  unfold setDoubleAccumulator setWord setAh setHighByte setAl setLowByte
  dsimp only
  rw [setDword_setDword, dword_setDword, UInt16.toUInt8_toUInt32, UInt16.toUInt8_toUInt32,
    and_or_distrib_right, UInt32.and_assoc, hlow, hmasks, UInt32.or_assoc, low_or_high]

end Halves

section Unsigned

variable {w} {r source}

/-- The product in 64 bits is exact. -/
theorem toNat_wide_mul (a b : UInt32) : (a.toUInt64 * b.toUInt64).toNat = a.toNat * b.toNat := by
  have hlt : a.toNat * b.toNat < 2 ^ 32 * 2 ^ 32 := Nat.mul_lt_mul'' a.toNat_lt b.toNat_lt
  rw [UInt64.toNat_mul, UInt32.toNat_toUInt64, UInt32.toNat_toUInt64]
  exact Nat.mod_eq_of_lt hlt

theorem toNat_low_of_wide (x : UInt64) : w.toNat x.toUInt32 = x.toNat % 2 ^ w.bits := by
  rw [Width.toNat, UInt64.toNat_toUInt32]
  exact Nat.mod_mod_of_dvd _ w.two_pow_bits_dvd

theorem toNat_high_of_wide (x : UInt64) :
    w.toNat (x >>> w.bits.toUInt64).toUInt32 = x.toNat / 2 ^ w.bits % 2 ^ w.bits := by
  have hbits : w.bits.toUInt64.toNat % 64 = w.bits := by
    cases w <;> rfl
  rw [toNat_low_of_wide, UInt64.toNat_shiftRight, hbits, Nat.shiftRight_eq_div_pow]

theorem truncate_of_lt {v : UInt32} (h : v.toNat < 2 ^ w.bits) : w.truncate v = v := by
  rw [← UInt32.toNat_inj, w.toNat_truncate, w.toNat_eq_self h]

/-- The product stored in halves, with the flags telling of the upper one. -/
theorem wideMultiply_of_halves {low high : UInt32} {n : Nat}
    (hn : (r.read w .ax).toNat * source.toNat = n) (hlow : w.toNat low = n % 2 ^ w.bits)
    (hhigh : w.toNat high = n / 2 ^ w.bits % 2 ^ w.bits) (hlt : high.toNat < 2 ^ w.bits) :
    (r.setDoubleAccumulator w low high).setLost (high != 0) = r.wideMultiply w source := by
  have hcut : ∀ {a b : UInt32}, w.toNat a = w.toNat b → w.truncate a = w.truncate b := fun h => by
    rw [← UInt32.toNat_inj, w.toNat_truncate, w.toNat_truncate, h]
  rw [← hn, ← toNat_wide_mul] at hlow hhigh
  rw [← toNat_low_of_wide] at hlow
  rw [← toNat_high_of_wide] at hhigh
  unfold wideMultiply
  dsimp only
  rw [setDoubleAccumulator_congr r hlow hhigh, ← hcut hhigh, truncate_of_lt hlt]

variable (r source)

theorem multiply_byte : r.multiply .byte source = r.wideMultiply .byte source := by
  let product := r.al.toUInt16 * source.toUInt16
  have hn : (r.read .byte .ax).toNat * source.toNat = r.al.toNat * source.toNat :=
    congrArg (· * source.toNat) (UInt8.toNat_toUInt32 _)
  have hproduct : product.toNat = r.al.toNat * source.toNat % 2 ^ 16 := by
    rw [UInt16.toNat_mul, UInt8.toNat_toUInt16, UInt32.toNat_toUInt16, Nat.mul_mod_mod]
  have hshift : (product >>> 8).toUInt32.toNat = product.toNat / 2 ^ 8 := by
    rw [UInt16.toNat_toUInt32, UInt16.toNat_shiftRight, ← Nat.shiftRight_eq_div_pow]
    rfl
  have hlow : Width.byte.toNat product.toUInt32 = r.al.toNat * source.toNat % 2 ^ 8 := by
    rw [Width.toNat, UInt16.toNat_toUInt32, hproduct]
    exact Nat.mod_mod_of_dvd _ (by decide)
  have hhigh : Width.byte.toNat (product >>> 8).toUInt32 =
      r.al.toNat * source.toNat / 2 ^ 8 % 2 ^ 8 := by
    rw [Width.toNat, hshift, hproduct]
    change _ % 2 ^ 8 = _
    omega
  have hlt : (product >>> 8).toUInt32.toNat < 2 ^ 8 := by
    rw [hshift]
    omega
  have hlost : (product >>> 8 != 0) = ((product >>> 8).toUInt32 != 0) := by
    rw [Bool.eq_iff_iff, bne_iff_ne, bne_iff_ne, ne_eq, ne_eq, ← UInt32.toNat_inj,
      ← UInt16.toNat_inj, UInt16.toNat_toUInt32]
    rfl
  have harm : r.multiply .byte source = (r.setWord .ax product).setLost (product >>> 8 != 0) := rfl
  rw [harm, setWord_ax, hlost]
  exact wideMultiply_of_halves hn hlow hhigh hlt

theorem multiply_word : r.multiply .word source = r.wideMultiply .word source := by
  let product := (r.word .ax).toUInt32 * source
  have hproduct : product.toNat = (r.read .word .ax).toNat * source.toNat % 2 ^ 32 :=
    UInt32.toNat_mul _ _
  have hshift : (product >>> 16).toNat = product.toNat / 2 ^ 16 := by
    rw [UInt32.toNat_shiftRight, ← Nat.shiftRight_eq_div_pow]
    rfl
  have hlow : Width.word.toNat product = (r.read .word .ax).toNat * source.toNat % 2 ^ 16 := by
    rw [Width.toNat, hproduct]
    exact Nat.mod_mod_of_dvd _ (by decide)
  have hhigh : Width.word.toNat (product >>> 16) =
      (r.read .word .ax).toNat * source.toNat / 2 ^ 16 % 2 ^ 16 := by
    rw [Width.toNat, hshift, hproduct]
    change _ % 2 ^ 16 = _
    omega
  have hlt : (product >>> 16).toNat < 2 ^ 16 := by
    have h := product.toNat_lt
    rw [hshift]
    omega
  exact wideMultiply_of_halves rfl hlow hhigh hlt

theorem multiply_dword : r.multiply .dword source = r.wideMultiply .dword source := by
  let product := (r.dword .ax).toUInt64 * source.toUInt64
  have hn : (r.read .dword .ax).toNat * source.toNat = product.toNat := (toNat_wide_mul _ _).symm
  exact wideMultiply_of_halves hn (toNat_low_of_wide product) (toNat_high_of_wide product)
    (UInt32.toNat_lt _)

theorem multiply_eq (w : Width) : r.multiply w source = r.wideMultiply w source := by
  cases w with
  | byte => exact r.multiply_byte source
  | word => exact r.multiply_word source
  | dword => exact r.multiply_dword source

end Unsigned

section Signed

variable {w} {r source}

theorem natCast_toNat_eq_emod {n : Nat} (x : BitVec n) :
    (x.toNat : Int) = x.toInt % (2 ^ n : Nat) := by
  rw [BitVec.toInt_eq_toNat_bmod, Int.bmod_emod, ← Int.natCast_mod, Nat.mod_eq_of_lt x.isLt]

/-- The product stored in halves, with the flags telling whether the lower one holds it. -/
theorem wideMultiplySigned_of_halves {low high : UInt32} {x : Int} {lost : Bool}
    (hx : w.toInt (r.read w .ax) * w.toInt source = x)
    (hlow : (w.toNat low : Int) = x % (2 ^ w.bits : Nat))
    (hhigh : (w.toNat high : Int) = x / (2 ^ w.bits : Nat) % (2 ^ w.bits : Nat))
    (hlost : lost = true ↔ x.bmod (2 ^ w.bits) ≠ x) :
    (r.setDoubleAccumulator w low high).setLost lost = r.wideMultiplySigned w source := by
  have hbase : Int.pow 2 w.bits = (2 ^ w.bits : Nat) := by
    cases w <;> rfl
  have hflag : lost = (w.toInt (UInt32.ofInt x) != x) := by
    rw [Bool.eq_iff_iff, hlost, bne_iff_ne, w.toInt_ofInt]
  rw [← w.toNat_ofInt, Int.ofNat_inj] at hlow
  rw [← w.toNat_ofInt, ← hbase, Int.ofNat_inj] at hhigh
  unfold wideMultiplySigned
  dsimp only
  rw [hx, setDoubleAccumulator_congr r hlow hhigh, hflag]

variable (r source)

theorem multiplySigned_byte : r.multiplySigned .byte source = r.wideMultiplySigned .byte source := by
  let product := r.al.toInt8.toInt16 * source.toUInt8.toInt8.toInt16
  have hx : Width.byte.toInt (r.read .byte .ax) * Width.byte.toInt source = product.toInt := by
    rw [← Width.mul_toInt_bmod, Width.byte_toInt, Width.byte_toInt, Int16.toInt_mul,
      Int8.toInt_toInt16, Int8.toInt_toInt16, read, UInt8.toUInt8_toUInt32]
    rfl
  have hword : (product.toUInt16.toNat : Int) = product.toInt % (2 ^ 16 : Nat) :=
    natCast_toNat_eq_emod product.toBitVec
  have hshift : (product.toUInt16 >>> 8).toUInt32.toNat = product.toUInt16.toNat / 2 ^ 8 := by
    rw [UInt16.toNat_toUInt32, UInt16.toNat_shiftRight, ← Nat.shiftRight_eq_div_pow]
    rfl
  have hlow : (Width.byte.toNat product.toUInt16.toUInt32 : Int) = product.toInt % (2 ^ 8 : Nat) := by
    rw [Width.toNat, UInt16.toNat_toUInt32, Int.natCast_mod, hword]
    exact Int.emod_emod_of_dvd _ (by decide)
  have hhigh : (Width.byte.toNat (product.toUInt16 >>> 8).toUInt32 : Int) =
      product.toInt / (2 ^ 8 : Nat) % (2 ^ 8 : Nat) := by
    rw [Width.toNat, hshift, Int.natCast_mod, Int.natCast_div, hword]
    change _ % ((2 ^ 8 : Nat) : Int) = _
    omega
  have hlost : (product != product.toInt8.toInt16) = true ↔
      product.toInt.bmod (2 ^ 8) ≠ product.toInt := by
    rw [← Int16.toInt_toInt8, ← Int8.toInt_toInt16, ne_eq, Int16.toInt_inj, bne_iff_ne, ne_comm]
  have harm : r.multiplySigned .byte source =
      (r.setWord .ax product.toUInt16).setLost (product != product.toInt8.toInt16) := rfl
  rw [harm, setWord_ax]
  exact wideMultiplySigned_of_halves hx hlow hhigh hlost

theorem multiplySigned_word : r.multiplySigned .word source = r.wideMultiplySigned .word source := by
  let product := (r.word .ax).toInt16.toInt32 * source.toUInt16.toInt16.toInt32
  have hx : Width.word.toInt (r.read .word .ax) * Width.word.toInt source = product.toInt := by
    rw [← Width.mul_toInt_bmod, Width.word_toInt, Width.word_toInt, Int32.toInt_mul,
      Int16.toInt_toInt32, Int16.toInt_toInt32, read, UInt16.toUInt16_toUInt32]
    rfl
  have hdword : ∀ y : Int32, (y.toUInt32.toNat : Int) = y.toInt % (2 ^ 32 : Nat) := fun y =>
    natCast_toNat_eq_emod y.toBitVec
  have hshift : (product >>> 16).toInt = product.toInt / (2 ^ 16 : Nat) := by
    have h : (product >>> 16).toBitVec = product.toBitVec.sshiftRight 16 := rfl
    rw [← Int32.toInt_toBitVec, h, BitVec.toInt_sshiftRight, Int.shiftRight_eq_div_pow]
    rfl
  have hlow : (Width.word.toNat product.toUInt32 : Int) = product.toInt % (2 ^ 16 : Nat) := by
    rw [Width.toNat, Int.natCast_mod, hdword]
    exact Int.emod_emod_of_dvd _ (by decide)
  have hhigh : (Width.word.toNat (product >>> 16).toUInt32 : Int) =
      product.toInt / (2 ^ 16 : Nat) % (2 ^ 16 : Nat) := by
    rw [Width.toNat, Int.natCast_mod, hdword, hshift]
    exact Int.emod_emod_of_dvd _ (by decide)
  have hlost : (product != product.toInt16.toInt32) = true ↔
      product.toInt.bmod (2 ^ 16) ≠ product.toInt := by
    rw [← Int32.toInt_toInt16, ← Int16.toInt_toInt32, ne_eq, Int32.toInt_inj, bne_iff_ne, ne_comm]
  exact wideMultiplySigned_of_halves hx hlow hhigh hlost

theorem multiplySigned_dword :
    r.multiplySigned .dword source = r.wideMultiplySigned .dword source := by
  let product := (r.dword .ax).toInt32.toInt64 * source.toInt32.toInt64
  have hx : Width.dword.toInt (r.read .dword .ax) * Width.dword.toInt source = product.toInt := by
    rw [← Width.mul_toInt_bmod, Width.dword_toInt, Width.dword_toInt, Int64.toInt_mul,
      Int32.toInt_toInt64, Int32.toInt_toInt64]
    rfl
  have hqword : ∀ y : Int64, (y.toUInt64.toNat : Int) = y.toInt % (2 ^ 64 : Nat) := fun y =>
    natCast_toNat_eq_emod y.toBitVec
  have hshift : (product >>> 32).toInt = product.toInt / (2 ^ 32 : Nat) := by
    have h : (product >>> 32).toBitVec = product.toBitVec.sshiftRight 32 := rfl
    rw [← Int64.toInt_toBitVec, h, BitVec.toInt_sshiftRight, Int.shiftRight_eq_div_pow]
    rfl
  have hlow : (Width.dword.toNat product.toUInt64.toUInt32 : Int) =
      product.toInt % (2 ^ 32 : Nat) := by
    rw [toNat_low_of_wide, Int.natCast_mod, hqword]
    exact Int.emod_emod_of_dvd _ (by decide)
  have hhigh : (Width.dword.toNat (product >>> 32).toUInt64.toUInt32 : Int) =
      product.toInt / (2 ^ 32 : Nat) % (2 ^ 32 : Nat) := by
    rw [toNat_low_of_wide, Int.natCast_mod, hqword, hshift]
    exact Int.emod_emod_of_dvd _ (by decide)
  have hlost : (product != product.toInt32.toInt64) = true ↔
      product.toInt.bmod (2 ^ 32) ≠ product.toInt := by
    rw [← Int64.toInt_toInt32, ← Int32.toInt_toInt64, ne_eq, Int64.toInt_inj, bne_iff_ne, ne_comm]
  exact wideMultiplySigned_of_halves hx hlow hhigh hlost

theorem multiplySigned_eq (w : Width) :
    r.multiplySigned w source = r.wideMultiplySigned w source := by
  cases w with
  | byte => exact r.multiplySigned_byte source
  | word => exact r.multiplySigned_word source
  | dword => exact r.multiplySigned_dword source

end Signed

section Division

variable {w} {r source}

/-- A quotient and a remainder stored in halves, unless the condition `c` refuses the quotient. -/
theorem wideDivide?_of_halves {c : Prop} [Decidable c] {low high : UInt32} {n : Nat}
    (hs : source ≠ 0) (hn : (r.doubleAccumulator w).toNat = n)
    (hc : c ↔ 2 ^ w.bits ≤ n / source.toNat)
    (hlow : w.toNat low = n / source.toNat % 2 ^ w.bits)
    (hhigh : w.toNat high = n % source.toNat % 2 ^ w.bits) :
    (if c then none else some (r.setDoubleAccumulator w low high)) = r.wideDivide? w source := by
  have hne : source.toNat ≠ 0 := fun h => hs (UInt32.toNat_inj.1 h)
  have hcut : ∀ m : Nat, w.toNat m.toUInt32 = m % 2 ^ w.bits := fun m =>
    Nat.mod_mod_of_dvd m w.two_pow_bits_dvd
  have hcond : c ↔ source.toNat = 0 ∨ Nat.pow 2 w.bits ≤ n / source.toNat := by
    rw [hc, Nat.pow_eq]
    exact (or_iff_right hne).symm
  rw [← hcut] at hlow hhigh
  unfold wideDivide?
  dsimp only
  rw [hn, setDoubleAccumulator_congr r hlow hhigh]
  simp only [hcond]

variable (r)

theorem toNat_wordPair : (r.doubleAccumulator .word).toNat = r.wordPair.toNat := by
  have hd := (r.word .dx).toNat_lt
  unfold wordPair doubleAccumulator
  rw [UInt32.toNat_or, UInt64.toNat_or, UInt32.toNat_shiftLeft, UInt64.toNat_shiftLeft,
    UInt16.toNat_toUInt32, UInt16.toNat_toUInt32, UInt16.toNat_toUInt64, UInt16.toNat_toUInt64]
  change (r.word .dx).toNat <<< 16 % 2 ^ 64 ||| _ = (r.word .dx).toNat <<< 16 % 2 ^ 32 ||| _
  rw [Nat.shiftLeft_eq, Nat.mod_eq_of_lt (by omega), Nat.mod_eq_of_lt (by omega)]

/-- Bytes and words are divided in 32 bits. -/
theorem wideDivide?_of_dividend {dividend limit : UInt32} (hs : source ≠ 0)
    (hn : (r.doubleAccumulator w).toNat = dividend.toNat) (hl : limit.toNat + 1 = 2 ^ w.bits) :
    (if dividend / source > limit then none
      else some (r.setDoubleAccumulator w (dividend / source) (dividend % source))) =
      r.wideDivide? w source := by
  have hc : dividend / source > limit ↔ 2 ^ w.bits ≤ dividend.toNat / source.toNat := by
    rw [gt_iff_lt, UInt32.lt_iff_toNat_lt, UInt32.toNat_div, ← hl]
    exact Iff.rfl
  have hlow : w.toNat (dividend / source) = dividend.toNat / source.toNat % 2 ^ w.bits := by
    rw [Width.toNat, UInt32.toNat_div]
  have hhigh : w.toNat (dividend % source) = dividend.toNat % source.toNat % 2 ^ w.bits := by
    rw [Width.toNat, UInt32.toNat_mod]
  exact wideDivide?_of_halves hs hn hc hlow hhigh

/-- Doublewords are divided in 64 bits. -/
theorem wideDivide?_dword (hs : source ≠ 0) :
    (if r.dwordPair / source.toUInt64 > 0xFFFFFFFF then none
      else some (r.setDoubleAccumulator .dword (r.dwordPair / source.toUInt64).toUInt32
        (r.dwordPair % source.toUInt64).toUInt32)) = r.wideDivide? .dword source := by
  have hc : r.dwordPair / source.toUInt64 > 0xFFFFFFFF ↔
      2 ^ 32 ≤ r.dwordPair.toNat / source.toNat := by
    rw [gt_iff_lt, UInt64.lt_iff_toNat_lt, UInt64.toNat_div, UInt32.toNat_toUInt64]
    exact Iff.rfl
  have hlow : Width.dword.toNat (r.dwordPair / source.toUInt64).toUInt32 =
      r.dwordPair.toNat / source.toNat % 2 ^ 32 := by
    rw [toNat_low_of_wide, UInt64.toNat_div, UInt32.toNat_toUInt64]
    rfl
  have hhigh : Width.dword.toNat (r.dwordPair % source.toUInt64).toUInt32 =
      r.dwordPair.toNat % source.toNat % 2 ^ 32 := by
    rw [toNat_low_of_wide, UInt64.toNat_mod, UInt32.toNat_toUInt64]
    rfl
  exact wideDivide?_of_halves hs rfl hc hlow hhigh

variable (source)

theorem divide?_eq (w : Width) : r.divide? w source = r.wideDivide? w source := by
  by_cases hs : source = 0
  · subst hs
    rfl
  · have hdivides : (source == 0) = false := beq_false_of_ne hs
    unfold divide?
    rw [hdivides]
    cases w with
    | byte =>
      have hn : (r.doubleAccumulator .byte).toNat = (r.word .ax).toUInt32.toNat := rfl
      exact r.wideDivide?_of_dividend hs hn rfl
    | word => exact r.wideDivide?_of_dividend hs r.toNat_wordPair rfl
    | dword => exact r.wideDivide?_dword hs

theorem signedDividend_eq (w : Width) :
    r.signedDividend w =
      ((r.doubleAccumulator w).toNat : Int).bmod (Nat.pow 2 (2 * w.bits)) := by
  cases w with
  | byte => exact BitVec.toInt_eq_toNat_bmod (r.word .ax).toBitVec
  | word =>
    rw [toNat_wordPair]
    exact BitVec.toInt_eq_toNat_bmod r.wordPair.toBitVec
  | dword => exact BitVec.toInt_eq_toNat_bmod r.dwordPair.toBitVec

theorem divideSigned?_eq (w : Width) :
    r.divideSigned? w source = r.wideDivideSigned? w source := by
  have hzero : (w.truncate source == 0) = true ↔ w.toInt source = 0 := by
    have hm := w.two_pow_bits
    have hv := w.toNat_lt source
    rw [beq_iff_eq, ← UInt32.toNat_inj, w.toNat_truncate, w.toInt_eq]
    change _ = 0 ↔ _
    split <;> omega
  unfold divideSigned? wideDivideSigned?
  dsimp only
  rw [signedDividend_eq]
  by_cases hs : w.toInt source = 0
  · rw [if_pos (hzero.2 hs), if_pos (Or.inl hs)]
  · rw [if_neg (mt hzero.1 hs)]
    refine if_congr ?_ rfl rfl
    rw [or_iff_right hs, or_comm]

end Division

end Cpu.Registers

end Pc8086

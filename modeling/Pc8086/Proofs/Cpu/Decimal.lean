import Pc8086.Proofs.Cpu.Limbs
import Pc8086.Proofs.Cpu.Operands

namespace Pc8086.Cpu

open Alu (AddSub)

/-- How many decimal digits stand in a byte: two or one. -/
inductive Decimal where
  | packed
  | unpacked
  deriving DecidableEq

namespace Decimal

def base : Decimal → Nat
  | packed => 100
  | unpacked => 10

def Valid : Decimal → Nat → Prop
  | packed, v => v / 16 < 10 ∧ v % 16 < 10
  | unpacked, v => v < 10

instance decidableValid : (d : Decimal) → (v : Nat) → Decidable (d.Valid v)
  | packed, v => inferInstanceAs (Decidable (v / 16 < 10 ∧ v % 16 < 10))
  | unpacked, v => inferInstanceAs (Decidable (v < 10))

def value : Decimal → Nat → Nat
  | packed, v => 10 * (v / 16) + v % 16
  | unpacked, v => v

def number (d : Decimal) (vs : List UInt32) : Nat :=
  Nat.ofDigits d.base (vs.map fun v => d.value v.toNat)

def adjustment : Decimal → AddSub → Instruction
  | packed, .sum => .adjustAfterAdd
  | packed, .difference => .adjustAfterSub
  | unpacked, .sum => .adjustDigitAfterAdd
  | unpacked, .difference => .adjustDigitAfterSub

def correction : AddSub → UInt8 → UInt8
  | .sum, v => v
  | .difference, v => -v

def adjust (d : Decimal) (op : AddSub) (r : Registers) : Registers :=
  match d with
  | packed => r.adjustPacked (correction op 0x06) (correction op 0x60)
  | unpacked => r.adjustUnpacked (correction op 6) (correction op 1)

section Values

variable (d : Decimal) (vs : List UInt32) (v : UInt32)

theorem number_append : d.number (vs ++ [v]) =
    d.number vs + d.base ^ vs.length * d.value v.toNat := by
  rw [number, number, List.map_append, Nat.ofDigits_append, List.length_map, List.map_singleton,
    Nat.ofDigits_singleton]

variable {d v}

theorem lt_of_valid {n : Nat} (h : d.Valid n) : n < 256 := by
  cases d <;> simp only [Valid] at h <;> omega

theorem value_lt (h : d.Valid v.toNat) : d.value v.toNat < d.base := by
  cases d <;> simp only [Valid, value, base] at * <;> omega

theorem number_lt {vs : List UInt32} (h : ∀ v ∈ vs, d.Valid v.toNat) :
    d.number vs < d.base ^ vs.length := by
  have hbase : 1 < d.base := by cases d <;> decide
  have hlt := Nat.ofDigits_lt_base_pow_length (l := vs.map fun v => d.value v.toNat) hbase
    fun x hx => by
      obtain ⟨v, hv, rfl⟩ := List.mem_map.1 hx
      exact value_lt (h v hv)
  rwa [List.length_map] at hlt

end Values

end Decimal

namespace Registers

variable (r : Registers)

theorem al_setAl (v : UInt8) : (r.setAl v).al = v :=
  r.lowByte_setLowByte .ax v

theorem toNat_lowDigit (v : UInt8) : (v &&& 0x0F).toNat = v.toNat % 16 := by
  rw [UInt8.toNat_and]
  exact Nat.and_two_pow_sub_one_eq_mod _ 4

theorem lower_iff : (decide (r.al &&& 0x0F > 9) || r.flags.adjust) = true ↔
    9 < r.al.toNat % 16 ∨ r.flags.adjust = true := by
  rw [Bool.or_eq_true, decide_eq_true_iff, gt_iff_lt, UInt8.lt_iff_toNat_lt, toNat_lowDigit]
  rfl

theorem toNat_ite (c : Bool) (v : UInt8) : (if c then v else 0).toNat = c.toNat * v.toNat := by
  cases c
  · exact (Nat.zero_mul _).symm
  · exact (Nat.one_mul _).symm

section Adjust

variable (low high : UInt8)

theorem carry_adjustPacked : (r.adjustPacked low high).flags.carry = true ↔
    0x99 < r.al.toNat ∨ r.flags.carry = true := by
  have hcarry : (r.adjustPacked low high).flags.carry = (r.al > 0x99 || r.flags.carry) := rfl
  rw [hcarry, Bool.or_eq_true, decide_eq_true_iff]
  rfl

theorem adjust_adjustPacked : (r.adjustPacked low high).flags.adjust = true ↔
    9 < r.al.toNat % 16 ∨ r.flags.adjust = true :=
  r.lower_iff

/-- The flags tell which digits were corrected. -/
theorem al_adjustPacked : (r.adjustPacked low high).al.toNat =
    (r.al.toNat + (r.adjustPacked low high).flags.carry.toNat * high.toNat +
      (r.adjustPacked low high).flags.adjust.toNat * low.toNat) % 256 := by
  have hal : (r.adjustPacked low high).al =
      r.al + (if (r.adjustPacked low high).flags.carry then high else 0) +
        (if (r.adjustPacked low high).flags.adjust then low else 0) := by
    change (Registers.setAl _ _).al = _
    rw [al_setAl]
    rfl
  rw [hal, UInt8.toNat_add, UInt8.toNat_add, toNat_ite, toNat_ite, Nat.mod_add_mod]

theorem carry_adjustUnpacked_eq : (r.adjustUnpacked low high).flags.carry =
    (r.flags.adjust || r.al &&& 0x0F > 9) := by
  change (Registers.setAl _ _).flags.carry = _
  rw [apart_flags.setAl]

theorem carry_adjustUnpacked : (r.adjustUnpacked low high).flags.carry = true ↔
    9 < r.al.toNat % 16 ∨ r.flags.adjust = true := by
  rw [carry_adjustUnpacked_eq, Bool.or_comm, lower_iff]

theorem al_adjustUnpacked : (r.adjustUnpacked low high).al.toNat =
    (r.al.toNat + (r.adjustUnpacked low high).flags.carry.toNat * low.toNat) % 16 := by
  have hal : (r.adjustUnpacked low high).al =
      (r.al + if (r.adjustUnpacked low high).flags.carry then low else 0) &&& 0x0F := by
    rw [carry_adjustUnpacked_eq]
    change (Registers.setAl _ _).al = _
    rw [al_setAl]
    cases (r.flags.adjust || decide (r.al &&& 0x0F > 9))
    · exact congrArg (· &&& 0x0F) (UInt8.add_zero r.al).symm
    · rfl
  rw [hal, toNat_lowDigit, UInt8.toNat_add, toNat_ite]
  exact Nat.mod_mod_of_dvd _ (by decide)

end Adjust

end Registers

namespace Decimal

variable {d : Decimal} {op : AddSub} {c : Bool} {r : Registers}

structure Computed (op : AddSub) (a b : Nat) (c : Bool) (r : Registers) : Prop where
  value : (r.al.toNat : Int) + op.sign * (256 * r.flags.carry.toNat) = op.exact a b c
  adjust : r.flags.adjust = true ↔
    ¬(0 ≤ op.exact (a % 16 : Nat) (b % 16 : Nat) c ∧
      op.exact (a % 16 : Nat) (b % 16 : Nat) c < 16)

/-- The byte `v` holds digits, and with what is carried it makes the exact value. -/
structure Makes (d : Decimal) (op : AddSub) (a b : Nat) (c : Bool) (v : Nat) (carry : Bool) :
    Prop where
  valid : d.Valid v
  value : (d.value v : Int) + op.sign * (d.base * carry.toNat) = op.exact (d.value a) (d.value b) c

theorem computed_of_compute {a b : UInt32} {f : Flags} (ha : a.toNat < 256) (hb : b.toNat < 256)
    (hal : r.al.toNat = (op.compute .byte a b c f).1.toNat)
    (hf : r.flags = (op.compute .byte a b c f).2) : Computed op a.toNat b.toNat c r where
  value := by
    have hvalue := op.compute_value .byte a b c f
    rw [← hal, ← hf, Width.byte.toNat_eq_self ha, Width.byte.toNat_eq_self hb] at hvalue
    exact hvalue
  adjust := by
    rw [hf]
    exact op.compute_adjust .byte a b c f

namespace Computed

variable {a b : Nat} (h : Computed op a b c r)
include h

/-- The lower digit is corrected where the lower digits make none. -/
theorem lower (ha : a % 16 < 10) (hb : b % 16 < 10) :
    9 < r.al.toNat % 16 ∨ r.flags.adjust = true ↔
      ¬(0 ≤ op.exact (a % 16 : Nat) (b % 16 : Nat) c ∧
        op.exact (a % 16 : Nat) (b % 16 : Nat) c < 10) := by
  have hvalue := h.value
  have hc := c.toNat_le
  rw [h.adjust]
  cases op <;> simp only [AddSub.exact, AddSub.sign] at * <;> omega

/-- The upper digit is corrected where the digits make no two digits. -/
theorem upper (ha : packed.Valid a) (hb : packed.Valid b) :
    0x99 < r.al.toNat ∨ r.flags.carry = true ↔
      ¬(0 ≤ op.exact (packed.value a) (packed.value b) c ∧
        op.exact (packed.value a) (packed.value b) c < 100) := by
  obtain ⟨hvalue, -⟩ := h
  have hal := r.al.toNat_lt
  have hc := c.toNat_le
  generalize r.flags.carry = d at *
  generalize r.al.toNat = x at *
  simp only [Valid, Decimal.value] at ha hb ⊢
  cases op <;> cases d <;>
    simp only [AddSub.exact, AddSub.sign, Bool.toNat_true, Bool.toNat_false, Bool.false_eq_true,
      or_false, or_true, true_iff] at * <;>
    omega

theorem adjust_packed (ha : packed.Valid a) (hb : packed.Valid b) : packed.Makes op a b c
    (packed.adjust op r).al.toNat (packed.adjust op r).flags.carry := by
  have hlower : (packed.adjust op r).flags.adjust = true ↔ _ :=
    (r.adjust_adjustPacked _ _).trans (h.lower ha.2 hb.2)
  have hupper : (packed.adjust op r).flags.carry = true ↔ _ :=
    (r.carry_adjustPacked _ _).trans (h.upper ha hb)
  have hal : (packed.adjust op r).al.toNat =
    (_ + (packed.adjust op r).flags.carry.toNat * _ +
      (packed.adjust op r).flags.adjust.toNat * _) % _ := r.al_adjustPacked _ _
  obtain ⟨hvalue, -⟩ := h
  have hx := r.al.toNat_lt
  have hc := c.toNat_le
  have hsix : (-0x06 : UInt8).toNat = 250 := rfl
  have hsixty : (-0x60 : UInt8).toNat = 160 := rfl
  generalize (packed.adjust op r).flags.carry = upper at *
  generalize (packed.adjust op r).flags.adjust = lower at *
  generalize (packed.adjust op r).al.toNat = y at *
  generalize r.flags.carry = d at *
  generalize r.al.toNat = x at *
  -- what was corrected is decided by the digits, so that each case is arithmetic
  suffices hmakes : packed.Valid y ∧ _ from ⟨hmakes.1, hmakes.2⟩
  simp only [Valid, Decimal.value] at *
  cases op <;> cases upper <;> cases lower <;> cases d <;>
    simp only [AddSub.exact, AddSub.sign, correction, base, hsix, hsixty, Bool.toNat_true,
      Bool.toNat_false, Bool.false_eq_true, true_iff, false_iff, not_not,
      UInt8.reduceToNat] at * <;>
    omega

theorem adjust_unpacked (ha : unpacked.Valid a) (hb : unpacked.Valid b) : unpacked.Makes op a b c
    (unpacked.adjust op r).al.toNat (unpacked.adjust op r).flags.carry := by
  have hcarry : (unpacked.adjust op r).flags.carry = true ↔ _ :=
    (r.carry_adjustUnpacked _ _).trans
      (h.lower ((Nat.mod_le _ _).trans_lt ha) ((Nat.mod_le _ _).trans_lt hb))
  have hal : (unpacked.adjust op r).al.toNat =
    (_ + (unpacked.adjust op r).flags.carry.toNat * _) % _ := r.al_adjustUnpacked _ _
  obtain ⟨hvalue, -⟩ := h
  have hc := c.toNat_le
  have hsix : (-6 : UInt8).toNat = 250 := rfl
  have hx := r.al.toNat_lt
  generalize (unpacked.adjust op r).flags.carry = d at *
  generalize (unpacked.adjust op r).al.toNat = y at *
  generalize r.flags.carry = e at *
  generalize r.al.toNat = x at *
  suffices hmakes : unpacked.Valid y ∧ _ from ⟨hmakes.1, hmakes.2⟩
  simp only [Valid, Decimal.value] at *
  cases op <;> cases d <;> cases e <;>
    simp only [AddSub.exact, AddSub.sign, correction, base, hsix, Bool.toNat_true,
      Bool.toNat_false, Bool.false_eq_true, true_iff, false_iff, not_not,
      UInt8.reduceToNat] at * <;>
    omega

/-- One byte of digits is adjusted. -/
theorem adjust_digits (ha : d.Valid a) (hb : d.Valid b) : d.Makes op a b c
    (d.adjust op r).al.toNat (d.adjust op r).flags.carry := by
  cases d with
  | packed => exact h.adjust_packed ha hb
  | unpacked => exact h.adjust_unpacked ha hb

end Computed

/-- The bytes of digits of a result so far, and what is carried on to the next. -/
structure Carries (d : Decimal) (op : AddSub) (as bs rs : List UInt32) (c : Bool) : Prop where
  left_length : as.length = rs.length
  right_length : bs.length = rs.length
  valid : ∀ r ∈ rs, d.Valid r.toNat
  value : (d.number rs : Int) + op.sign * ((d.base ^ rs.length : Nat) * c.toNat) =
    op.exact (d.number as) (d.number bs) false

/-- The digits `rs` are those of the sum or difference of two numbers, as many as these have. -/
structure Yields (d : Decimal) (op : AddSub) (as bs rs : List UInt32) (c : Bool) : Prop where
  left_length : as.length = rs.length
  right_length : bs.length = rs.length
  valid : ∀ r ∈ rs, d.Valid r.toNat
  result : (d.number rs : Int) =
    op.exact (d.number as) (d.number bs) false % (d.base ^ rs.length : Nat)
  /-- The sum is carried out, or the difference borrows. -/
  carry : c = true ↔
    ¬(0 ≤ op.exact (d.number as) (d.number bs) false ∧
      op.exact (d.number as) (d.number bs) false < (d.base ^ rs.length : Nat))

section Chain

variable {as bs rs : List UInt32} {a b v : UInt32} {c' : Bool}

theorem carries_nil (d : Decimal) (op : AddSub) : d.Carries op [] [] [] false := by
  refine ⟨rfl, rfl, nofun, ?_⟩
  cases op <;> rfl

theorem Carries.append (h : d.Carries op as bs rs c)
    (hv : d.Makes op a.toNat b.toNat c v.toNat c') :
    d.Carries op (as ++ [a]) (bs ++ [b]) (rs ++ [v]) c' where
  left_length := by simp [h.left_length]
  right_length := by simp [h.right_length]
  valid q hq := by
    rcases List.mem_append.1 hq with hq | hq
    · exact h.valid q hq
    · rw [List.mem_singleton.1 hq]
      exact hv.valid
  value := by
    rw [number_append, number_append, number_append, h.left_length, h.right_length,
      List.length_append, List.length_singleton, Nat.pow_succ]
    exact_mod_cast AddSub.value_append h.value hv.value

theorem Carries.yields (h : d.Carries op as bs rs c) : d.Yields op as bs rs c where
  left_length := h.left_length
  right_length := h.right_length
  valid := h.valid
  result := AddSub.eq_emod_of_value (number_lt h.valid) h.value
  carry := AddSub.carry_iff_of_value (number_lt h.valid) h.value

end Chain

end Decimal

end Pc8086.Cpu

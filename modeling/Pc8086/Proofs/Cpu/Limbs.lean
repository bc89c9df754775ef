import Mathlib.Tactic.LinearCombination
import Mathlib.Tactic.Linarith
import Pc8086.Proofs.Cpu.ArithmeticFlags

namespace Pc8086

namespace Width

variable (w : Width) (as : List UInt32) (a : UInt32)

def number : Nat :=
  Nat.ofDigits (2 ^ w.bits) (as.map w.toNat)

def signedNumber : Int :=
  Int.bmod (w.number as) (2 ^ (w.bits * as.length))

theorem number_append : w.number (as ++ [a]) =
    w.number as + 2 ^ (w.bits * as.length) * w.toNat a := by
  rw [number, number, List.map_append, Nat.ofDigits_append, List.length_map, ← Nat.pow_mul,
    List.map_singleton, Nat.ofDigits_singleton]

theorem number_lt : w.number as < 2 ^ (w.bits * as.length) := by
  have hbase : 1 < 2 ^ w.bits := by cases w <;> decide
  have hlt := Nat.ofDigits_lt_base_pow_length (l := as.map w.toNat) hbase fun x hx => by
    obtain ⟨a, _, rfl⟩ := List.mem_map.1 hx
    exact w.toNat_lt a
  rwa [List.length_map, ← Nat.pow_mul] at hlt

theorem bmod_two_mul {n k : Nat} (h : n < 2 * k) :
    Int.bmod n (2 * k) = if n < k then (n : Int) else n - (2 * k : Nat) := by
  have hhalf : (((2 * k : Nat) : Int) + 1) / 2 = k := by omega
  rw [Int.bmod_def, ← Int.natCast_mod, Nat.mod_eq_of_lt h, hhalf]
  simp only [Int.ofNat_lt]

/-- Of a number in two's complement the highest limb alone has a sign. -/
theorem signedNumber_append : w.signedNumber (as ++ [a]) =
    w.number as + (2 ^ (w.bits * as.length) : Nat) * w.toInt a := by
  have hx := w.number_lt as
  have ha := w.toNat_lt a
  have hw := w.two_pow_bits
  generalize hm : 2 ^ (w.bits * as.length) = m at hx
  generalize hh : 2 ^ (w.bits - 1) = h at hw
  have hpow : 2 ^ (w.bits * (as ++ [a]).length) = 2 * (m * h) := by
    rw [List.length_append, List.length_singleton, Nat.mul_add_one, Nat.pow_add, hm, hw,
      Nat.mul_left_comm]
  have hlt : w.number as + m * w.toNat a < 2 * (m * h) := by
    rw [hw] at ha
    nlinarith
  have htop : w.number as + m * w.toNat a < m * h ↔ w.toNat a < h := by
    refine ⟨fun hn => ?_, fun hn => ?_⟩
    · exact Nat.lt_of_mul_lt_mul_left (a := m) (by omega)
    · nlinarith
  rw [signedNumber, number_append, hm, hpow, bmod_two_mul hlt, w.toInt_eq, hh, hw]
  simp only [htop]
  split <;> push_cast <;> ring

end Width

namespace Cpu.Alu.AddSub

def sign : AddSub → Int
  | sum => 1
  | difference => -1

section Digit

variable (op : AddSub) (w : Width) (a b : UInt32) (c : Bool) (f : Flags)

theorem exact_eq (x y : Int) : op.exact x y c = x + op.sign * (y + c.toNat) := by
  cases op <;> simp only [exact, sign] <;> ring

/-- The result together with what is carried out is the exact value. -/
theorem compute_value :
    ((op.compute w a b c f).1.toNat : Int) +
      op.sign * ((2 ^ w.bits : Nat) * (op.compute w a b c f).2.carry.toNat) =
      op.exact (w.toNat a) (w.toNat b) c := by
  have hlt := compute_lt op w a b c f
  have hcases := compute_cases op w a b c f
  have hcarry := compute_carry op w a b c f
  have ha := w.toNat_lt a
  have hb := w.toNat_lt b
  have hc := c.toNat_le
  rw [Width.Unsigned] at hcarry
  generalize (op.compute w a b c f).1.toNat = r at *
  generalize (op.compute w a b c f).2.carry = d at *
  generalize 2 ^ w.bits = m at *
  cases op <;> cases d <;>
    simp only [exact, sign, Bool.toNat_true, Bool.toNat_false, Bool.false_eq_true, false_iff,
      true_iff, not_not] at * <;>
    omega

end Digit

section Chain

variable {op : AddSub} {x y a a' b b' z : Int} {m k n : Nat} {c c' : Bool}

/-- A further digit uses what the digits below carry. -/
theorem value_append (h : x + op.sign * (m * c.toNat) = op.exact a b false)
    (h' : y + op.sign * (k * c'.toNat) = op.exact a' b' c) :
    x + m * y + op.sign * ((m * k : Nat) * c'.toNat) =
      op.exact (a + m * a') (b + m * b') false := by
  rw [exact_eq] at h h' ⊢
  push_cast at h h' ⊢
  linear_combination h + m * h'

variable (hn : n < m) (h : n + op.sign * (m * c.toNat) = z)
include hn h

theorem eq_emod_of_value : (n : Int) = z % m := by
  have hmultiple : z = n + m * (op.sign * c.toNat) := by
    rw [← h]
    ring
  rw [hmultiple, Int.add_mul_emod_self_left, ← Int.natCast_mod, Nat.mod_eq_of_lt hn]

theorem carry_iff_of_value : c = true ↔ ¬(0 ≤ z ∧ z < m) := by
  rw [← h]
  cases op <;> cases c <;> simp [sign] <;> omega

end Chain

/-- The limbs of a result so far, and what is carried on to the next. -/
structure Carries (op : AddSub) (w : Width) (as bs rs : List UInt32) (c : Bool) : Prop where
  left_length : as.length = rs.length
  right_length : bs.length = rs.length
  limb : ∀ r ∈ rs, r.toNat < 2 ^ w.bits
  value : (w.number rs : Int) + op.sign * ((2 ^ (w.bits * rs.length) : Nat) * c.toNat) =
    op.exact (w.number as) (w.number bs) false

/-- The limbs `rs` are those of the sum or difference of two numbers, as many as these have, and the
flags tell of the whole what they tell of one limb. -/
structure Yields (op : AddSub) (w : Width) (as bs rs : List UInt32) (f : Flags) : Prop where
  left_length : as.length = rs.length
  right_length : bs.length = rs.length
  limb : ∀ r ∈ rs, r.toNat < 2 ^ w.bits
  result : (w.number rs : Int) =
    op.exact (w.number as) (w.number bs) false % (2 ^ (w.bits * rs.length) : Nat)
  /-- The sum is carried out, or the difference borrows. -/
  carry : f.carry = true ↔
    ¬(0 ≤ op.exact (w.number as) (w.number bs) false ∧
      op.exact (w.number as) (w.number bs) false < (2 ^ (w.bits * rs.length) : Nat))
  /-- In two's complement the value has no place. -/
  overflow : f.overflow = true ↔
    ¬(-(2 ^ (w.bits * rs.length - 1) : Nat) ≤
        op.exact (w.signedNumber as) (w.signedNumber bs) false ∧
      op.exact (w.signedNumber as) (w.signedNumber bs) false <
        (2 ^ (w.bits * rs.length - 1) : Nat))

variable {op : AddSub} {w : Width} {as bs rs : List UInt32} {a b r : UInt32} {c : Bool}
  {f : Flags}

theorem carries_nil (op : AddSub) (w : Width) : op.Carries w [] [] [] false := by
  refine ⟨rfl, rfl, nofun, ?_⟩
  cases op <;> rfl

theorem Carries.append (h : op.Carries w as bs rs c)
    (hr : r.toNat = (op.compute w a b c f).1.toNat) :
    op.Carries w (as ++ [a]) (bs ++ [b]) (rs ++ [r]) (op.compute w a b c f).2.carry where
  left_length := by simp [h.left_length]
  right_length := by simp [h.right_length]
  limb q hq := by
    rcases List.mem_append.1 hq with hq | hq
    · exact h.limb q hq
    · rw [List.mem_singleton.1 hq, hr]
      exact compute_lt op w a b c f
  value := by
    have hlimb := compute_value op w a b c f
    have hrest := h.value
    have hself : w.toNat r = (op.compute w a b c f).1.toNat := by
      rw [w.toNat_eq_self (hr.trans_lt (compute_lt op w a b c f)), hr]
    have hpow : 2 ^ (w.bits * (rs ++ [r]).length) = 2 ^ (w.bits * rs.length) * 2 ^ w.bits := by
      rw [List.length_append, List.length_singleton, Nat.mul_add_one, Nat.pow_add]
    rw [w.number_append, w.number_append, w.number_append, hself, hpow, h.left_length,
      h.right_length]
    exact_mod_cast value_append hrest hlimb

theorem Carries.result (h : op.Carries w as bs rs c) : (w.number rs : Int) =
    op.exact (w.number as) (w.number bs) false % (2 ^ (w.bits * rs.length) : Nat) :=
  eq_emod_of_value (w.number_lt rs) h.value

theorem Carries.carry (h : op.Carries w as bs rs c) : c = true ↔
    ¬(0 ≤ op.exact (w.number as) (w.number bs) false ∧
      op.exact (w.number as) (w.number bs) false < (2 ^ (w.bits * rs.length) : Nat)) :=
  carry_iff_of_value (w.number_lt rs) h.value

/-- Whether a number has a place is told by its highest limb, whatever the limbs below. -/
theorem place_iff {k m n : Nat} (hk : k < m) (x : Int) :
    (-(m * n : Nat) ≤ k + m * x ∧ k + m * x < (m * n : Nat)) ↔ -(n : Int) ≤ x ∧ x < n := by
  have hm : (0 : Int) < m := by omega
  have hx : (k + m * x) / m = x := by
    rw [Int.add_mul_ediv_left _ _ hm.ne', Int.ediv_eq_zero_of_lt (by omega) (by omega), zero_add]
  have hlower := Int.le_ediv_iff_mul_le (a := -(n : Int)) (b := k + m * x) hm
  have hupper := Int.ediv_lt_iff_lt_mul (a := k + m * x) (b := n) hm
  rw [hx] at hlower hupper
  rw [hlower, hupper, neg_mul, Nat.cast_mul, mul_comm (m : Int) n]

theorem Carries.overflow (h : op.Carries w as bs rs c) :
    (op.compute w a b c f).2.overflow = true ↔
      ¬(-(2 ^ (w.bits * (rs ++ [r]).length - 1) : Nat) ≤
          op.exact (w.signedNumber (as ++ [a])) (w.signedNumber (bs ++ [b])) false ∧
        op.exact (w.signedNumber (as ++ [a])) (w.signedNumber (bs ++ [b])) false <
          (2 ^ (w.bits * (rs ++ [r]).length - 1) : Nat)) := by
  have hpos : 0 < w.bits := by cases w <;> decide
  have hpow : 2 ^ (w.bits * (rs ++ [r]).length - 1) =
      2 ^ (w.bits * rs.length) * 2 ^ (w.bits - 1) := by
    rw [List.length_append, List.length_singleton, Nat.mul_add_one, Nat.add_sub_assoc hpos,
      Nat.pow_add]
  have hvalue : op.exact (w.signedNumber (as ++ [a])) (w.signedNumber (bs ++ [b])) false =
      w.number rs + (2 ^ (w.bits * rs.length) : Nat) * op.exact (w.toInt a) (w.toInt b) c := by
    have hrest := h.value
    rw [exact_eq] at hrest
    rw [exact_eq, exact_eq, w.signedNumber_append, w.signedNumber_append, h.left_length,
      h.right_length]
    push_cast at hrest ⊢
    linear_combination -hrest
  rw [hpow, hvalue, place_iff (w.number_lt rs), compute_overflow, Width.Signed]

/-- What is carried along all limbs makes the result, and the highest limb the flags. -/
theorem Carries.yields (h : op.Carries w as bs rs c)
    (hr : r.toNat = (op.compute w a b c f).1.toNat) :
    op.Yields w (as ++ [a]) (bs ++ [b]) (rs ++ [r]) (op.compute w a b c f).2 where
  left_length := (h.append hr).left_length
  right_length := (h.append hr).right_length
  limb := (h.append hr).limb
  result := (h.append hr).result
  carry := (h.append hr).carry
  overflow := h.overflow

end Cpu.Alu.AddSub

end Pc8086

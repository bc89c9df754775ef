import Mathlib.Data.Nat.Digits.Defs
import Mathlib.Data.Nat.Bitwise
import Pc8086.Cpu.Execute
import Pc8086.Proofs.Cpu.Exec

namespace Pc8086

namespace Width

variable (w : Width) (v : UInt32)

def toNat : Nat :=
  v.toNat % 2 ^ w.bits

def Unsigned (x : Int) : Prop :=
  0 ≤ x ∧ x < (2 ^ w.bits : Nat)

/-- The numbers that have a place in the width in two's complement. -/
def Signed (x : Int) : Prop :=
  -(2 ^ (w.bits - 1) : Nat) ≤ x ∧ x < (2 ^ (w.bits - 1) : Nat)

theorem two_pow_bits : 2 ^ w.bits = 2 * 2 ^ (w.bits - 1) := by
  cases w <;> rfl

theorem mask_toNat : w.mask.toNat = 2 ^ w.bits - 1 := by
  cases w <;> rfl

theorem signBit_toNat : w.signBit.toNat = 2 ^ (w.bits - 1) := by
  cases w <;> rfl

theorem toNat_lt : w.toNat v < 2 ^ w.bits :=
  Nat.mod_lt _ (Nat.two_pow_pos _)

theorem toNat_eq_self {v : UInt32} (h : v.toNat < 2 ^ w.bits) : w.toNat v = v.toNat :=
  Nat.mod_eq_of_lt h

@[simp] theorem toNat_truncate : (w.truncate v).toNat = w.toNat v := by
  rw [truncate, UInt32.toNat_and, mask_toNat, Nat.and_two_pow_sub_one_eq_mod, toNat]

/-- The two readings differ where the top bit is set. -/
theorem toInt_eq : w.toInt v =
    if w.toNat v < 2 ^ (w.bits - 1) then (w.toNat v : Int)
    else w.toNat v - (2 ^ w.bits : Nat) := by
  have hm : (((2 ^ w.bits : Nat) : Int) + 1) / 2 = (2 ^ (w.bits - 1) : Nat) := by
    cases w <;> rfl
  rw [toInt, Nat.pow_eq, Int.bmod_def, ← Int.natCast_mod, hm]
  simp only [Int.ofNat_lt]
  rfl

end Width

namespace Cpu.Alu

theorem and_bit_ne_zero {m : UInt32} {k : Nat} (h : m.toNat = 2 ^ k) (x : UInt32) :
    (x &&& m != 0) = x.toNat.testBit k := by
  rw [Bool.eq_iff_iff, bne_iff_ne, ne_eq, ← UInt32.toNat_inj, UInt32.toNat_and, h,
    Nat.and_two_pow, UInt32.toNat_zero]
  cases x.toNat.testBit k <;> simp

theorem testBit_top {n k : Nat} (h : n < 2 * 2 ^ k) : n.testBit k = decide (2 ^ k ≤ n) := by
  have hq : n / 2 ^ k < 2 := Nat.div_lt_of_lt_mul (by omega)
  rw [Nat.testBit_eq_decide_div_mod_eq, decide_eq_decide, Nat.mod_eq_of_lt hq,
    ← Nat.one_le_div_iff (Nat.two_pow_pos k)]
  omega

/-- The predicate asks whether the first number differs in its top bit from both others. -/
theorem overflowAdd_iff {w : Width} {x y z : UInt32} (hx : x.toNat < 2 ^ w.bits)
    (hy : y.toNat < 2 ^ w.bits) (hz : z.toNat < 2 ^ w.bits) :
    overflowAdd w x y z = true ↔
      ¬(2 ^ (w.bits - 1) ≤ x.toNat ↔ 2 ^ (w.bits - 1) ≤ y.toNat) ∧
        ¬(2 ^ (w.bits - 1) ≤ x.toNat ↔ 2 ^ (w.bits - 1) ≤ z.toNat) := by
  rw [w.two_pow_bits] at hx hy hz
  rw [overflowAdd, and_bit_ne_zero w.signBit_toNat]
  simp only [UInt32.toNat_and, UInt32.toNat_xor, Nat.testBit_and, Nat.testBit_xor, testBit_top hx,
    testBit_top hy, testBit_top hz, Bool.and_eq_true, bne_iff_ne, ne_eq, decide_eq_decide]

/-- The three numbers have an odd number of the lowest bits of their second digits. -/
theorem adjust_iff (result a b : UInt32) : adjust result a b = true ↔
    (result.toNat / 16 + a.toNat / 16 + b.toNat / 16) % 2 = 1 := by
  have hm : (0x10 : UInt32).toNat = 2 ^ 4 := rfl
  rw [adjust, and_bit_ne_zero hm, UInt32.toNat_xor, UInt32.toNat_xor, Nat.testBit_xor,
    Nat.testBit_xor]
  simp only [Nat.testBit_eq_decide_div_mod_eq, Nat.reducePow]
  rcases Nat.mod_two_eq_zero_or_one (result.toNat / 16) with hr | hr <;>
    rcases Nat.mod_two_eq_zero_or_one (a.toNat / 16) with ha | ha <;>
    rcases Nat.mod_two_eq_zero_or_one (b.toNat / 16) with hb | hb <;>
    simp [Nat.add_mod, hr, ha, hb]

theorem and_not_eq_zero_iff (x m : UInt64) : x &&& ~~~m = 0 ↔ x &&& m = x := by
  rw [← UInt64.toBitVec_inj, ← UInt64.toBitVec_inj]
  simp only [BitVec.eq_of_getLsbD_eq_iff, UInt64.toBitVec_and, UInt64.toBitVec_not,
    BitVec.getLsbD_and, BitVec.getLsbD_not]
  apply forall₂_congr
  intro i hi
  simp [hi]

theorem carry_eq (w : Width) (wide : UInt64) :
    carry w wide = decide (2 ^ w.bits ≤ wide.toNat) := by
  have hm : w.mask.toNat = 2 ^ w.bits - 1 := w.mask_toNat
  rw [carry, Bool.eq_iff_iff, bne_iff_ne, ne_eq, and_not_eq_zero_iff, ← UInt64.toNat_inj,
    UInt64.toNat_and, UInt32.toNat_toUInt64, hm, Nat.and_two_pow_sub_one_eq_mod,
    decide_eq_true_iff, Nat.mod_eq_iff_lt (Nat.two_pow_pos _).ne', not_lt]

theorem even_ones_of_byte : ∀ n < 256, Even (Nat.digits 2 n).sum ↔
    ((List.range 8).countP fun i => n.testBit i) % 2 = 0 := by
  decide +kernel

theorem parity_iff (result : UInt32) :
    parity result = true ↔ Even (Nat.digits 2 (result.toNat % 256)).sum := by
  have hbits : (List.range 8).countP (fun i => result.toBitVec.getLsbD i) =
      (List.range 8).countP fun i => (result.toNat % 2 ^ 8).testBit i := by
    apply List.countP_congr
    intro i hi
    rw [List.mem_range] at hi
    simp only [BitVec.getLsbD, UInt32.toNat_toBitVec, Nat.testBit_mod_two_pow, hi, decide_true,
      Bool.true_and]
  rw [parity, beq_iff_eq, hbits, even_ones_of_byte _ (Nat.mod_lt _ (by decide))]
  rfl

/-- Two operands make a sum with a carry or a difference less a borrow. -/
inductive AddSub where
  | sum
  | difference
  deriving DecidableEq

namespace AddSub

def exact : AddSub → Int → Int → Bool → Int
  | sum, a, b, c => a + b + c.toNat
  | difference, a, b, c => a - b - c.toNat

def compute : AddSub → Width → UInt32 → UInt32 → Bool → Flags → UInt32 × Flags
  | sum => add
  | difference => sub

variable (op : AddSub) (w : Width) (a b : UInt32) (c : Bool) (f : Flags)

theorem toUInt32_toNat : c.toUInt32.toNat = c.toNat := by
  cases c <;> rfl

theorem toUInt64_toNat : c.toUInt64.toNat = c.toNat := by
  cases c <;> rfl

theorem wide_toNat :
    ((w.truncate a).toUInt64 + (w.truncate b).toUInt64 + c.toUInt64).toNat =
      w.toNat a + w.toNat b + c.toNat := by
  have ha : w.toNat a < 2 ^ 32 := (Nat.mod_le _ _).trans_lt a.toNat_lt
  have hb : w.toNat b < 2 ^ 32 := (Nat.mod_le _ _).trans_lt b.toNat_lt
  have hc := c.toNat_le
  rw [UInt64.toNat_add, UInt64.toNat_add, UInt32.toNat_toUInt64, UInt32.toNat_toUInt64,
    Width.toNat_truncate, Width.toNat_truncate, toUInt64_toNat]
  omega

theorem compute_lt : (op.compute w a b c f).1.toNat < 2 ^ w.bits := by
  cases op <;> exact (w.toNat_truncate _).trans_lt (w.toNat_lt _)

theorem compute_result : ((op.compute w a b c f).1.toNat : Int) =
    op.exact (w.toNat a) (w.toNat b) c % (2 ^ w.bits : Nat) := by
  have hc := c.toNat_le
  cases op with
  | sum =>
    have hwide := wide_toNat w a b c
    simp only [compute, add, exact, Width.toNat_truncate]
    rw [Width.toNat, UInt64.toNat_toUInt32, hwide]
    cases w <;> simp only [Width.bits] <;> omega
  | difference =>
    simp only [compute, sub, exact, Width.toNat_truncate]
    rw [Width.toNat, UInt32.toNat_sub, UInt32.toNat_sub, toUInt32_toNat, Width.toNat_truncate,
      Width.toNat_truncate]
    have ha := w.toNat_lt a
    have hb := w.toNat_lt b
    cases w <;> simp only [Width.bits] at * <;> omega

theorem compute_carry : (op.compute w a b c f).2.carry = true ↔
    ¬w.Unsigned (op.exact (w.toNat a) (w.toNat b) c) := by
  have ha := w.toNat_lt a
  cases op with
  | sum =>
    simp only [compute, add, flagResult, carry_eq, wide_toNat, exact, Width.Unsigned,
      decide_eq_true_iff]
    omega
  | difference =>
    have hb : w.toNat b < 2 ^ 32 := (Nat.mod_le _ _).trans_lt b.toNat_lt
    have hc := c.toNat_le
    simp only [compute, sub, flagResult, exact, Width.Unsigned, decide_eq_true_iff,
      UInt64.lt_iff_toNat_lt, UInt64.toNat_add, UInt32.toNat_toUInt64, Width.toNat_truncate,
      toUInt64_toNat]
    omega

/-- Cutting a value to the width adds or takes away the modulus at most once. -/
theorem emod_cases {x m : Int} (hl : -m ≤ x) (hu : x < 2 * m) :
    x % m = x ∨ x % m = x + m ∨ x % m = x - m := by
  by_cases hn : x < 0
  · right; left
    rw [← Int.add_emod_right, Int.emod_eq_of_lt] <;> omega
  · by_cases hx : x < m
    · left
      exact Int.emod_eq_of_lt (by omega) hx
    · right; right
      rw [← Int.sub_emod_right, Int.emod_eq_of_lt] <;> omega

theorem compute_cases :
    ((op.compute w a b c f).1.toNat : Int) = op.exact (w.toNat a) (w.toNat b) c ∨
    ((op.compute w a b c f).1.toNat : Int) =
      op.exact (w.toNat a) (w.toNat b) c + (2 ^ w.bits : Nat) ∨
    ((op.compute w a b c f).1.toNat : Int) =
      op.exact (w.toNat a) (w.toNat b) c - (2 ^ w.bits : Nat) := by
  have ha := w.toNat_lt a
  have hb := w.toNat_lt b
  have hc := c.toNat_le
  rw [compute_result]
  apply emod_cases <;> cases op <;> simp only [exact] <;> omega

theorem compute_overflow : (op.compute w a b c f).2.overflow = true ↔
    ¬w.Signed (op.exact (w.toInt a) (w.toInt b) c) := by
  have hr := compute_lt op w a b c f
  have hcut := compute_cases op w a b c f
  have ha := w.toNat_lt a
  have hb := w.toNat_lt b
  have hc := c.toNat_le
  have hm := w.two_pow_bits
  have hflag : (op.compute w a b c f).2.overflow =
      match op with
      | sum => overflowAdd w (op.compute w a b c f).1 (w.truncate a) (w.truncate b)
      | difference => overflowAdd w (w.truncate a) (w.truncate b) (op.compute w a b c f).1 := by
    cases op <;> rfl
  rw [← w.toNat_truncate] at ha hb
  rw [hflag, w.toInt_eq, w.toInt_eq, Width.Signed]
  cases op with
  | sum =>
    simp only [exact, overflowAdd_iff hr ha hb, Width.toNat_truncate] at ha hb hcut ⊢
    split <;> split <;> omega
  | difference =>
    simp only [exact, overflowAdd_iff ha hb hr, Width.toNat_truncate] at ha hb hcut ⊢
    split <;> split <;> omega

theorem compute_adjust : (op.compute w a b c f).2.adjust = true ↔
    ¬(0 ≤ op.exact (a.toNat % 16 : Nat) (b.toNat % 16 : Nat) c ∧
      op.exact (a.toNat % 16 : Nat) (b.toNat % 16 : Nat) c < 16) := by
  have hr := compute_result op w a b c f
  have hc := c.toNat_le
  have hflag : (op.compute w a b c f).2.adjust = true ↔
      ((op.compute w a b c f).1.toNat / 16 + w.toNat a / 16 + w.toNat b / 16) % 2 = 1 := by
    cases op with
    | sum =>
      rw [← w.toNat_truncate a, ← w.toNat_truncate b, ← adjust_iff]
      rfl
    | difference =>
      rw [← w.toNat_truncate a, ← w.toNat_truncate b, Nat.add_right_comm, ← adjust_iff]
      rfl
  rw [hflag]
  cases op <;> cases w <;>
    simp only [exact, Width.toNat, Width.bits, Nat.reducePow] at hr ⊢ <;> omega

theorem compute_zero : (op.compute w a b c f).2.zero = true ↔ (op.compute w a b c f).1 = 0 := by
  have hflag : (op.compute w a b c f).2.zero = (w.truncate (op.compute w a b c f).1 == 0) := by
    cases op <;> rfl
  rw [hflag, beq_iff_eq, ← UInt32.toNat_inj, ← UInt32.toNat_inj, w.toNat_truncate,
    w.toNat_eq_self (compute_lt op w a b c f)]

theorem compute_sign : (op.compute w a b c f).2.sign =
    (op.compute w a b c f).1.toNat.testBit (w.bits - 1) := by
  rw [← and_bit_ne_zero w.signBit_toNat]
  cases op <;> rfl

theorem compute_parity : (op.compute w a b c f).2.parity = true ↔
    Even (Nat.digits 2 ((op.compute w a b c f).1.toNat % 256)).sum := by
  rw [← parity_iff]
  cases op <;> rfl

theorem compute_control : (op.compute w a b c f).2.trap = f.trap ∧
    (op.compute w a b c f).2.interrupt = f.interrupt ∧
    (op.compute w a b c f).2.direction = f.direction := by
  cases op <;> exact ⟨rfl, rfl, rfl⟩

/-- The value cut to the width, with every flag but the carry telling what it is to tell. -/
structure Reports (p : UInt32 × Flags) : Prop where
  result : (p.1.toNat : Int) = op.exact (w.toNat a) (w.toNat b) c % (2 ^ w.bits : Nat)
  overflow : p.2.overflow = true ↔ ¬w.Signed (op.exact (w.toInt a) (w.toInt b) c)
  /-- The low digits make no digit. -/
  adjust : p.2.adjust = true ↔
    ¬(0 ≤ op.exact (a.toNat % 16 : Nat) (b.toNat % 16 : Nat) c ∧
      op.exact (a.toNat % 16 : Nat) (b.toNat % 16 : Nat) c < 16)
  zero : p.2.zero = true ↔ p.1 = 0
  sign : p.2.sign = p.1.toNat.testBit (w.bits - 1)
  /-- The low byte has an even number of ones. -/
  parity : p.2.parity = true ↔ Even (Nat.digits 2 (p.1.toNat % 256)).sum
  trap : p.2.trap = f.trap
  interrupt : p.2.interrupt = f.interrupt
  direction : p.2.direction = f.direction

/-- The carry is set where the value of the operands without a sign has no place. -/
def ReportsCarry (p : UInt32 × Flags) : Prop :=
  p.2.carry = true ↔ ¬w.Unsigned (op.exact (w.toNat a) (w.toNat b) c)

variable {op w a b c f}

theorem Reports.withCarry {p : UInt32 × Flags} (h : op.Reports w a b c f p) (carry : Bool) :
    op.Reports w a b c f (p.1, { p.2 with carry := carry }) :=
  ⟨h.result, h.overflow, h.adjust, h.zero, h.sign, h.parity, h.trap, h.interrupt, h.direction⟩

variable (op w a b c f)

theorem reports_compute : op.Reports w a b c f (op.compute w a b c f) :=
  have ⟨trap, interrupt, direction⟩ := compute_control op w a b c f
  { result := compute_result op w a b c f
    overflow := compute_overflow op w a b c f
    adjust := compute_adjust op w a b c f
    zero := compute_zero op w a b c f
    sign := compute_sign op w a b c f
    parity := compute_parity op w a b c f
    trap, interrupt, direction }

end AddSub

open AddSub

/-- Additions and subtractions with any carry-in, steps up and down and negations, at every width:
the results and all flags. A step keeps the carry. -/
theorem results_and_flags_of_addition_and_subtraction (w : Width) (a b : UInt32) (c : Bool) (f : Flags) :
    (sum.Reports w a b c f (add w a b c f) ∧ sum.ReportsCarry w a b c (add w a b c f)) ∧
    (difference.Reports w a b c f (sub w a b c f) ∧
      difference.ReportsCarry w a b c (sub w a b c f)) ∧
    (sum.Reports w a 1 false f (increment w a f) ∧ (increment w a f).2.carry = f.carry) ∧
    (difference.Reports w a 1 false f (decrement w a f) ∧
      (decrement w a f).2.carry = f.carry) ∧
    difference.Reports w 0 a false f (negate w a f) ∧
      difference.ReportsCarry w 0 a false (negate w a f) := by
  refine ⟨⟨?_, ?_⟩, ⟨?_, ?_⟩, ⟨?_, rfl⟩, ⟨?_, rfl⟩, ?_, ?_⟩
  · exact reports_compute sum w a b c f
  · exact compute_carry sum w a b c f
  · exact reports_compute difference w a b c f
  · exact compute_carry difference w a b c f
  · exact (reports_compute sum w a 1 false f).withCarry f.carry
  · exact (reports_compute difference w a 1 false f).withCarry f.carry
  · exact reports_compute difference w 0 a false f
  · exact compute_carry difference w 0 a false f

end Cpu.Alu

namespace Cpu

open Exec

theorem execute_arithmetic {β : Type} [Bus β] {op : Alu.Operation} {w : Width} {target : Place}
    {source : Source} {s u v : System β} {a b : UInt32} (ha : readPlace w target s = .ok a u)
    (hb : readSource w source u = .ok b v) :
    execute (.arithmetic op w target source) s =
      (if op.storesResult then writePlace w (op.apply w a b v.cpu.registers.flags).1 target
        else pure ())
        { v with cpu.registers.flags := (op.apply w a b v.cpu.registers.flags).2 } := by
  change (do
    let a ← readPlace w target
    let b ← readSource w source
    let result ← withFlags (op.apply w a b)
    if op.storesResult then writePlace w result target) s = _
  rw [bind_ok _ ha, bind_ok _ hb]
  rfl

end Cpu

end Pc8086

import Mathlib.Tactic.SplitIfs
import Pc8086.Timer.IntervalTimer

namespace Pc8086.Timer

open Interrupt (Controller)

namespace Counter

variable {c : Counter} {k : Nat}

theorem period_pos (c : Counter) : 0 < c.period.toNat := by
  unfold period
  split_ifs with h
  · decide
  · rw [UInt16.toNat_toUInt32]
    refine Nat.pos_of_ne_zero fun hz => h ?_
    exact beq_iff_eq.2 (UInt16.toNat_inj.1 hz)

theorem next_period (c : Counter) : c.next.period = c.period := rfl

theorem tick_reports_iff (c : Counter) : c.tick.1 = true ↔ c.next.output ≠ c.output :=
  bne_iff_ne

theorem next_count (c : Counter) :
    c.next.count.toNat = if c.count.toNat ≤ 1 then c.period.toNat else c.count.toNat - 1 := by
  have hterminal : c.count ≤ 1 ↔ c.count.toNat ≤ 1 := UInt32.le_iff_toNat_le
  unfold next tick
  dsimp only
  by_cases h : c.count.toNat ≤ 1
  · rw [if_pos h, if_pos (hterminal.2 h)]
  · have hone : (1 : UInt32) ≤ c.count := UInt32.le_iff_toNat_le.2 (Nat.le_of_not_le h)
    rw [if_neg h, if_neg (mt hterminal.1 h), UInt32.toNat_sub_of_le _ _ hone]
    rfl

/-- The output of a square wave is high while the count is in the upper half. -/
theorem next_output_of_squareWave (h : c.mode = .squareWave) :
    c.next.output = decide (c.period.toNat / 2 < c.next.count.toNat) := by
  have houtput : c.next.output = decide (c.next.count > c.period / 2) := by
    unfold next tick
    dsimp only
    rw [h]
  rw [houtput]
  refine decide_eq_decide.2 ?_
  rw [gt_iff_lt, UInt32.lt_iff_toNat_lt, UInt32.toNat_div]
  rfl

/-- So many pulses, up to whole periods, have passed since the count was at the top. -/
def Elapsed (c : Counter) (k : Nat) : Prop :=
  c.count.toNat = c.period.toNat - k % c.period.toNat

/-- A remainder grows by one or starts again. -/
theorem succ_mod_cases {p : Nat} (hp : 0 < p) (k : Nat) :
    k % p + 1 = p ∧ (k + 1) % p = 0 ∨ k % p + 1 < p ∧ (k + 1) % p = k % p + 1 := by
  have hlt := Nat.mod_lt k hp
  rcases Nat.lt_or_eq_of_le hlt with h | h
  · refine .inr ⟨h, ?_⟩
    rw [← Nat.mod_add_mod, Nat.mod_eq_of_lt h]
  · refine .inl ⟨h, ?_⟩
    rw [← Nat.mod_add_mod, ← Nat.succ_eq_add_one, h, Nat.mod_self]

theorem Elapsed.next (h : c.Elapsed k) : c.next.Elapsed (k + 1) := by
  have hp := c.period_pos
  have hmod := succ_mod_cases hp k
  unfold Elapsed at h ⊢
  rw [next_period, next_count]
  split_ifs with hterminal <;> omega

structure Oscillates (d k : Nat) (c : Counter) : Prop where
  mode : c.mode = .squareWave
  period : c.period.toNat = d
  elapsed : c.Elapsed k
  output : c.output = decide (d / 2 < d - k % d)

theorem Oscillates.next {d : Nat} (h : c.Oscillates d k) : c.next.Oscillates d (k + 1) where
  mode := h.mode
  period := h.period
  elapsed := h.elapsed.next
  output := by
    have hnext : c.next.count.toNat = c.period.toNat - (k + 1) % c.period.toNat := h.elapsed.next
    rw [next_output_of_squareWave h.mode, hnext, h.period]

/-- A reload value of zero stands for the longest period. -/
theorem oscillates_load {c : Counter} (h : c.mode = .squareWave) (reload : UInt16) :
    (c.load reload).Oscillates (c.load reload).period.toNat 0 where
  mode := h
  period := rfl
  elapsed := by
    unfold Elapsed
    rw [Nat.zero_mod, Nat.sub_zero]
    rfl
  output := by
    have hp := (c.load reload).period_pos
    have hhigh : (c.load reload).output = true := by
      unfold load
      dsimp only
      rw [h]
      rfl
    rw [hhigh, Nat.zero_mod, Nat.sub_zero]
    exact (decide_eq_true (by omega)).symm

end Counter

section Clock

variable (t : IntervalTimer) (c : Controller)

theorem clock_timer :
    (t.clock c).1 =
      { t with
        counter0 := t.counter0.next
        counter1 := t.counter1.next
        counter2 := t.counter2.next } := by
  simp only [IntervalTimer.clock]
  split
  · rfl
  · split
    · split_ifs <;> rfl
    · rfl

/-- Without a report of the first counter the controller is left alone. -/
theorem clock_silent (h : t.counter0.tick.1 = false) : (t.clock c).2 = c := by
  simp only [IntervalTimer.clock]
  rw [if_pos (by rw [h]; rfl)]

/-- A report of the first counter goes to its line as the level of its output. -/
theorem clock_reported {n : UInt8} (hl : t.line = some n) (h : t.counter0.tick.1 = true) :
    (t.clock c).2 = if t.counter0.next.output then c.setIrq n else c.clearIrq n := by
  simp only [IntervalTimer.clock, hl]
  rw [if_neg (by rw [h]; decide)]
  change (if t.counter0.next.output then _ else _ : IntervalTimer × Controller).2 = _
  split_ifs <;> rfl

theorem clock_controller {n : UInt8} (hl : t.line = some n) :
    (t.clock c).2 =
      if t.counter0.next.output = t.counter0.output then c
      else if t.counter0.next.output then c.setIrq n else c.clearIrq n := by
  have hreports := t.counter0.tick_reports_iff
  split_ifs with hsame hhigh
  · exact clock_silent t c (Bool.eq_false_iff.2 fun hr => hreports.1 hr hsame)
  · exact (clock_reported t c hl (hreports.2 hsame)).trans (if_pos hhigh)
  · exact (clock_reported t c hl (hreports.2 hsame)).trans (if_neg hhigh)

end Clock

theorem IntervalTimer.withDivisor_oscillates {divisor : UInt32} (h0 : divisor ≠ 0)
    (h : divisor ≤ longestPeriod) :
    (IntervalTimer.withDivisor divisor).counter0.Oscillates divisor.toNat 0 := by
  have hle : divisor.toNat ≤ 65536 := UInt32.le_iff_toNat_le.1 h
  have hperiod : (IntervalTimer.withDivisor divisor).counter0.period.toNat = divisor.toNat := by
    unfold IntervalTimer.withDivisor Counter.load Counter.period
    dsimp only
    by_cases hmax : divisor ≥ longestPeriod
    · have hge : 65536 ≤ divisor.toNat := UInt32.le_iff_toNat_le.1 hmax
      rw [if_pos hmax]
      change 65536 = _
      omega
    · have hlt : divisor.toNat < 65536 := Nat.lt_of_not_le fun hge =>
        hmax (UInt32.le_iff_toNat_le.2 hge)
      have hpos : divisor.toNat ≠ 0 := fun hz => h0 (UInt32.toNat_inj.1 hz)
      have hreload : divisor.toUInt16.toNat = divisor.toNat := by
        rw [UInt32.toNat_toUInt16]
        exact Nat.mod_eq_of_lt hlt
      have hne : ¬(divisor.toUInt16 == 0) = true := by
        intro hz
        rw [beq_iff_eq.1 hz] at hreload
        exact hpos hreload.symm
      rw [if_neg hmax, if_neg hne, UInt16.toNat_toUInt32, hreload]
  have hload := Counter.oscillates_load (c := Counter.program { channel := 0 } 3 3) rfl
    (if divisor ≥ longestPeriod then 0 else divisor.toUInt16)
  rw [← hperiod]
  exact hload

end Pc8086.Timer

import Mathlib.Logic.Function.Iterate
import Pc8086.Proofs.Timer.Edges
import Pc8086.Proofs.Timer.Period

namespace Pc8086.Timer

open Interrupt (Controller)

/-- The output after `k ≥ 1` pulses of period `p`. Modes that wait for a gate stay at rest. -/
def CountMode.outputAfter (m : CountMode) (p k : Nat) : Bool :=
  match m with
  | .terminalCount => p ≤ k
  | .rateGenerator => p - k % p ≠ 1
  | .squareWave => p / 2 < p - k % p
  | .softwareStrobe => ¬p ∣ k
  | .oneShot | .hardwareStrobe => m.restingOutput

namespace Counter

def Rises (c : Counter) : Prop :=
  c.output = false ∧ c.next.output = true

variable {c : Counter} {p k : Nat}

section Closed

theorem period_load (c : Counter) (reload : UInt16) :
    (c.load reload).period.toNat = if reload = 0 then 65536 else reload.toNat := by
  change (if reload == 0 then longestPeriod else reload.toUInt32).toNat = _
  by_cases h : reload = 0
  · rw [if_pos h, if_pos (beq_iff_eq.2 h)]
    rfl
  · rw [if_neg h, if_neg (mt beq_iff_eq.1 h), UInt16.toNat_toUInt32]

theorem next_iterate_mode (c : Counter) (k : Nat) : (next^[k] c).mode = c.mode := by
  induction k with
  | zero => rfl
  | succ k ih =>
    rw [Function.iterate_succ_apply']
    exact ih

theorem next_iterate_period (c : Counter) (k : Nat) : (next^[k] c).period = c.period := by
  induction k with
  | zero => rfl
  | succ k ih =>
    rw [Function.iterate_succ_apply', next_period]
    exact ih

theorem load_elapsed (c : Counter) (reload : UInt16) : (c.load reload).Elapsed 0 := by
  unfold Elapsed
  rw [Nat.zero_mod, Nat.sub_zero]
  rfl

theorem elapsed_iterate {m : Nat} (h : c.Elapsed m) (k : Nat) : (next^[k] c).Elapsed (m + k) := by
  induction k with
  | zero => exact h
  | succ k ih =>
    rw [Function.iterate_succ_apply']
    exact ih.next

theorem count_iterate_load (c : Counter) (reload : UInt16) (k : Nat) :
    (next^[k] (c.load reload)).count.toNat =
      (c.load reload).period.toNat - k % (c.load reload).period.toNat := by
  have h := elapsed_iterate (load_elapsed c reload) k
  rw [Elapsed, next_iterate_period, Nat.zero_add] at h
  exact h

theorem next_output (c : Counter) :
    c.next.output =
      match c.mode with
      | .terminalCount => c.output || decide (c.count.toNat ≤ 1)
      | .rateGenerator => decide (c.next.count.toNat ≠ 1)
      | .squareWave => decide (c.period.toNat / 2 < c.next.count.toNat)
      | .softwareStrobe => decide (¬c.count.toNat ≤ 1)
      | .oneShot | .hardwareStrobe => c.output := by
  have hterminal : c.count ≤ 1 ↔ c.count.toNat ≤ 1 := UInt32.le_iff_toNat_le
  have hone : c.next.count = 1 ↔ c.next.count.toNat = 1 := by
    rw [← UInt32.toNat_inj]
    rfl
  cases hm : c.mode with
  | squareWave => exact next_output_of_squareWave hm
  | terminalCount => simp [next, tick, hm, hterminal]
  | rateGenerator =>
    have h : c.next.output = !decide (c.next.count = 1) := by
      simp [next, tick, hm, bne, Bool.beq_eq_decide_eq]
    rw [h, decide_not, decide_eq_decide.2 hone]
  | softwareStrobe => simp only [next, tick, hm, hterminal, decide_not]
  | oneShot => simp [next, tick, hm]
  | hardwareStrobe => simp [next, tick, hm]

/-- The terminal count comes with the last pulse of a period. -/
theorem sub_mod_le_one_iff (hp : 0 < p) (k : Nat) : p - k % p ≤ 1 ↔ p ∣ k + 1 := by
  have hmod := succ_mod_cases hp k
  rw [Nat.dvd_iff_mod_eq_zero]
  omega

/-- One more pulse leads from the output after `k` pulses, at first the one at rest, to the output
after `k + 1`. -/
theorem outputAfter_succ (h : c.count.toNat = c.period.toNat - k % c.period.toNat)
    (ho : c.output = if k = 0 then c.mode.restingOutput else c.mode.outputAfter c.period.toNat k) :
    c.next.output = c.mode.outputAfter c.period.toNat (k + 1) := by
  have hp := c.period_pos
  have hnext : c.next.count.toNat = c.period.toNat - (k + 1) % c.period.toNat := Elapsed.next h
  have hterminal := sub_mod_le_one_iff hp k
  rw [next_output, hnext, h, ho]
  generalize c.period.toNat = p at hp hterminal
  unfold CountMode.outputAfter
  cases c.mode with
  | rateGenerator => rfl
  | squareWave => rfl
  | softwareStrobe => exact decide_eq_decide.2 (not_congr hterminal)
  | oneShot => simp
  | hardwareStrobe => simp
  | terminalCount =>
    -- a divisor of `k + 1` that is above `k` is `k + 1`
    have hfirst : p ≤ k ∨ p ∣ k + 1 ↔ p ≤ k + 1 := by
      constructor
      · rintro (hle | hd)
        · exact Nat.le_succ_of_le hle
        · exact Nat.le_of_dvd k.succ_pos hd
      · intro hle
        rcases Nat.lt_or_eq_of_le hle with hlt | rfl
        · exact .inl (Nat.le_of_lt_succ hlt)
        · exact .inr (Nat.dvd_refl _)
    have hzero : (if k = 0 then CountMode.terminalCount.restingOutput else decide (p ≤ k)) =
        decide (p ≤ k) := by
      split_ifs with hk
      · exact (decide_eq_false (by omega)).symm
      · rfl
    dsimp only
    rw [hzero, ← Bool.decide_or, decide_eq_decide, hterminal]
    exact hfirst

theorem output_iterate_load (c : Counter) (reload : UInt16) (k : Nat) :
    (next^[k] (c.load reload)).output =
      if k = 0 then c.mode.restingOutput
      else c.mode.outputAfter (c.load reload).period.toNat k := by
  induction k with
  | zero => rfl
  | succ k ih =>
    rw [Function.iterate_succ_apply', if_neg k.succ_ne_zero]
    have hmode := next_iterate_mode (c.load reload) k
    have hperiod := next_iterate_period (c.load reload) k
    have h := outputAfter_succ (c := next^[k] (c.load reload)) (k := k)
    rw [hmode, hperiod] at h
    exact h (count_iterate_load c reload k) ih

end Closed

section Rise

/-- Within a period the output of an oscillating mode only falls, and the end of the period raises
it. -/
theorem rises_iff {m : CountMode} (hm : m = .rateGenerator ∨ m = .squareWave) (hp : 2 ≤ p)
    (k : Nat) :
    m.outputAfter p k = false ∧ m.outputAfter p (k + 1) = true ↔ p ∣ k + 1 := by
  have hmod := succ_mod_cases (by omega : 0 < p) k
  rw [Nat.dvd_iff_mod_eq_zero]
  obtain rfl | rfl := hm <;>
    simp only [CountMode.outputAfter, decide_eq_true_iff, decide_eq_false_iff_not] <;> omega

theorem rises_iterate_load_iff (hm : c.mode = .rateGenerator ∨ c.mode = .squareWave)
    (reload : UInt16) (hp : 2 ≤ (c.load reload).period.toNat) (k : Nat) :
    (next^[k] (c.load reload)).Rises ↔ (c.load reload).period.toNat ∣ k + 1 := by
  -- these two modes begin with the output that their rule has for no pulses
  have hrest : c.mode.restingOutput = c.mode.outputAfter (c.load reload).period.toNat 0 := by
    generalize (c.load reload).period.toNat = p at hp
    obtain h | h := hm <;> rw [h] <;>
      simp only [CountMode.outputAfter, Nat.zero_mod, Nat.sub_zero] <;>
      exact (decide_eq_true (by omega)).symm
  have houtput : ∀ k, (next^[k] (c.load reload)).output =
      c.mode.outputAfter (c.load reload).period.toNat k := by
    intro k
    rw [output_iterate_load]
    split_ifs with hk
    · rw [hk, hrest]
    · rfl
  unfold Rises
  rw [← Function.iterate_succ_apply' next, houtput, houtput]
  exact rises_iff hm hp k

/-- Of any `p` numbers in a row just one has a successor that `p` divides. -/
theorem existsUnique_dvd_succ (hp : 0 < p) (m : Nat) : ∃! k, (m ≤ k ∧ k < m + p) ∧ p ∣ k + 1 := by
  have hlt := Nat.mod_lt m hp
  have hdiv := Nat.div_add_mod m p
  have hnext : p * (m / p + 1) = p * (m / p) + p := Nat.mul_succ p (m / p)
  refine ⟨p * (m / p + 1) - 1, ⟨by omega, m / p + 1, by omega⟩, ?_⟩
  rintro k ⟨hk, j, hj⟩
  -- `p * j` lies strictly above `m` and at most at `m + p`
  have hlow : m / p < j := by
    apply Nat.lt_of_mul_lt_mul_left (a := p)
    omega
  have hhigh : j < m / p + 2 := by
    apply Nat.lt_of_mul_lt_mul_left (a := p)
    rw [Nat.mul_add]
    omega
  have hj' : j = m / p + 1 := by omega
  rw [← hj', ← hj]
  rfl

end Rise

section Range

/-- What can become of a counter. -/
inductive Reached : Counter → Prop where
  | new (channel : UInt8) : Reached { channel }
  | load {c : Counter} (h : Reached c) (reload : UInt16) : Reached (c.load reload)
  | next {c : Counter} (h : Reached c) : Reached c.next
  | read {c : Counter} (h : Reached c) : Reached c.readByte.2
  | write {c : Counter} (h : Reached c) (v : UInt8) : Reached (c.writeByte v)
  | program {c : Counter} (h : Reached c) (access mode : UInt8) : Reached (c.program access mode)

theorem period_le (c : Counter) : c.period.toNat ≤ 65536 := by
  unfold period
  split_ifs
  · decide
  · rw [UInt16.toNat_toUInt32]
    exact Nat.le_of_lt c.reload.toNat_lt

def InRange (c : Counter) : Prop :=
  1 ≤ c.count.toNat ∧ c.count.toNat ≤ 65536

theorem inRange_load (c : Counter) (reload : UInt16) : (c.load reload).InRange :=
  ⟨(c.load reload).period_pos, (c.load reload).period_le⟩

theorem InRange.next (h : c.InRange) : c.next.InRange := by
  have hp := c.period_pos
  have hle := c.period_le
  unfold InRange at h ⊢
  rw [next_count]
  split_ifs <;> omega

theorem InRange.writeByte (h : c.InRange) (v : UInt8) : (c.writeByte v).InRange := by
  unfold Counter.writeByte
  dsimp only
  split
  · split_ifs
    · exact inRange_load _ _
    · exact h
  · exact inRange_load _ _
  · exact inRange_load _ _

theorem InRange.program (h : c.InRange) (access mode : UInt8) : (c.program access mode).InRange := by
  unfold Counter.program
  split_ifs <;> exact h

theorem Reached.inRange (h : c.Reached) : c.InRange := by
  induction h with
  | new channel =>
    change 1 ≤ 65536 ∧ 65536 ≤ 65536
    decide
  | load _ reload => exact inRange_load _ reload
  | next _ ih => exact ih.next
  | read _ ih => exact ih
  | write _ v ih => exact ih.writeByte v
  | program _ access mode ih => exact ih.program access mode

end Range

end Counter

section Timers

variable {t : IntervalTimer}

structure IntervalTimer.Reached (t : IntervalTimer) : Prop where
  counter0 : t.counter0.Reached
  counter1 : t.counter1.Reached
  counter2 : t.counter2.Reached

theorem reached_withDivisor (divisor : UInt32) : (IntervalTimer.withDivisor divisor).Reached where
  counter0 := .load (.program (.new 0) 3 3) _
  counter1 := .new 1
  counter2 := .new 2

theorem reached_readPort (h : t.Reached) (port : UInt16) : (t.readPort port).2.Reached := by
  unfold IntervalTimer.readPort
  split
  · exact ⟨h.counter0.read, h.counter1, h.counter2⟩
  · exact ⟨h.counter0, h.counter1.read, h.counter2⟩
  · exact ⟨h.counter0, h.counter1, h.counter2.read⟩
  · exact h
  · exact h

theorem reached_control (h : t.Reached) (v : UInt8) : (t.control v).Reached := by
  unfold IntervalTimer.control
  dsimp only
  split
  · exact ⟨h.counter0.program _ _, h.counter1, h.counter2⟩
  · exact ⟨h.counter0, h.counter1.program _ _, h.counter2⟩
  · exact ⟨h.counter0, h.counter1, h.counter2.program _ _⟩
  · exact h

theorem reached_writePort (h : t.Reached) (port : UInt16) (v : UInt8) :
    (t.writePort port v).2.Reached := by
  unfold IntervalTimer.writePort
  split
  · exact ⟨h.counter0.write v, h.counter1, h.counter2⟩
  · exact ⟨h.counter0, h.counter1.write v, h.counter2⟩
  · exact ⟨h.counter0, h.counter1, h.counter2.write v⟩
  · exact reached_control h v
  · exact h

theorem reached_clock (h : t.Reached) (c : Controller) : (t.clock c).1.Reached := by
  rw [clock_timer]
  exact ⟨h.counter0.next, h.counter1.next, h.counter2.next⟩

theorem reached_performAll {w : Clockwork} (h : w.timer.Reached) (acts : List Action) :
    (w.performAll acts).timer.Reached := by
  induction acts generalizing w with
  | nil => exact h
  | cons a acts ih =>
    refine ih ?_
    cases a with
    | read port => exact reached_readPort h port
    | write port v => exact reached_writePort h port v
    | pulse => exact reached_clock h w.controller
    | control op => exact h

/-- The counting law: the count and the output of an undisturbed counter, what a pulse reports, one
rise in any period, what a pulse tells the controller, and the range that no count leaves. -/
theorem counting_law (c : Counter) (reload : UInt16) :
    let p := if reload = 0 then 65536 else reload.toNat
    let after (k : Nat) := Counter.next^[k] (c.load reload)
    (∀ k, (after k).count.toNat = p - k % p) ∧
    (∀ k, 1 ≤ k → (after k).output = c.mode.outputAfter p k) ∧
    (∀ d : Counter, d.tick.1 = true ↔ d.tick.2.output ≠ d.output) ∧
    (∀ k, (after k).tick.1 = true ↔ c.mode.outputAfter p (k + 1) ≠
      if k = 0 then c.mode.restingOutput else c.mode.outputAfter p k) ∧
    (c.mode = .rateGenerator ∨ c.mode = .squareWave → 2 ≤ p →
      ∀ m, ∃! k, (m ≤ k ∧ k < m + p) ∧ (after k).Rises) ∧
    (∀ (t : IntervalTimer) (n : UInt8) (ctl : Controller), t.line = some n →
      (t.clock ctl).1.counter0 = t.counter0.next ∧
      (t.clock ctl).2 =
        if t.counter0.next.output = t.counter0.output then ctl
        else if t.counter0.next.output then ctl.setIrq n else ctl.clearIrq n) ∧
    (∀ d : Counter, d.Reached → 1 ≤ d.count.toNat ∧ d.count.toNat ≤ 65536) ∧
    ∀ (divisor : UInt32) (line : Option UInt8) (ctl : Controller) (acts : List Action),
      let w : Clockwork := ⟨{ IntervalTimer.withDivisor divisor with line }, ctl⟩
      (w.performAll acts).timer.Reached := by
  intro p after
  have hp : (c.load reload).period.toNat = p := Counter.period_load c reload
  -- the law starts with the first pulse; before it stands the resting output
  have houtput : ∀ k, (after k).output =
      if k = 0 then c.mode.restingOutput else c.mode.outputAfter p k := by
    intro k
    rw [← hp]
    exact Counter.output_iterate_load c reload k
  refine ⟨?count, ?output, Counter.tick_reports_iff, ?reports, ?rise, ?told,
    fun d hd => hd.inRange, ?runs⟩
  case count =>
    intro k
    rw [← hp]
    exact Counter.count_iterate_load c reload k
  case output => exact fun k hk => (houtput k).trans (if_neg (Nat.ne_of_gt hk))
  case reports =>
    intro k
    have hnext : (after k).next = after (k + 1) :=
      (Function.iterate_succ_apply' Counter.next k (c.load reload)).symm
    rw [Counter.tick_reports_iff, hnext, houtput, houtput, if_neg k.succ_ne_zero]
  case rise =>
    intro hm h2 m
    have hrises : ∀ k, (after k).Rises ↔ p ∣ k + 1 := by
      rw [← hp] at h2 ⊢
      exact Counter.rises_iterate_load_iff hm reload h2
    simp only [hrises]
    exact Counter.existsUnique_dvd_succ (by omega) m
  case told =>
    intro t n ctl hn
    exact ⟨congrArg IntervalTimer.counter0 (clock_timer t ctl), clock_controller t ctl hn⟩
  case runs =>
    intro divisor line ctl acts w
    have h := reached_withDivisor divisor
    have hw : w.timer.Reached := ⟨h.counter0, h.counter1, h.counter2⟩
    exact reached_performAll hw acts

/-- The longest rate: low just at the count of one, as the pulse before reports, and up once in any
65536 pulses. -/
theorem counting_law_longest :
    let c := Counter.program { channel := 0 } 3 2
    (Counter.next^[65535] (c.load 0)).count.toNat = 1 ∧
    (Counter.next^[65535] (c.load 0)).output = false ∧
    (Counter.next^[65534] (c.load 0)).tick.1 = true ∧
    ∃! k, (7 ≤ k ∧ k < 7 + 65536) ∧ (Counter.next^[k] (c.load 0)).Rises := by
  intro c
  have hmode : c.mode = .rateGenerator := rfl
  obtain ⟨hcount, houtput, -, hreports, hrise, -⟩ := counting_law c 0
  simp only [↓reduceIte] at hcount houtput hreports hrise
  refine ⟨hcount 65535, ?_, (hreports 65534).2 ?_, hrise (.inl hmode) (by decide) 7⟩
  · rw [houtput 65535 (by decide), hmode]
    rfl
  · rw [hmode]
    decide

end Timers

end Pc8086.Timer

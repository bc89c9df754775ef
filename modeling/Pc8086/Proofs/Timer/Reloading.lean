import Pc8086.Proofs.Timer.Counting

/-!
A reload value in two bytes. The low one goes into the live reload value at once, so the counter
runs on with a period mixed from the old value and the new. That stays unseen while the count has
not come to its end and, for a square wave, is not between the halves of the two periods. The high
byte then loads the whole value.
-/

namespace Pc8086.Timer

namespace Counter

def Changes (c : Counter) : Prop :=
  c.tick.1 = true

/-- For `n` pulses two counters show the same count and output, and report the same changes. -/
structure Alike (n : Nat) (c d : Counter) : Prop where
  count : ∀ j ≤ n, (next^[j] c).count = (next^[j] d).count
  output : ∀ j ≤ n, (next^[j] c).output = (next^[j] d).output
  report : ∀ j < n, (next^[j] c).Changes ↔ (next^[j] d).Changes

structure Matches (c d : Counter) : Prop where
  mode : c.mode = d.mode
  count : c.count = d.count
  output : c.output = d.output

variable {c d : Counter} {n : Nat}

section Pulses

theorem next_iterate_eq (c : Counter) (k : Nat) :
    next^[k] c = { c with count := (next^[k] c).count, output := (next^[k] c).output } := by
  induction k with
  | zero => rfl
  | succ k ih =>
    rw [Function.iterate_succ_apply']
    generalize next^[k] c = e at ih
    rw [ih]
    rfl

theorem count_iterate_of_lt {k : Nat} (h : k = 0 ∨ k < c.count.toNat) :
    (next^[k] c).count.toNat = c.count.toNat - k := by
  induction k with
  | zero => rfl
  | succ k ih =>
    have hlt : k + 1 < c.count.toNat := by omega
    rw [Function.iterate_succ_apply', next_count, ih (.inr (by omega)), if_neg (by omega)]
    omega

theorem reload_eq_iff_period : c.reload = d.reload ↔ c.period.toNat = d.period.toNat := by
  have hc := c.reload.toNat_lt
  have hd := d.reload.toNat_lt
  have hperiod : ∀ e : Counter, e.period.toNat = if e.reload = 0 then 65536 else e.reload.toNat :=
    fun e => period_load e e.reload
  rw [hperiod, hperiod, ← UInt16.toNat_inj]
  simp only [← UInt16.toNat_inj, UInt16.toNat_zero]
  split_ifs <;> omega

theorem alike_iff_matches (h : c.Matches d) :
    Alike n c d ↔ ∀ j ≤ n, (next^[j] c).Matches (next^[j] d) := by
  constructor
  · intro ha j hj
    refine ⟨?_, ha.count j hj, ha.output j hj⟩
    rw [next_iterate_mode, next_iterate_mode]
    exact h.mode
  · intro hall
    refine ⟨fun j hj => (hall j hj).count, fun j hj => (hall j hj).output, fun j hj => ?_⟩
    have hnext := (hall (j + 1) hj).output
    rw [Function.iterate_succ_apply', Function.iterate_succ_apply'] at hnext
    unfold Changes
    rw [tick_reports_iff, tick_reports_iff, hnext, (hall j (Nat.le_of_lt hj)).output]

end Pulses

section Step

/-- A pulse tells two periods apart at the end of the count, and by the half of a square wave. -/
theorem next_matches_iff (h : c.Matches d) (hp : c.period.toNat ≠ d.period.toNat) :
    c.next.Matches d.next ↔
      1 < c.count.toNat ∧
      (c.mode = .squareWave →
        (c.period.toNat / 2 < c.count.toNat - 1 ↔ d.period.toNat / 2 < c.count.toNat - 1)) := by
  have hcount : c.next.count = d.next.count ↔ 1 < c.count.toNat := by
    rw [← UInt32.toNat_inj, next_count, next_count, ← h.count]
    split_ifs <;> omega
  have houtput (hlt : 1 < c.count.toNat) : c.next.output = d.next.output ↔
      (c.mode = .squareWave →
        (c.period.toNat / 2 < c.count.toNat - 1 ↔ d.period.toNat / 2 < c.count.toNat - 1)) := by
    have hnext : c.next.count.toNat = c.count.toNat - 1 := by
      rw [next_count, if_neg (by omega)]
    rw [next_output c, next_output d, ← hcount.2 hlt, hnext, ← h.count, ← h.output, ← h.mode]
    cases c.mode with
    | squareWave => simp
    | terminalCount => simp
    | rateGenerator => simp
    | softwareStrobe => simp
    | oneShot => simp
    | hardwareStrobe => simp
  constructor
  · intro ht
    have hlt := hcount.1 ht.count
    exact ⟨hlt, (houtput hlt).1 ht.output⟩
  · rintro ⟨hlt, hhalf⟩
    exact ⟨h.mode, hcount.2 hlt, (houtput hlt).2 hhalf⟩

theorem next_matches_of_period (h : c.Matches d) (hp : c.period.toNat = d.period.toNat) :
    c.next.Matches d.next := by
  have hcount : c.next.count = d.next.count := by
    rw [← UInt32.toNat_inj, next_count, next_count, h.count, hp]
  refine ⟨h.mode, hcount, ?_⟩
  rw [next_output c, next_output d, hcount, hp, h.count, h.output, h.mode]

end Step

section Run

theorem iterate_matches_of_period (h : c.Matches d) (hp : c.period.toNat = d.period.toNat)
    (j : Nat) : (next^[j] c).Matches (next^[j] d) := by
  induction j with
  | zero => exact h
  | succ j ih =>
    rw [Function.iterate_succ_apply', Function.iterate_succ_apply']
    refine next_matches_of_period ih ?_
    rw [next_iterate_period, next_iterate_period]
    exact hp

/-- Counters of different periods show the same until the end of the count, as long as no count on
the way is between the halves. -/
theorem iterate_matches_iff (h : c.Matches d) (hp : c.period.toNat ≠ d.period.toNat) (n : Nat) :
    (∀ j ≤ n, (next^[j] c).Matches (next^[j] d)) ↔
      (n = 0 ∨ n < c.count.toNat) ∧
      (c.mode = .squareWave → ∀ i, c.count.toNat - n ≤ i → i < c.count.toNat →
        (c.period.toNat / 2 < i ↔ d.period.toNat / 2 < i)) := by
  induction n with
  | zero =>
    refine iff_of_true ?_ ⟨.inl rfl, fun _ i hle hlt => absurd hlt (Nat.not_lt.2 hle)⟩
    rintro j hj
    rw [Nat.le_zero.1 hj]
    exact h
  | succ n ih =>
    have hsplit : (∀ j ≤ n + 1, (next^[j] c).Matches (next^[j] d)) ↔
        (∀ j ≤ n, (next^[j] c).Matches (next^[j] d)) ∧
          (next^[n] c).next.Matches (next^[n] d).next := by
      rw [← Function.iterate_succ_apply' next, ← Function.iterate_succ_apply' next]
      refine ⟨fun hall => ⟨fun j hj => hall j (by omega), hall _ le_rfl⟩, ?_⟩
      rintro ⟨hall, hlast⟩ j hj
      rcases Nat.lt_or_eq_of_le hj with hlt | rfl
      · exact hall j (Nat.le_of_lt_succ hlt)
      · exact hlast
    rw [hsplit]
    -- the last pulse decides by the count that it finds
    have hlast (hn : n = 0 ∨ n < c.count.toNat)
        (hm : (next^[n] c).Matches (next^[n] d)) :
        (next^[n] c).next.Matches (next^[n] d).next ↔ n + 1 < c.count.toNat ∧
          (c.mode = .squareWave → (c.period.toNat / 2 < c.count.toNat - (n + 1) ↔
            d.period.toNat / 2 < c.count.toNat - (n + 1))) := by
      have hpn : (next^[n] c).period.toNat ≠ (next^[n] d).period.toNat := by
        rw [next_iterate_period, next_iterate_period]
        exact hp
      rw [next_matches_iff hm hpn, count_iterate_of_lt hn, next_iterate_mode, next_iterate_period,
        next_iterate_period, Nat.sub_sub]
      refine and_congr_left fun _ => ?_
      omega
    constructor
    · rintro ⟨hall, hstep⟩
      obtain ⟨hn, hhalves⟩ := ih.1 hall
      obtain ⟨hlt, hhalf⟩ := (hlast hn (hall n le_rfl)).1 hstep
      refine ⟨.inr hlt, fun hm i hle hi => ?_⟩
      by_cases hi' : c.count.toNat - n ≤ i
      · exact hhalves hm i hi' hi
      · have : i = c.count.toNat - (n + 1) := by omega
        rw [this]
        exact hhalf hm
    · rintro ⟨hlt, hhalves⟩
      have hn : n = 0 ∨ n < c.count.toNat := by omega
      have hall := ih.2 ⟨hn, fun hm i hle hi => hhalves hm i (by omega) hi⟩
      refine ⟨hall, (hlast hn (hall n le_rfl)).2 ⟨by omega, fun hm => ?_⟩⟩
      exact hhalves hm _ le_rfl (by omega)

end Run

section Writes

theorem writeByte_low (ha : c.access = .lowThenHigh) (hn : c.highNext = false) (v : UInt8) :
    c.writeByte v = { c with highNext := true, reload := (c.reload &&& 0xFF00) ||| v.toUInt16 } := by
  simp [writeByte, ha, hn]

theorem writeByte_high (ha : c.access = .lowThenHigh) (hn : c.highNext = true) (v : UInt8) :
    c.writeByte v = ({ c with highNext := false }).load
      ((c.reload &&& 0x00FF) ||| (v.toUInt16 <<< (8 : UInt16))) := by
  simp [writeByte, ha, hn]

theorem mixed_and_low (r : UInt16) (v : UInt8) :
    ((r &&& 0xFF00) ||| v.toUInt16) &&& 0x00FF = v.toUInt16 := by
  have hnat : (r.toNat &&& 0xFF00 ||| v.toNat) &&& 0x00FF = v.toNat := by
    rw [Nat.and_or_distrib_right, Nat.and_assoc, show 0xFF00 &&& 0x00FF = 0 from rfl, Nat.and_zero,
      Nat.zero_or]
    exact (Nat.and_two_pow_sub_one_eq_mod _ 8).trans (Nat.mod_eq_of_lt v.toNat_lt)
  rw [← UInt16.toNat_inj, UInt16.toNat_and, UInt16.toNat_or, UInt16.toNat_and, UInt8.toNat_toUInt16]
  exact hnat

/-- The high byte loads the whole value as if nothing had been between the two. -/
theorem writeByte_pair (ha : c.access = .lowThenHigh) (hn : c.highNext = false) (low high : UInt8)
    (n : Nat) :
    (next^[n] (c.writeByte low)).writeByte high =
      c.load (low.toUInt16 ||| (high.toUInt16 <<< (8 : UInt16))) := by
  have hfields := next_iterate_eq (c.writeByte low) n
  have hlow := writeByte_low ha hn low
  rw [writeByte_high (by rw [hfields, hlow]; exact ha) (by rw [hfields, hlow])]
  have hreload : (next^[n] (c.writeByte low)).reload = (c.reload &&& 0xFF00) ||| low.toUInt16 := by
    rw [hfields, hlow]
  rw [hreload, mixed_and_low]
  generalize next^[n] (c.writeByte low) = e at hfields
  rw [hfields, hlow]
  unfold load
  rw [hn]
  rfl

end Writes

/-- The first byte of a reload value stays unseen for `n` pulses just if it changes nothing, or if
the count does not come to its end and, as a square wave, passes no number between the halves of the
two periods. The second byte then loads the whole value and starts the count again. -/
theorem partial_reload_unseen_iff {c : Counter} (ha : c.access = .lowThenHigh)
    (hn : c.highNext = false) (low high : UInt8) (n : Nat) :
    let d := c.writeByte low
    (Alike n c d ↔
      d.reload = c.reload ∨
      (n = 0 ∨ n < c.count.toNat) ∧
      (c.mode = .squareWave → ∀ i, c.count.toNat - n ≤ i → i < c.count.toNat →
        (c.period.toNat / 2 < i ↔ d.period.toNat / 2 < i))) ∧
    (Counter.next^[n] d).writeByte high =
      c.load (low.toUInt16 ||| (high.toUInt16 <<< (8 : UInt16))) := by
  intro d
  refine ⟨?_, writeByte_pair ha hn low high n⟩
  have hlow : d = _ := writeByte_low ha hn low
  have hmatch : c.Matches d := by
    rw [hlow]
    exact ⟨rfl, rfl, rfl⟩
  rw [alike_iff_matches hmatch, eq_comm, reload_eq_iff_period]
  by_cases hp : c.period.toNat = d.period.toNat
  · exact iff_of_true (fun j _ => iterate_matches_of_period hmatch hp j) (.inl hp)
  · rw [iterate_matches_iff hmatch hp, or_iff_right hp]

/-- A rate of 200 with the mixed period 5 goes on unseen for 150 pulses, and then 261 is loaded. -/
theorem partial_reload_unseen_at_top :
    let c := (Counter.program { channel := 0 } 3 2).load 200
    Alike 150 c (c.writeByte 5) ∧
    (Counter.next^[150] (c.writeByte 5)).writeByte 1 = c.load 261 := by
  intro c
  have hmode : c.mode = .rateGenerator := rfl
  obtain ⟨hunseen, hload⟩ := partial_reload_unseen_iff (c := c) rfl rfl 5 1 150
  refine ⟨hunseen.2 (.inr ⟨.inr (by decide), fun hm => ?_⟩), hload⟩
  rw [hmode] at hm
  cases hm

/-- With a rate of 2 the count ends after two pulses and starts again with the mixed period. -/
theorem partial_reload_seen :
    let c := (Counter.program { channel := 0 } 3 2).load 2
    (c.access = .lowThenHigh ∧ c.highNext = false) ∧
    ((Counter.next^[2] c).count = 2 ∧ (Counter.next^[2] (c.writeByte 5)).count = 5) ∧
    ¬Alike 2 c (c.writeByte 5) := by
  intro c
  have hcount : (Counter.next^[2] c).count = 2 ∧ (Counter.next^[2] (c.writeByte 5)).count = 5 := by
    decide
  refine ⟨⟨rfl, rfl⟩, hcount, fun h => ?_⟩
  have h2 := h.count 2 le_rfl
  rw [hcount.1, hcount.2] at h2
  exact absurd h2 (by decide)

end Counter

end Pc8086.Timer

import Mathlib.Data.List.DropRight
import Mathlib.Tactic.IntervalCases
import Pc8086.Proofs.Timer.Reloading

/-!
Reading the count while the counter runs. A latch command keeps the count for a read, and the read
of its last byte gives it up. But a command takes the count anew even while an earlier one waits to
be read, so every byte is one of the count at the last command before it. The bytes are those of the
first command just if the later counts do not differ in the bytes that are read of them.
-/

namespace Pc8086.Timer

def byteAt (n j : Nat) : UInt8 :=
  UInt8.ofNat (n / 256 ^ j)

namespace ByteAccess

def size : ByteAccess → Nat
  | low | high => 1
  | lowThenHigh => 2

/-- Which byte of the count comes as the `i`-th. -/
def place (a : ByteAccess) (i : Nat) : Nat :=
  match a with
  | low => 0
  | high => 1
  | lowThenHigh => i

def bytes (a : ByteAccess) (n : Nat) : List UInt8 :=
  (List.range a.size).map fun i => byteAt n (a.place i)

theorem size_pos (a : ByteAccess) : 0 < a.size := by
  cases a <;> decide

theorem place_lt_two {a : ByteAccess} {i : Nat} (hi : i < a.size) : a.place i < 2 := by
  cases a with
  | low => exact Nat.zero_lt_two
  | high => exact Nat.one_lt_two
  | lowThenHigh => exact hi

end ByteAccess

namespace Counter

inductive Delay where
  | pulse
  | latch (mode : UInt8)

def Delay.isPulse : Delay → Bool
  | pulse => true
  | latch _ => false

def meet (c : Counter) : Delay → Counter
  | .pulse => c.next
  | .latch mode => c.program 0 mode

def await (c : Counter) (ds : List Delay) : Counter :=
  ds.foldl meet c

/-- One byte is read after each list of delays. -/
def readOut (c : Counter) : List (List Delay) → List UInt8 × Counter
  | [] => ([], c)
  | ds :: rest =>
    let (v, d) := (c.await ds).readByte
    let (vs, e) := d.readOut rest
    (v :: vs, e)

def pulses (ds : List Delay) : Nat :=
  ds.countP Delay.isPulse

def lastLatch (ds : List Delay) : Nat :=
  pulses (ds.rdropWhile Delay.isPulse)

/-- The count after `k` pulses: down to one, and then from the period on, again and again. -/
def countAfter (c : Counter) (k : Nat) : Nat :=
  if k < max c.count.toNat 1 then c.count.toNat - k
  else c.period.toNat - (k - max c.count.toNat 1) % c.period.toNat

variable {c : Counter}

section Course

theorem countAfter_of_lt {k : Nat} (h : k < max c.count.toNat 1) :
    c.countAfter k = c.count.toNat - k :=
  if_pos h

theorem countAfter_of_le {k : Nat} (h : max c.count.toNat 1 ≤ k) :
    c.countAfter k = c.period.toNat - (k - max c.count.toNat 1) % c.period.toNat :=
  if_neg (Nat.not_lt.2 h)

theorem count_iterate (c : Counter) (k : Nat) : (next^[k] c).count.toNat = c.countAfter k := by
  have hp := c.period_pos
  induction k with
  | zero => simp [countAfter]
  | succ k ih =>
    rw [Function.iterate_succ_apply', next_count, ih, next_iterate_period]
    -- The first count goes on, it ends with this pulse, or it has ended before.
    rcases Nat.lt_trichotomy (k + 1) (max c.count.toNat 1) with hlt | heq | hgt
    · rw [countAfter_of_lt hlt, countAfter_of_lt (by omega), if_neg (by omega), Nat.sub_sub]
    · rw [countAfter_of_le (Nat.le_of_eq heq.symm), countAfter_of_lt (by omega),
        if_pos (by omega), heq, Nat.sub_self, Nat.zero_mod, Nat.sub_zero]
    · have hmod := succ_mod_cases hp (k - max c.count.toNat 1)
      rw [countAfter_of_le (by omega), countAfter_of_le (Nat.le_of_lt hgt),
        Nat.sub_add_comm (by omega)]
      split_ifs <;> omega

theorem byteAt_low (n : UInt32) : n.toUInt16.toUInt8 = byteAt n.toNat 0 := by
  rw [← UInt8.toNat_inj]
  simp [byteAt]

theorem byteAt_high (n : UInt32) : (n.toUInt16 >>> 8).toUInt8 = byteAt n.toNat 1 := by
  rw [← UInt8.toNat_inj]
  simp [byteAt, Nat.shiftRight_eq_div_pow]
  omega

end Course

section Delays

theorem pulses_concat_pulse (ds : List Delay) : pulses (ds ++ [.pulse]) = pulses ds + 1 := by
  simp [pulses, Delay.isPulse]

theorem pulses_concat_latch (ds : List Delay) (mode : UInt8) :
    pulses (ds ++ [.latch mode]) = pulses ds := by
  simp [pulses, Delay.isPulse]

theorem lastLatch_concat_pulse (ds : List Delay) : lastLatch (ds ++ [.pulse]) = lastLatch ds := by
  rw [lastLatch, List.rdropWhile_concat_pos _ _ _ rfl, lastLatch]

theorem lastLatch_concat_latch (ds : List Delay) (mode : UInt8) :
    lastLatch (ds ++ [.latch mode]) = pulses ds := by
  rw [lastLatch, List.rdropWhile_concat_neg _ _ _ (by simp [Delay.isPulse]), pulses_concat_latch]

def turn (c : Counter) (i : Nat) : Bool :=
  if c.access = .lowThenHigh then i = 1 else c.highNext

/-- The counter some delays and `i` read bytes after a latch command: the count of the last command
is kept while a byte is still to come. -/
def stage (c : Counter) (ds : List Delay) (i : Nat) : Counter :=
  { next^[pulses ds] c with
    latched := if i < c.access.size then some (next^[lastLatch ds] c).count.toUInt16 else none
    highNext := c.turn i }

variable {ds : List Delay} {i : Nat}

theorem stage_access : (c.stage ds i).access = c.access := by
  rw [stage, next_iterate_eq]

theorem stage_latched (hi : i < c.access.size) :
    (c.stage ds i).latched = some (next^[lastLatch ds] c).count.toUInt16 :=
  if_pos hi

theorem stage_turn (j : Nat) : (c.stage ds i).turn j = c.turn j := by
  unfold turn
  rw [stage_access]
  split_ifs with ha
  · rfl
  · exact if_neg ha

theorem program_eq_stage (hn : c.access = .lowThenHigh → c.highNext = false) (mode : UInt8) :
    c.program 0 mode = c.stage [] 0 := by
  have hturn : c.turn 0 = c.highNext := by
    unfold turn
    split_ifs with ha
    · rw [hn ha]
      rfl
    · rfl
  rw [stage, hturn, if_pos c.access.size_pos]
  rfl

theorem meet_stage (hi : i < c.access.size) (d : Delay) :
    (c.stage ds i).meet d = c.stage (ds ++ [d]) i := by
  unfold stage
  rw [if_pos hi, if_pos hi]
  cases d with
  | pulse =>
    rw [pulses_concat_pulse, lastLatch_concat_pulse, Function.iterate_succ_apply']
    rfl
  | latch mode =>
    rw [pulses_concat_latch, lastLatch_concat_latch]
    rfl

theorem await_stage (hi : i < c.access.size) (es : List Delay) :
    (c.stage ds i).await es = c.stage (ds ++ es) i := by
  induction es generalizing ds with
  | nil =>
    rw [List.append_nil]
    rfl
  | cons e es ih =>
    show ((c.stage ds i).meet e).await es = _
    rw [meet_stage hi, ih, List.append_assoc, List.singleton_append]

end Delays

section Reads

variable {ds : List Delay} {i : Nat}

/-- A read takes the next byte of a latched count, and with its last byte the count is given up. -/
theorem readByte_of_latched {v : UInt16} (hl : c.latched = some v) (hi : i < c.access.size)
    (hn : c.access = .lowThenHigh → c.highNext = decide (i = 1)) :
    c.readByte =
      (if c.access.place i = 0 then v.toUInt8 else (v >>> 8).toUInt8,
        { c with
          latched := if i + 1 < c.access.size then some v else none
          highNext := c.turn (i + 1) }) := by
  cases ha : c.access with
  | low =>
    obtain rfl : i = 0 := by simpa [ha, ByteAccess.size] using hi
    simp [readByte, turn, ha, hl, ByteAccess.place, ByteAccess.size]
  | high =>
    obtain rfl : i = 0 := by simpa [ha, ByteAccess.size] using hi
    simp [readByte, turn, ha, hl, ByteAccess.place, ByteAccess.size]
  | lowThenHigh =>
    have hnext := hn ha
    have hi : i < 2 := by simpa [ha, ByteAccess.size] using hi
    interval_cases i
    · simp [readByte, turn, ha, hl, hnext, ByteAccess.place, ByteAccess.size]
    · simp [readByte, turn, ha, hl, hnext, ByteAccess.place, ByteAccess.size]

theorem readByte_stage (hi : i < c.access.size) :
    (c.stage ds i).readByte =
      (byteAt (c.countAfter (lastLatch ds)) (c.access.place i), c.stage ds (i + 1)) := by
  have hturn : (c.stage ds i).access = .lowThenHigh → (c.stage ds i).highNext = decide (i = 1) := by
    rw [stage_access]
    exact fun ha => if_pos ha
  rw [readByte_of_latched (stage_latched hi) (by rwa [stage_access]) hturn, stage_turn]
  have hplace := ByteAccess.place_lt_two hi
  apply Prod.ext
  · rw [← count_iterate, stage_access]
    generalize c.access.place i = j at hplace
    interval_cases j
    · exact byteAt_low _
    · exact byteAt_high _
  · have hsize : (c.stage ds i).access.size = c.access.size := congrArg _ stage_access
    rw [hsize]
    rfl

theorem readOut_stage (gaps : List (List Delay)) (hi : i + gaps.length ≤ c.access.size) :
    (c.stage ds i).readOut gaps =
      ((List.range gaps.length).map fun j =>
          byteAt (c.countAfter (lastLatch (ds ++ (gaps.take (j + 1)).flatten)))
            (c.access.place (i + j)),
        c.stage (ds ++ gaps.flatten) (i + gaps.length)) := by
  induction gaps generalizing ds i with
  | nil => simp [readOut]
  | cons es gaps ih =>
    have hlt : i < c.access.size := by
      rw [List.length_cons] at hi
      omega
    have hrest : i + 1 + gaps.length ≤ c.access.size := by
      rw [List.length_cons] at hi
      omega
    simp only [readOut, await_stage hlt, readByte_stage hlt, ih hrest]
    simp [List.range_succ_eq_map, Function.comp_def, Nat.add_assoc, Nat.add_comm 1]

/-- With the last byte read the counter is what the pulses alone make of it. -/
theorem stage_complete (hl : c.latched = none) (hn : c.access = .lowThenHigh → c.highNext = false)
    (ds : List Delay) : c.stage ds c.access.size = Counter.next^[pulses ds] c := by
  have hturn : c.turn c.access.size = c.highNext := by
    unfold turn
    split_ifs with ha
    · rw [hn ha, ha]
      rfl
    · rfl
  unfold stage
  rw [hturn, if_neg (Nat.lt_irrefl _), next_iterate_eq, hl]

end Reads

/-- A complete read after a latch command, with any pulses and further commands before each byte.
It yields the bytes of the latched count just if each of them is the same in the count at the last
command before it. The latch is given up with the last byte and not before, and the counter is then
as the pulses alone would have left it. -/
theorem latched_read_frozen_iff (hl : c.latched = none)
    (hn : c.access = .lowThenHigh → c.highNext = false) (mode : UInt8) (gaps : List (List Delay))
    (hg : gaps.length = c.access.size) :
    let d := c.program 0 mode
    ((d.readOut gaps).1 = c.access.bytes c.count.toNat ↔
      ∀ i < c.access.size,
        byteAt (c.countAfter (lastLatch (gaps.take (i + 1)).flatten)) (c.access.place i) =
          byteAt c.count.toNat (c.access.place i)) ∧
    (∀ i < c.access.size, ∀ ds, ((d.readOut (gaps.take i)).2.await ds).latched ≠ none) ∧
    (d.readOut gaps).2.latched = none ∧
    (d.readOut gaps).2 = Counter.next^[pulses gaps.flatten] c := by
  intro d
  have hd : d = c.stage [] 0 := program_eq_stage hn mode
  -- a read of all bytes ends in the stage after the last one
  have hall : (c.stage [] 0).readOut gaps = _ := readOut_stage gaps (by omega)
  simp only [List.nil_append, Nat.zero_add, hg] at hall
  rw [hd, hall, stage_complete hl hn]
  refine ⟨?bytes, ?kept, ?released, rfl⟩
  case bytes =>
    rw [ByteAccess.bytes, List.map_inj_left]
    simp only [List.mem_range]
  case kept =>
    intro i hi ds
    have htake : (gaps.take i).length = i := by
      rw [List.length_take]
      omega
    rw [readOut_stage _ (by omega), htake, Nat.zero_add, await_stage hi, stage_latched hi]
    simp
  case released =>
    show (Counter.next^[_] c).latched = none
    rw [next_iterate_eq]
    exact hl

/-- A second command that comes at 512, between the bytes of 515, finds the same high byte. -/
theorem latched_read_frozen_within_page :
    let c := (Counter.program { channel := 0 } 3 2).load 515
    (c.latched = none ∧ (c.access = .lowThenHigh → c.highNext = false)) ∧
    ((c.program 0 0).readOut [[.pulse], [.pulse, .pulse, .latch 0, .pulse]]).1 = [3, 2] := by
  intro c
  have hnext : c.access = .lowThenHigh → c.highNext = false := fun _ => rfl
  obtain ⟨hfrozen, -⟩ := latched_read_frozen_iff (c := c) rfl hnext 0
    [[.pulse], [.pulse, .pulse, .latch 0, .pulse]] rfl
  have hbytes : c.access.bytes c.count.toNat = [3, 2] := by decide
  refine ⟨⟨rfl, hnext⟩, (hfrozen.2 ?_).trans hbytes⟩
  intro i hi
  have hi : i < 2 := hi
  interval_cases i
  · decide
  · decide

/-- Latched at 256, and again at 255 between the two reads: they yield 0, which this counter never
shows. -/
theorem latched_read_torn :
    let c := (Counter.program { channel := 0 } 3 2).load 256
    (c.latched = none ∧ c.access = .lowThenHigh ∧ c.highNext = false) ∧
    c.access.bytes c.count.toNat = [0, 1] ∧
    ((c.program 0 0).readOut [[], [.pulse, .latch 0]]).1 = [0, 0] := by
  decide

end Counter

end Pc8086.Timer

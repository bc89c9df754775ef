import Pc8086.Proofs.Cpu.Fetch
import Pc8086.Proofs.Cpu.Supply

namespace Pc8086

def Memory.Holds (m : Memory) (base offset : UInt16) (bytes : List UInt8) : Prop :=
  ∀ i (h : i < bytes.length), m.peek (linear base (offset + UInt16.ofNat i)) = bytes.get ⟨i, h⟩

namespace Memory

variable {m m' : Memory} {base offset : UInt16} {b : UInt8} {bytes : List UInt8}

theorem Holds.head (h : m.Holds base offset (b :: bytes)) : m.peek (linear base offset) = b := by
  have h0 := h 0 (Nat.succ_pos _)
  change m.peek (linear base (offset + 0)) = b at h0
  rwa [UInt16.add_zero] at h0

theorem Holds.tail (h : m.Holds base offset (b :: bytes)) : m.Holds base (offset + 1) bytes := by
  intro i hi
  rw [← add_ofNat_succ]
  exact h (i + 1) (Nat.succ_lt_succ hi)

/-- Bytes that nothing was written over are still there. -/
theorem Holds.congr (h : m.Holds base offset bytes)
    (he : ∀ i < bytes.length, m'.peek (linear base (offset + UInt16.ofNat i)) =
      m.peek (linear base (offset + UInt16.ofNat i))) : m'.Holds base offset bytes := by
  intro i hi
  rw [he i hi, h i hi]

/-- A value that is stored elsewhere leaves the bytes. -/
theorem Holds.stored {base' offset' : UInt16} (h : m.Holds base offset bytes) (v : UInt32) {n : Nat}
    (hapart : ∀ i < bytes.length, ∀ k < n,
      linear base' (offset' + UInt16.ofNat k) ≠ linear base (offset + UInt16.ofNat i)) :
    (m.store base' offset' v n).Holds base offset bytes :=
  h.congr fun i hi => peek_store_of_ne m v (hapart i hi)

theorem peek_of_byte? {a : UInt32} (h : m.byte? a = some b) : m.peek a = b := by
  rw [peek, h]
  rfl

theorem Spells.holds (h : m.Spells base offset bytes) : m.Holds base offset bytes := by
  induction bytes generalizing offset with
  | nil => exact fun _ hi => absurd hi (Nat.not_lt_zero _)
  | cons b bytes ih =>
    intro i hi
    cases i with
    | zero =>
      change m.peek (linear base (offset + 0)) = b
      rw [UInt16.add_zero]
      exact peek_of_byte? h.1
    | succ i =>
      rw [add_ofNat_succ]
      exact ih h.2 i (Nat.lt_of_succ_lt_succ hi)

theorem Holds.spells (hm : 0x100000 ≤ m.size) (h : m.Holds base offset bytes) :
    m.Spells base offset bytes := by
  induction bytes generalizing offset with
  | nil => trivial
  | cons b bytes ih =>
    have hin : (linear base offset).toNat < m.bytes.size :=
      Nat.lt_of_lt_of_le (linear_lt base offset) hm
    have hb := h.head
    refine ⟨?_, ih h.tail⟩
    rw [peek, byte?, dif_pos hin] at hb
    rw [byte?, dif_pos hin]
    exact congrArg some hb

end Memory

namespace Cpu

open Exec

def IsPrefix (b : UInt8) : Prop :=
  PrefixByte.isSimple b = true ∨ PrefixByte.isRepeat b = true

instance : DecidablePred IsPrefix :=
  fun b => inferInstanceAs (Decidable (PrefixByte.isSimple b = true ∨ PrefixByte.isRepeat b = true))

theorem isSimple_iff (b : UInt8) :
    PrefixByte.isSimple b = true ↔ b ∈ [0x26, 0x2E, 0x36, 0x3E, 0x66, 0xF0] := by
  unfold PrefixByte.isSimple Segment.ofOverride?
  split <;> simp_all [PrefixByte.operandSize, PrefixByte.lock]

theorem isRepeat_iff (b : UInt8) : PrefixByte.isRepeat b = true ↔ b ∈ [0xF2, 0xF3] := by
  simp [PrefixByte.isRepeat, PrefixByte.repeatNotEqual, PrefixByte.repeatEqual]

theorem isPrefix_iff (b : UInt8) :
    IsPrefix b ↔ b ∈ [0x26, 0x2E, 0x36, 0x3E, 0x66, 0xF0, 0xF2, 0xF3] := by
  unfold IsPrefix
  rw [isSimple_iff, isRepeat_iff, ← List.mem_append]
  rfl

theorem not_isRepeat_of_isSimple {b : UInt8} (h : PrefixByte.isSimple b = true) :
    PrefixByte.isRepeat b = false := by
  have hb := (isSimple_iff b).1 h
  simp only [List.mem_cons, List.not_mem_nil, or_false] at hb
  rcases hb with rfl | rfl | rfl | rfl | rfl | rfl <;> rfl

theorem not_isPrefix_of_string {b : UInt8} {op : StringOperation} {size : OperandSize}
    (h : Opcode.ofByte b = .string op size) : ¬IsPrefix b := by
  intro hb
  have hb := (isPrefix_iff b).1 hb
  simp only [List.mem_cons, List.not_mem_nil, or_false] at hb
  rcases hb with rfl | rfl | rfl | rfl | rfl | rfl | rfl | rfl <;> cases h

/-- There is no room for more prefixes than a segment has bytes, since behind the last of them the
first would be found again. -/
theorem length_lt_of_holds {m : Memory} {base offset : UInt16} {prefixes : List UInt8} {b : UInt8}
    (h : m.Holds base offset (prefixes ++ [b])) (hp : ∀ p ∈ prefixes, IsPrefix p)
    (hb : ¬IsPrefix b) : prefixes.length < segmentSize := by
  refine Classical.byContradiction fun hge => hb ?_
  obtain ⟨k, hk⟩ : ∃ k, prefixes.length = k + segmentSize :=
    ⟨prefixes.length - segmentSize, by omega⟩
  have hpos : k < prefixes.length := by
    rw [hk]
    exact Nat.lt_add_of_pos_right (by decide)
  have hlen : (prefixes ++ [b]).length = prefixes.length + 1 := by
    rw [List.length_append, List.length_singleton]
  have hlast := h prefixes.length (by omega)
  have hfirst := h k (by omega)
  -- as offsets the two places are the same
  have hwrap : UInt16.ofNat prefixes.length = UInt16.ofNat k := by
    rw [hk, UInt16.ofNat_add]
    exact UInt16.add_zero _
  rw [hwrap, hfirst] at hlast
  have hb : (prefixes ++ [b]).get ⟨prefixes.length, by omega⟩ = b :=
    List.getElem_concat_length rfl _
  have hk : (prefixes ++ [b]).get ⟨k, by omega⟩ = prefixes.get ⟨k, hpos⟩ :=
    List.getElem_append_left hpos
  rw [hb, hk] at hlast
  rw [← hlast]
  exact hp _ (List.get_mem prefixes ⟨k, hpos⟩)

def collected (prefixes : List UInt8) (p : Prefixes) : Prefixes :=
  prefixes.foldl Prefixes.push p

theorem collected_latestFirst (prefixes : List UInt8) (p : Prefixes) :
    (collected prefixes p).latestFirst = prefixes.reverse ++ p.latestFirst := by
  induction prefixes generalizing p with
  | nil => rfl
  | cons b prefixes ih =>
    rw [collected, List.foldl_cons, ← collected, ih, List.reverse_cons, List.append_assoc]
    rfl

theorem collected_isRepeating (prefixes : List UInt8) {p : Prefixes} (h : p.isRepeating = false) :
    (collected prefixes p).isRepeating = false := by
  induction prefixes generalizing p with
  | nil => exact h
  | cons b prefixes ih =>
    apply ih
    rw [Prefixes.push, h]
    rfl

section Supplied

variable {β : Type} [Bus β] {prefixes : List UInt8} {b : UInt8}

/-- Fetching, by induction on the prefixes. -/
theorem runInstruction_supplied {s t : System β} (h : Supplies s (prefixes ++ [b]) t)
    (hp : ∀ p ∈ prefixes, IsPrefix p) (hb : ¬IsPrefix b) (rep : Option UInt8) {n : Nat}
    (hn : prefixes.length < n) :
    runInstruction rep n s =
      runPrefixed ((prefixes.reverse.find? PrefixByte.isRepeat).or rep) b
        { t with cpu.prefixes := collected prefixes s.cpu.prefixes } := by
  obtain ⟨n, rfl⟩ : ∃ k, n = k + 1 := ⟨n - 1, by omega⟩
  induction prefixes generalizing s t rep n with
  | nil =>
    have hf := supplies_singleton.1 h
    have hkept : s.cpu.prefixes = t.cpu.prefixes := by
      rw [fetchByte_cpu hf]
    obtain ⟨hsimple, hrepeat⟩ := not_or.1 hb
    rw [runInstruction, bind_ok _ hf, if_neg hsimple, if_neg hrepeat, hkept]
    rfl
  | cons p prefixes ih =>
    obtain ⟨n, rfl⟩ : ∃ k, n = k + 1 := ⟨n - 1, by simp at hn; omega⟩
    have hn' : prefixes.length < n + 1 := Nat.lt_of_succ_lt_succ hn
    obtain ⟨u, hf, h⟩ := h
    have hu : u.cpu.prefixes = s.cpu.prefixes := by
      rw [fetchByte_cpu hf]
    have hp' : ∀ p ∈ prefixes, IsPrefix p := fun q hq => hp q (List.mem_cons_of_mem p hq)
    -- the last repeat prefix counts, so `p` takes the place of `rep` if it is one
    have hfind : ((p :: prefixes).reverse.find? PrefixByte.isRepeat).or rep =
        (prefixes.reverse.find? PrefixByte.isRepeat).or
          (if PrefixByte.isRepeat p then some p else rep) := by
      rw [List.reverse_cons, List.find?_append, Option.or_assoc, List.find?_singleton]
      cases PrefixByte.isRepeat p <;> rfl
    have hpushed := h.withPrefixes (u.cpu.prefixes.push p)
    have hnext := fun rep => ih hpushed hp' rep n hn'
    rw [hu] at hnext
    rw [hfind, runInstruction, bind_ok _ hf]
    rcases hp p List.mem_cons_self with hsimple | hrepeat
    · rw [if_pos hsimple, run_modifyCpu, not_isRepeat_of_isSimple hsimple, hu]
      exact hnext rep
    · have hsimple : ¬PrefixByte.isSimple p = true := by
        intro h
        rw [not_isRepeat_of_isSimple h] at hrepeat
        cases hrepeat
      rw [if_neg hsimple, if_pos hrepeat, if_pos hrepeat, run_modifyCpu, hu]
      exact hnext (some p)

end Supplied

section Run

variable {δ : Type}

def pushed (p : UInt8) (s : System (Board δ)) : System (Board δ) :=
  { s with
    cpu.registers.ip := s.cpu.registers.ip + 1
    cpu.prefixes := s.cpu.prefixes.push p }

def fetched (prefixes : List UInt8) (s : System (Board δ)) : System (Board δ) :=
  { s with
    cpu.registers.ip := s.cpu.registers.ip + UInt16.ofNat (prefixes.length + 1)
    cpu.prefixes := collected prefixes s.cpu.prefixes }

variable [Peripheral δ] {s : System (Board δ)} {prefixes : List UInt8} {b : UInt8}

theorem runInstruction_prefixed (hs : Roomy s)
    (hc : s.bus.memory.Holds s.cpu.registers.cs s.cpu.registers.ip (prefixes ++ [b]))
    (hp : ∀ p ∈ prefixes, IsPrefix p) (hb : ¬IsPrefix b) (rep : Option UInt8) {n : Nat}
    (hn : prefixes.length < n) :
    runInstruction rep n s =
      runPrefixed ((prefixes.reverse.find? PrefixByte.isRepeat).or rep) b (fetched prefixes s) := by
  rw [runInstruction_supplied (supplies_board (hc.spells hs)) hp hb rep hn, List.length_append]
  rfl

end Run

end Cpu

end Pc8086

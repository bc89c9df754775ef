import Pc8086.Memory.Flat

namespace Pc8086

theorem linear_lt (base offset : UInt16) : (linear base offset).toNat < 0x100000 := by
  rw [linear, addressMask, UInt32.toNat_and]
  exact Nat.lt_of_le_of_lt Nat.and_le_right (by decide)

theorem add_ofNat_zero (offset : UInt16) : offset + UInt16.ofNat 0 = offset :=
  UInt16.add_zero offset

theorem add_ofNat_succ (offset : UInt16) (k : Nat) :
    offset + UInt16.ofNat (k + 1) = offset + 1 + UInt16.ofNat k := by
  rw [UInt16.ofNat_add, UInt16.add_comm (UInt16.ofNat k), ← UInt16.add_assoc]
  rfl

namespace Memory

variable {m : Memory} {a : UInt32}

def peek (m : Memory) (a : UInt32) : UInt8 :=
  (m.byte? a).getD 0

def poke (m : Memory) (a : UInt32) (v : UInt8) : Memory :=
  (m.writeByte a v).2

theorem peek_eq (m : Memory) (a : UInt32) : m.peek a = (m.bytes.data[a.toNat]?).getD 0 := by
  unfold peek byte?
  by_cases h : a.toNat < m.bytes.size
  · rw [dif_pos h, Array.getElem?_eq_getElem h]
    rfl
  · rw [dif_neg h, Array.getElem?_eq_none (Nat.le_of_not_lt h)]

theorem readByte_eq (h : a.toNat < m.size) : m.readByte a = .ok (m.peek a) := by
  have hb : m.byte? a = some (m.bytes.get a.toNat h) := dif_pos h
  rw [readByte, peek, hb]
  rfl

theorem writeByte_eq (h : a.toNat < m.size) (v : UInt8) :
    m.writeByte a v = (.ok (), m.poke a v) := by
  have hw : m.writeByte a v = (.ok (), ⟨m.bytes.set a.toNat v h⟩) := dif_pos h
  rw [poke, hw]

theorem readByte_eq_error (h : ¬a.toNat < m.size) :
    m.readByte a = .error (.addressOutOfRange a) := by
  have hb : m.byte? a = none := dif_neg h
  rw [readByte, hb]

theorem writeByte_eq_error (h : ¬a.toNat < m.size) (v : UInt8) :
    m.writeByte a v = (.error (.addressOutOfRange a), m) :=
  dif_neg h

@[simp] theorem size_poke (m : Memory) (a : UInt32) (v : UInt8) : (m.poke a v).size = m.size := by
  unfold poke writeByte
  by_cases h : a.toNat < m.bytes.size
  · rw [dif_pos h]
    exact Array.size_set _
  · rw [dif_neg h]

theorem poke_eq (h : a.toNat < m.size) (v : UInt8) :
    m.poke a v = ⟨⟨m.bytes.data.set a.toNat v h⟩⟩ :=
  congrArg Prod.snd (dif_pos h)

theorem peek_poke (h : a.toNat < m.size) (v : UInt8) (b : UInt32) :
    (m.poke a v).peek b = if b = a then v else m.peek b := by
  rw [peek_eq, peek_eq, poke_eq h, Array.getElem?_set h]
  by_cases hb : b = a
  · rw [hb, if_pos rfl, if_pos rfl]
    rfl
  · have hne : a.toNat ≠ b.toNat := fun he => hb (UInt32.toNat_inj.1 he).symm
    rw [if_neg hne, if_neg hb]

theorem peek_of_beyond (h : ¬a.toNat < m.size) : m.peek a = 0 := by
  rw [peek_eq, Array.getElem?_eq_none (Nat.le_of_not_lt h)]
  rfl

theorem poke_of_beyond (h : ¬a.toNat < m.size) (v : UInt8) : m.poke a v = m := by
  rw [poke, writeByte_eq_error h]

theorem peek_poke_of_ne (m : Memory) {a b : UInt32} (h : b ≠ a) (v : UInt8) :
    (m.poke a v).peek b = m.peek b := by
  by_cases ha : a.toNat < m.size
  · rw [peek_poke ha, if_neg h]
  · rw [poke_of_beyond ha]

theorem size_zeroed (n : Nat) : (zeroed n).size = n :=
  Array.size_replicate

theorem peek_zeroed (n : Nat) (a : UInt32) : (zeroed n).peek a = 0 := by
  have hz : (zeroed n).bytes.data[a.toNat]? = if a.toNat < n then some 0 else none :=
    Array.getElem?_replicate
  rw [peek_eq, hz]
  split
  · rfl
  · rfl

/-- `n` bytes from an offset on, the lowest first. -/
def load (m : Memory) (base offset : UInt16) : Nat → UInt32
  | 0 => 0
  | n + 1 => m.load base (offset + 1) n <<< 8 ||| (m.peek (linear base offset)).toUInt32

def store (m : Memory) (base offset : UInt16) (v : UInt32) : Nat → Memory
  | 0 => m
  | n + 1 => (m.poke (linear base offset) v.toUInt8).store base (offset + 1) (v >>> 8) n

@[simp] theorem size_store (m : Memory) (base offset : UInt16) (v : UInt32) (n : Nat) :
    (m.store base offset v n).size = m.size := by
  induction n generalizing m offset v with
  | zero => rfl
  | succ n ih => rw [store, ih, size_poke]

theorem peek_store_of_ne (m : Memory) {base offset : UInt16} (v : UInt32) {n : Nat}
    (h : ∀ i < n, linear base (offset + UInt16.ofNat i) ≠ a) :
    (m.store base offset v n).peek a = m.peek a := by
  induction n generalizing m offset v with
  | zero => rfl
  | succ n ih =>
    have h0 : a ≠ linear base offset := by
      rintro rfl
      exact h 0 (Nat.succ_pos n) (congrArg (linear base) (add_ofNat_zero offset))
    have hrest : ∀ i < n, linear base (offset + 1 + UInt16.ofNat i) ≠ a := by
      intro i hi
      rw [← add_ofNat_succ]
      exact h (i + 1) (Nat.succ_lt_succ hi)
    rw [store, ih _ _ hrest, peek_poke_of_ne m h0]

variable {base offset : UInt16} {n : Nat}

def Spans (m : Memory) (base offset : UInt16) (n : Nat) : Prop :=
  ∀ k < n, (linear base (offset + UInt16.ofNat k)).toNat < m.size

instance decidableSpans (m : Memory) (base offset : UInt16) (n : Nat) :
    Decidable (m.Spans base offset n) :=
  inferInstanceAs (Decidable (∀ k < n, (linear base (offset + UInt16.ofNat k)).toNat < m.size))

theorem spans_succ : m.Spans base offset (n + 1) ↔
    (linear base offset).toNat < m.size ∧ m.Spans base (offset + 1) n := by
  constructor
  · intro h
    refine ⟨?_, fun k hk => ?_⟩
    · rw [← add_ofNat_zero offset]
      exact h 0 (Nat.succ_pos n)
    · rw [← add_ofNat_succ]
      exact h (k + 1) (Nat.succ_lt_succ hk)
  · rintro ⟨h0, h⟩ k hk
    cases k with
    | zero =>
      rw [add_ofNat_zero]
      exact h0
    | succ k =>
      rw [add_ofNat_succ]
      exact h k (Nat.lt_of_succ_lt_succ hk)

theorem Spans.congr {m' : Memory} (h : m.Spans base offset n) (hm : m'.size = m.size) :
    m'.Spans base offset n :=
  fun k hk => hm ▸ h k hk

theorem spans_of_size (hm : 0x100000 ≤ m.size) (base offset : UInt16) (n : Nat) :
    m.Spans base offset n :=
  fun _ _ => Nat.lt_of_lt_of_le (linear_lt base _) hm

end Memory

end Pc8086

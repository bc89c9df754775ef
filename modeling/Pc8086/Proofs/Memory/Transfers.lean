import Mathlib.Tactic.IntervalCases
import Pc8086.Proofs.Cpu.Stack

/-!
Memory as an array. An operation on `n` bytes from an address on should succeed just if they are all
there, yield the bytes that were last stored, change no others, and nothing at all when it fails.
Every operation does, but for two kinds of words and for blocks of impossible length: a word stored
at the last byte leaves its low half behind when it fails, the second byte of a word at the last
address of all has no address, and neither has the end of a block that does not fit 64 bits.
-/

namespace Pc8086

namespace Memory

inductive Operation where
  | readByte (a : UInt32)
  | writeByte (a : UInt32) (v : UInt8)
  | readWord (a : UInt32)
  | writeWord (a : UInt32) (v : UInt16)
  | read (a : UInt32) (n : Nat)
  | write (a : UInt32) (data : ByteArray)

def littleEndian (v : UInt16) : List UInt8 :=
  [UInt8.ofNat v.toNat, UInt8.ofNat (v.toNat / 256)]

namespace Operation

def address : Operation → Nat
  | readByte a | writeByte a _ | readWord a | writeWord a _ | read a _ | write a _ => a.toNat

def length : Operation → Nat
  | readByte _ | writeByte _ _ => 1
  | readWord _ | writeWord _ _ => 2
  | read _ n => n
  | write _ data => data.size

def taken : Operation → Nat
  | readByte _ => 1
  | readWord _ => 2
  | read _ n => n
  | _ => 0

def stored : Operation → List UInt8
  | writeByte _ v => [v]
  | writeWord _ v => littleEndian v
  | write _ data => data.data.toList
  | _ => []

def Fits (op : Operation) (size : Nat) : Prop :=
  op.address + op.length ≤ size

instance (op : Operation) (size : Nat) : Decidable (op.Fits size) :=
  inferInstanceAs (Decidable (_ ≤ _))

/-- What the operation should store at `x`. -/
def storedAt? (op : Operation) (size x : Nat) : Option UInt8 :=
  if op.Fits size ∧ op.address ≤ x then op.stored[x - op.address]? else none

/-- An address past the first as the operation computes it, and the number it stands for. The
second byte of a word is found with 32 bits, and a store first sees whether there is a place for the
first; the end of a block is found with 64 bits. -/
def computed? (op : Operation) (size : Nat) : Option (Nat × Nat) :=
  match op with
  | readWord a => some ((a + 1).toNat, a.toNat + 1)
  | writeWord a _ => if a.toNat < size then some ((a + 1).toNat, a.toNat + 1) else none
  | read a n => some ((a.toUInt64 + n.toUInt64).toNat, a.toNat + n)
  | write a data => some ((a.toUInt64 + data.size.toUInt64).toNat, a.toNat + data.size)
  | _ => none

/-- The operation reaches past the end of a memory of this size, or past the last address, and does
not see it in time. -/
def Straddles (op : Operation) (size : Nat) : Prop :=
  match op with
  | readWord a => a = 0xFFFFFFFF
  | writeWord a _ => a.toNat + 1 = size ∨ a = 0xFFFFFFFF ∧ a.toNat < size
  | read a n => 2 ^ 64 ≤ a.toNat + n
  | write a data => 2 ^ 64 ≤ a.toNat + data.size
  | _ => False

end Operation

/-- What an operation yields, as bytes, and the memory it leaves. -/
def perform (m : Memory) : Operation → Except Fault (List UInt8) × Memory
  | .readByte a => ((m.readByte a).map fun v => [v], m)
  | .writeByte a v => ((m.writeByte a v).1.map fun _ => [], (m.writeByte a v).2)
  | .readWord a => ((m.readWord a).map littleEndian, m)
  | .writeWord a v => ((m.writeWord a v).1.map fun _ => [], (m.writeWord a v).2)
  | .read a n => ((m.read a n).map fun data => data.data.toList, m)
  | .write a data => ((m.write a data).1.map fun _ => [], (m.write a data).2)

def after (m : Memory) (ops : List Operation) : Memory :=
  ops.foldl (fun m op => (m.perform op).2) m

def lastStored? (size x : Nat) : List Operation → Option UInt8
  | [] => none
  | op :: ops => (lastStored? size x ops).or (op.storedAt? size x)

def cell? (m : Memory) (x : Nat) : Option UInt8 :=
  m.bytes.data[x]?

/-- The operation treats the memory as one array. -/
structure AsArray (m : Memory) (op : Operation) : Prop where
  succeeds : (∃ bs, (m.perform op).1 = .ok bs) ↔ op.Fits m.size
  fails : ∀ f, (m.perform op).1 = .error f → ∃ a, f = .addressOutOfRange a
  yields : ∀ bs, (m.perform op).1 = .ok bs →
    ∀ i, bs[i]? = if i < op.taken then m.cell? (op.address + i) else none
  stores : ∀ x, (m.perform op).2.cell? x = (op.storedAt? m.size x).or (m.cell? x)
  addresses : ∀ p ∈ op.computed? m.size, p.1 = p.2

variable {m : Memory} {op : Operation} {a : UInt32}

section Cells

theorem cell?_eq_peek (h : a.toNat < m.size) : m.cell? a.toNat = some (m.peek a) := by
  have hdata : a.toNat < m.bytes.data.size := h
  have hcell : m.cell? a.toNat = some m.bytes.data[a.toNat] := Array.getElem?_eq_getElem h
  rw [peek_eq, ← cell?, hcell]
  rfl

theorem cell?_poke (h : a.toNat < m.size) (v : UInt8) (x : Nat) :
    (m.poke a v).cell? x = if x = a.toNat then some v else m.cell? x := by
  rw [poke_eq h, cell?, Array.getElem?_set h, cell?]
  by_cases hx : x = a.toNat
  · rw [if_pos hx, if_pos hx.symm]
  · rw [if_neg hx, if_neg (Ne.symm hx)]

theorem toNat_succ (h : a ≠ 0xFFFFFFFF) : (a + 1).toNat = a.toNat + 1 := by
  have hne : a.toNat ≠ 0xFFFFFFFF := fun he => h (UInt32.toNat_inj.1 he)
  have hlt := a.toNat_lt
  rw [UInt32.toNat_add]
  show (a.toNat + 1) % 2 ^ 32 = _
  omega

theorem littleEndian_joined (low high : UInt8) : littleEndian (joined low high) = [low, high] := by
  have hl := low.toNat_lt
  have hh := high.toNat_lt
  have hlow : UInt8.ofNat (high.toNat * 256 + low.toNat) = low := by
    rw [← UInt8.toNat_inj, UInt8.toNat_ofNat']
    omega
  have hhigh : UInt8.ofNat ((high.toNat * 256 + low.toNat) / 256) = high := by
    rw [← UInt8.toNat_inj, UInt8.toNat_ofNat']
    omega
  rw [littleEndian, joined_toNat, hlow, hhigh]

theorem littleEndian_halves (v : UInt16) : littleEndian v = [v.toUInt8, (v >>> 8).toUInt8] := by
  rw [← littleEndian_joined, joined_halves]

end Cells

section Outcomes

theorem asArray_of_taken (bs : List UInt8) (hfits : op.Fits m.size) (hstored : op.stored = [])
    (hperform : m.perform op = (.ok bs, m))
    (hyields : ∀ i, bs[i]? = if i < op.taken then m.cell? (op.address + i) else none)
    (haddresses : ∀ p ∈ op.computed? m.size, p.1 = p.2) : m.AsArray op where
  succeeds := by simp [hperform, hfits]
  fails := by simp [hperform]
  yields := by simpa [hperform] using hyields
  stores := by simp [hperform, Operation.storedAt?, hstored]
  addresses := haddresses

theorem asArray_of_stored (m' : Memory) (hfits : op.Fits m.size) (htaken : op.taken = 0)
    (hperform : m.perform op = (.ok [], m'))
    (hbelow : ∀ x < op.address, m'.cell? x = m.cell? x)
    (hfrom : ∀ k, m'.cell? (op.address + k) = op.stored[k]?.or (m.cell? (op.address + k)))
    (haddresses : ∀ p ∈ op.computed? m.size, p.1 = p.2) : m.AsArray op where
  succeeds := by simp [hperform, hfits]
  fails := by simp [hperform]
  yields := by simp [hperform, htaken]
  stores := by
    intro x
    rw [hperform]
    rcases Nat.lt_or_ge x op.address with hx | hx
    · simp [Operation.storedAt?, hbelow x hx, Nat.not_le.2 hx]
    · obtain ⟨k, rfl⟩ := Nat.exists_eq_add_of_le hx
      simp [Operation.storedAt?, hfits, hfrom k]
  addresses := haddresses

theorem asArray_of_not_fits (hfits : ¬op.Fits m.size)
    (hperform : m.perform op = (.error (.addressOutOfRange a), m))
    (haddresses : ∀ p ∈ op.computed? m.size, p.1 = p.2) : m.AsArray op where
  succeeds := by simp [hperform, hfits]
  fails := by simp [hperform]
  yields := by simp [hperform]
  stores := by simp [hperform, Operation.storedAt?, hfits]
  addresses := haddresses

end Outcomes

section Operations

theorem asArray_readByte (m : Memory) (a : UInt32) : m.AsArray (.readByte a) := by
  by_cases hfits : (Operation.readByte a).Fits m.size
  · have h : a.toNat < m.size := hfits
    apply asArray_of_taken [m.peek a] hfits rfl
    · simp [perform, readByte_eq h, Except.map]
    · intro i
      cases i with
      | zero => simp [Operation.taken, Operation.address, cell?_eq_peek h]
      | succ i => simp [Operation.taken]
    · simp [Operation.computed?]
  · have h : ¬a.toNat < m.size := hfits
    apply asArray_of_not_fits (a := a) hfits
    · simp [perform, readByte_eq_error h, Except.map]
    · simp [Operation.computed?]

theorem asArray_writeByte (m : Memory) (a : UInt32) (v : UInt8) : m.AsArray (.writeByte a v) := by
  by_cases hfits : (Operation.writeByte a v).Fits m.size
  · have h : a.toNat < m.size := hfits
    apply asArray_of_stored (m.poke a v) hfits rfl
    · simp [perform, writeByte_eq h, Except.map]
    · intro x hx
      have hx : x < a.toNat := hx
      rw [cell?_poke h, if_neg (Nat.ne_of_lt hx)]
    · intro k
      rw [cell?_poke h]
      cases k with
      | zero => simp [Operation.address, Operation.stored]
      | succ k => simp [Operation.address, Operation.stored]
    · simp [Operation.computed?]
  · have h : ¬a.toNat < m.size := hfits
    apply asArray_of_not_fits (a := a) hfits
    · simp [perform, writeByte_eq_error h, Except.map]
    · simp [Operation.computed?]

theorem asArray_readWord (m : Memory) (h : a ≠ 0xFFFFFFFF) : m.AsArray (.readWord a) := by
  have hnext := toNat_succ h
  have haddresses : ∀ p ∈ (Operation.readWord a).computed? m.size, p.1 = p.2 := by
    simpa [Operation.computed?] using hnext
  by_cases hfits : (Operation.readWord a).Fits m.size
  · have h2 : a.toNat + 2 ≤ m.size := hfits
    have hlow : a.toNat < m.size := by omega
    have hhigh : (a + 1).toNat < m.size := by omega
    apply asArray_of_taken [m.peek a, m.peek (a + 1)] hfits rfl ?_ ?_ haddresses
    · rw [perform, readWord, readByte_eq hhigh, readByte_eq hlow, ← littleEndian_joined]
      rfl
    · intro i
      have h1 := cell?_eq_peek hhigh
      rw [hnext] at h1
      match i with
      | 0 => simp [Operation.taken, Operation.address, cell?_eq_peek hlow]
      | 1 => simp [Operation.taken, Operation.address, h1]
      | i + 2 => simp [Operation.taken]
  · have h2 : ¬a.toNat + 2 ≤ m.size := hfits
    -- The high byte is read first, so it is its address that is out of range.
    have hhigh : ¬(a + 1).toNat < m.size := by omega
    apply asArray_of_not_fits (a := a + 1) hfits ?_ haddresses
    rw [perform, readWord, readByte_eq_error hhigh]
    rfl

theorem writeWord_eq (h : a.toNat < m.size) (v : UInt16) :
    m.writeWord a v = (m.poke a v.toUInt8).writeByte (a + 1) (v >>> 8).toUInt8 := by
  rw [writeWord, writeByte_eq h]

theorem asArray_writeWord {v : UInt16} (h : ¬(Operation.writeWord a v).Straddles m.size) :
    m.AsArray (.writeWord a v) := by
  by_cases hlow : a.toNat < m.size
  · have hne : a ≠ 0xFFFFFFFF := fun ha => h (.inr ⟨ha, hlow⟩)
    have hend : a.toNat + 1 ≠ m.size := fun ha => h (.inl ha)
    have hnext := toNat_succ hne
    have hhigh : (a + 1).toNat < (m.poke a v.toUInt8).size := by
      rw [size_poke]
      omega
    have hfits : (Operation.writeWord a v).Fits m.size := by
      show a.toNat + 2 ≤ m.size
      omega
    apply asArray_of_stored ((m.poke a v.toUInt8).poke (a + 1) (v >>> 8).toUInt8) hfits rfl
    · rw [perform, writeWord_eq hlow, writeByte_eq hhigh]
      rfl
    · intro x hx
      have hx : x < a.toNat := hx
      rw [cell?_poke hhigh, cell?_poke hlow, hnext, if_neg (by omega), if_neg (by omega)]
    · intro k
      rw [cell?_poke hhigh, cell?_poke hlow, hnext]
      match k with
      | 0 => simp [Operation.address, Operation.stored, littleEndian_halves]
      | 1 => simp [Operation.address, Operation.stored, littleEndian_halves]
      | k + 2 => simp [Operation.address, Operation.stored, littleEndian_halves]
    · simpa [Operation.computed?, hlow] using hnext
  · have hfits : ¬(Operation.writeWord a v).Fits m.size := by
      show ¬a.toNat + 2 ≤ m.size
      omega
    apply asArray_of_not_fits (a := a) hfits
    · rw [perform, writeWord, writeByte_eq_error hlow]
      rfl
    · simp [Operation.computed?, hlow]

theorem blockEnd_toNat (a : UInt32) (n : Nat) :
    (a.toUInt64 + n.toUInt64).toNat = (a.toNat + n) % 2 ^ 64 := by
  simp

theorem asArray_read {n : Nat} (hend : ¬(Operation.read a n).Straddles m.size) :
    m.AsArray (.read a n) := by
  have haddresses : ∀ p ∈ (Operation.read a n).computed? m.size, p.1 = p.2 := by
    rintro p ⟨⟩
    exact (blockEnd_toNat a n).trans (Nat.mod_eq_of_lt (Nat.lt_of_not_le hend))
  by_cases hfits : (Operation.read a n).Fits m.size
  · have h : a.toNat + n ≤ m.bytes.size := hfits
    apply asArray_of_taken (m.bytes.extract a.toNat (a.toNat + n)).data.toList hfits rfl
    · simp [perform, read, h, Except.map]
    · intro i
      have hn : min (a.toNat + n) m.bytes.data.size - a.toNat = n := by
        have hsize : m.bytes.data.size = m.bytes.size := rfl
        omega
      rw [Array.getElem?_toList, ByteArray.data_extract, Array.getElem?_extract, hn]
      rfl
    · exact haddresses
  · have h : ¬a.toNat + n ≤ m.bytes.size := hfits
    apply asArray_of_not_fits (a := (a.toNat + n).toUInt32) hfits
    · simp [perform, read, h, Except.map]
    · exact haddresses

theorem copySlice_data (data : ByteArray) (m : Memory) (a : Nat) :
    (data.copySlice 0 m.bytes a data.size).data =
      m.bytes.data.extract 0 a ++
        (data.data ++ m.bytes.data.extract (a + data.size) m.bytes.size) := by
  have hall : data.data.extract 0 data.size = data.data := Array.extract_size
  simp [ByteArray.copySlice, hall]

theorem asArray_write {data : ByteArray} (hend : ¬(Operation.write a data).Straddles m.size) :
    m.AsArray (.write a data) := by
  have haddresses : ∀ p ∈ (Operation.write a data).computed? m.size, p.1 = p.2 := by
    rintro p ⟨⟩
    exact (blockEnd_toNat a data.size).trans (Nat.mod_eq_of_lt (Nat.lt_of_not_le hend))
  by_cases hfits : (Operation.write a data).Fits m.size
  · have h : a.toNat + data.size ≤ m.bytes.size := hfits
    have hlen : (m.bytes.data.extract 0 a.toNat).size = a.toNat := by
      have hsize : m.bytes.data.size = m.bytes.size := rfl
      rw [Array.size_extract]
      omega
    have hdata : data.data.size = data.size := rfl
    apply asArray_of_stored ⟨data.copySlice 0 m.bytes a.toNat data.size⟩ hfits rfl
    · simp [perform, write, h, Except.map]
    · intro x hx
      have hx : x < a.toNat := hx
      have hsize : m.bytes.data.size = m.bytes.size := rfl
      rw [cell?, copySlice_data, Array.getElem?_append_left (by omega), Array.getElem?_extract,
        if_pos (by omega), Nat.zero_add, cell?]
    · intro k
      -- a cell from the start of the block on lies in the block or behind it
      show (Memory.mk _).cell? (a.toNat + k) = data.data.toList[k]?.or (m.cell? (a.toNat + k))
      rw [cell?, copySlice_data, Array.getElem?_append_right (by omega), hlen,
        Nat.add_sub_cancel_left, Array.getElem?_append, Array.getElem?_toList]
      split_ifs with hk
      · rw [Array.getElem?_eq_getElem hk, Option.some_or]
      · have hk : data.size ≤ k := Nat.le_of_not_lt hk
        have hindex : a.toNat + data.size + (k - data.size) = a.toNat + k := by omega
        rw [Array.getElem?_eq_none hk, Option.none_or, Array.getElem?_extract, hdata, hindex, cell?]
        split_ifs with hend
        · rfl
        · symm
          apply Array.getElem?_eq_none
          have hsize : m.bytes.data.size = m.bytes.size := rfl
          omega
    · exact haddresses
  · have h : ¬a.toNat + data.size ≤ m.bytes.size := hfits
    apply asArray_of_not_fits (a := (a.toNat + data.size).toUInt32) hfits
    · simp [perform, write, h, Except.map]
    · exact haddresses

end Operations

section Runs

theorem size_perform (m : Memory) (op : Operation) : (m.perform op).2.size = m.size := by
  cases op with
  | readByte a => rfl
  | writeByte a v => exact size_poke m a v
  | readWord a => rfl
  | writeWord a v =>
    show (m.writeWord a v).2.size = m.size
    by_cases h : a.toNat < m.size
    · rw [writeWord_eq h]
      exact (size_poke _ _ _).trans (size_poke _ _ _)
    · rw [writeWord, writeByte_eq_error h]
  | read a n => rfl
  | write a data =>
    show (m.write a data).2.size = m.size
    unfold write
    split_ifs with h
    · show (data.copySlice 0 m.bytes a.toNat data.size).data.size = m.bytes.data.size
      have hdata : data.data.size = data.size := rfl
      have hsize : m.bytes.data.size = m.bytes.size := rfl
      simp only [copySlice_data, Array.size_append, Array.size_extract]
      omega
    · rfl

theorem asArray_of_not_straddles (h : ¬op.Straddles m.size) : m.AsArray op := by
  cases op with
  | readByte a => exact asArray_readByte m a
  | writeByte a v => exact asArray_writeByte m a v
  | readWord a => exact asArray_readWord m h
  | writeWord a v => exact asArray_writeWord h
  | read a n => exact asArray_read h
  | write a data => exact asArray_write h

theorem size_after (m : Memory) (ops : List Operation) : (m.after ops).size = m.size := by
  induction ops generalizing m with
  | nil => rfl
  | cons op ops ih => exact (ih _).trans (size_perform m op)

/-- A byte is the one stored last, or the one that was there at first. -/
theorem cell?_after {ops : List Operation} (h : ∀ op ∈ ops, ¬op.Straddles m.size) (x : Nat) :
    (m.after ops).cell? x = (lastStored? m.size x ops).or (m.cell? x) := by
  induction ops generalizing m with
  | nil => rfl
  | cons op ops ih =>
    have hop := h op List.mem_cons_self
    have hops : ∀ o ∈ ops, ¬o.Straddles (m.perform op).2.size := by
      intro o ho
      rw [size_perform]
      exact h o (List.mem_cons_of_mem _ ho)
    show ((m.perform op).2.after ops).cell? x = _
    rw [ih hops, size_perform, (asArray_of_not_straddles hop).stores, lastStored?, Option.or_assoc]

end Runs

section Straddling

def filled (size : Nat) (v : UInt8) : Memory :=
  ⟨⟨Array.replicate size v⟩⟩

theorem size_filled (size : Nat) (v : UInt8) : (filled size v).size = size :=
  Array.size_replicate

theorem cell?_filled {size x : Nat} (h : x < size) (v : UInt8) :
    (filled size v).cell? x = some v := by
  simp [cell?, filled, h]

/-- Of a word at the last byte the low half is stored, although the store fails. -/
theorem perform_writeWord_at_end (h : a.toNat + 1 = m.size) (ha : a ≠ 0xFFFFFFFF) (v : UInt16) :
    m.perform (.writeWord a v) = (.error (.addressOutOfRange (a + 1)), m.poke a v.toUInt8) := by
  have hlow : a.toNat < m.size := by omega
  have hhigh : ¬(a + 1).toNat < (m.poke a v.toUInt8).size := by
    rw [size_poke, toNat_succ ha]
    omega
  rw [perform, writeWord_eq hlow, writeByte_eq_error hhigh]
  rfl

/-- An operation that straddles an end shows that it does, in some memory of the size. -/
theorem exists_not_asArray {size : Nat} (h : op.Straddles size) :
    ∃ m : Memory, m.size = size ∧ ¬m.AsArray op := by
  cases op with
  | readWord a =>
    obtain rfl : a = 0xFFFFFFFF := h
    refine ⟨filled size 0, size_filled _ _, fun hm => ?_⟩
    have hzero : (0xFFFFFFFF + 1 : UInt32).toNat = (0xFFFFFFFF : UInt32).toNat + 1 :=
      hm.addresses _ rfl
    exact absurd hzero (by decide)
  | writeWord a v =>
    by_cases ha : a = 0xFFFFFFFF
    · subst ha
      have hlow : (0xFFFFFFFF : UInt32).toNat < size := by
        rcases h with hend | ⟨-, hlt⟩
        · omega
        · exact hlt
      refine ⟨filled size 0, size_filled _ _, fun hm => ?_⟩
      have hzero : (0xFFFFFFFF + 1 : UInt32).toNat = (0xFFFFFFFF : UInt32).toNat + 1 := by
        refine hm.addresses (_, _) ?_
        rw [size_filled]
        exact if_pos hlow
      exact absurd hzero (by decide)
    · have hend : a.toNat + 1 = size := h.resolve_right fun h => ha h.1
      have hlow : a.toNat < size := by omega
      -- A memory without the low half in it shows that the failed store has left it there.
      refine ⟨filled size (v.toUInt8 + 1), size_filled _ _, fun hm => ?_⟩
      have hstore := hm.stores a.toNat
      have hsize : (filled size (v.toUInt8 + 1)).size = size := size_filled _ _
      have hfits : ¬(Operation.writeWord a v).Fits size := by
        show ¬a.toNat + 2 ≤ size
        omega
      rw [perform_writeWord_at_end (by rw [hsize, hend]) ha, cell?_poke (by rw [hsize]; exact hlow),
        if_pos rfl, hsize, Operation.storedAt?, if_neg (fun hs => hfits hs.1), Option.none_or,
        cell?_filled hlow, Option.some.injEq] at hstore
      have hbyte := congrArg UInt8.toNat hstore
      have hlt := v.toUInt8.toNat_lt
      rw [UInt8.toNat_add] at hbyte
      have hbyte : v.toUInt8.toNat = (v.toUInt8.toNat + 1) % 2 ^ 8 := hbyte
      omega
  | read a n =>
    have hlong : 2 ^ 64 ≤ a.toNat + n := h
    refine ⟨filled size 0, size_filled _ _, fun hm => ?_⟩
    have hshort := (blockEnd_toNat a n).symm.trans (hm.addresses _ rfl)
    omega
  | write a data =>
    have hlong : 2 ^ 64 ≤ a.toNat + data.size := h
    refine ⟨filled size 0, size_filled _ _, fun hm => ?_⟩
    have hshort := (blockEnd_toNat a data.size).symm.trans (hm.addresses _ rfl)
    omega
  | readByte a => exact h.elim
  | writeByte a v => exact h.elim

end Straddling

/-- An operation treats every memory of some size as an array just if it straddles no end. After any
run of such operations, a byte is the one stored last, and the next operation treats the memory so
that the run has left as an array; a word stored at the last byte leaves its low half there and
fails. -/
theorem array_with_atomic_writes_iff (size : Nat) (op : Operation) :
    ((∀ m : Memory, m.size = size → m.AsArray op) ↔ ¬op.Straddles size) ∧
    (∀ (m : Memory) (ops : List Operation), m.size = size → (∀ o ∈ ops, ¬o.Straddles size) →
      (m.after ops).size = size ∧
      (∀ x, (m.after ops).cell? x = (lastStored? size x ops).or (m.cell? x)) ∧
      (¬op.Straddles size → (m.after ops).AsArray op)) ∧
    ∀ (m : Memory) (a : UInt32) (v : UInt16), a.toNat + 1 = m.size → a ≠ 0xFFFFFFFF →
      m.perform (.writeWord a v) = (.error (.addressOutOfRange (a + 1)), m.poke a v.toUInt8) := by
  refine ⟨⟨?shows, ?single⟩, ?run, fun m a v h ha => perform_writeWord_at_end h ha v⟩
  case shows =>
    intro hall h
    obtain ⟨m, hm, hnot⟩ := exists_not_asArray h
    exact hnot (hall m hm)
  case single =>
    rintro h m rfl
    exact asArray_of_not_straddles h
  case run =>
    rintro m ops rfl hops
    have hsize := m.size_after ops
    refine ⟨hsize, fun x => cell?_after hops x, fun h => ?_⟩
    apply asArray_of_not_straddles
    rwa [hsize]

/-- Sixteen bytes: a word stored at the last two, its high byte stored anew, and the word read. -/
theorem word_at_end_is_read_back :
    let ops : List Operation := [.writeWord 14 0x1234, .writeByte 15 0x56]
    ((zeroed 16).after ops).AsArray (.readWord 14) ∧
    ((zeroed 16).after ops).cell? 14 = some 0x34 ∧ ((zeroed 16).after ops).cell? 15 = some 0x56 := by
  intro ops
  have hops : ∀ o ∈ ops, ¬o.Straddles 16 := by
    simp [ops, Operation.Straddles]
  obtain ⟨-, hrun, -⟩ := array_with_atomic_writes_iff 16 (.readWord 14)
  obtain ⟨-, hcells, harray⟩ := hrun (zeroed 16) ops (size_zeroed 16) hops
  refine ⟨harray (by simp [Operation.Straddles]), ?_, ?_⟩
  · rw [hcells]
    decide
  · rw [hcells]
    decide

/-- A word stored at the last of sixteen bytes fails, and its low half is there. -/
theorem half_word_is_left :
    let p := (zeroed 16).perform (.writeWord 15 0x1234)
    p.1 = .error (.addressOutOfRange 16) ∧
    (zeroed 16).cell? 15 = some 0 ∧ p.2.cell? 15 = some 0x34 ∧
    ¬(zeroed 16).AsArray (.writeWord 15 0x1234) := by
  intro p
  have hp : p = (.error (.addressOutOfRange 16), (zeroed 16).poke 15 0x34) :=
    perform_writeWord_at_end rfl (by decide) 0x1234
  have hleft : p.2.cell? 15 = some 0x34 := by
    rw [hp]
    decide
  refine ⟨by rw [hp], by decide, hleft, fun h => ?_⟩
  have hkept := h.stores 15
  rw [hleft] at hkept
  exact absurd hkept (by decide)

end Memory

end Pc8086

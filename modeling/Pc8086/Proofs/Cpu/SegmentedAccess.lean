import Pc8086.Proofs.Cpu.Operands
import Pc8086.Proofs.Cpu.Supply

namespace Pc8086

/-- The address of byte `k` behind an offset. The offset goes around the end of its segment, and the
sum around the end of the address bus. -/
def byteAddress (base offset : UInt16) (k : Nat) : UInt32 :=
  UInt32.ofNat ((base.toNat * 2 ^ 4 + (offset.toNat + k) % 2 ^ 16) % 2 ^ 20)

theorem linear_add_ofNat (base offset : UInt16) (k : Nat) :
    linear base (offset + UInt16.ofNat k) = byteAddress base offset k := by
  apply UInt32.toNat_inj.1
  rw [linear_toNat, byteAddress, UInt32.toNat_ofNat', UInt16.toNat_add, UInt16.toNat_ofNat']
  omega

def byteOf (v : UInt32) (k : Nat) : UInt8 :=
  UInt8.ofNat (v.toNat / 256 ^ k)

theorem byteOf_zero (v : UInt32) : byteOf v 0 = v.toUInt8 := by
  rw [byteOf, Nat.pow_zero, Nat.div_one]
  rfl

theorem byteOf_succ (v : UInt32) (k : Nat) : byteOf v (k + 1) = byteOf (v >>> 8) k := by
  have hshift : (v >>> 8).toNat = v.toNat / 256 := by
    rw [UInt32.toNat_shiftRight]
    exact Nat.shiftRight_eq_div_pow _ 8
  rw [byteOf, byteOf, hshift, Nat.div_div_eq_div_mul, Nat.pow_succ, Nat.mul_comm]

namespace Memory

variable {m : Memory} {base offset : UInt16} {v : UInt32} {n : Nat}

/-- What is at an address once the low `n` bytes of `v` lie over the memory from an offset on: the
byte that was laid there, else the one that there was. -/
structure Overlays (m : Memory) (base offset : UInt16) (v : UInt32) (n : Nat) (a : UInt32)
    (b : UInt8) : Prop where
  written : ∀ k < n, byteAddress base offset k = a → b = byteOf v k
  kept : (∀ k < n, byteAddress base offset k ≠ a) → b = m.peek a

/-- The bytes of a store do not collide. By induction on their number. -/
theorem peek_store_at (h : m.Spans base offset n) (hn : n ≤ 4) (v : UInt32) {k : Nat} (hk : k < n) :
    (m.store base offset v n).peek (linear base (offset + UInt16.ofNat k)) = byteOf v k := by
  induction n generalizing m offset v k with
  | zero => exact absurd hk (Nat.not_lt_zero k)
  | succ n ih =>
    obtain ⟨h0, hrest⟩ := spans_succ.1 h
    cases k with
    | zero =>
      have hapart : ∀ i < n, linear base (offset + 1 + UInt16.ofNat i) ≠ linear base offset :=
        fun i hi => linear_ne_next base offset (by omega)
      rw [add_ofNat_zero, store, peek_store_of_ne _ _ hapart, peek_poke h0, if_pos rfl, byteOf_zero]
    | succ k =>
      rw [add_ofNat_succ, store, byteOf_succ]
      exact ih (hrest.congr (size_poke ..)) (by omega) (v >>> 8) (Nat.lt_of_succ_lt_succ hk)

theorem overlays_peek_store (h : m.Spans base offset n) (hn : n ≤ 4) (v a : UInt32) :
    m.Overlays base offset v n a ((m.store base offset v n).peek a) where
  written k hk ha := by
    rw [← ha, ← linear_add_ofNat]
    exact peek_store_at h hn v hk
  kept ha := peek_store_of_ne m v fun k hk he => ha k hk (linear_add_ofNat base offset k ▸ he)

theorem load_lt (m : Memory) (base offset : UInt16) (hn : n ≤ 4) :
    (m.load base offset n).toNat < 256 ^ n := by
  induction n generalizing offset with
  | zero => exact Nat.one_pos
  | succ n ih =>
    have hrest := ih (offset + 1) (by omega)
    have hb := (m.peek (linear base offset)).toNat_lt
    have hpow : 256 ^ n ≤ 256 ^ 3 := Nat.pow_le_pow_right (by decide) (by omega)
    rw [load, byte_below_toNat _ _ (by omega), Nat.pow_succ]
    omega

/-- Every byte that is loaded lies at its address. By induction on their number. -/
theorem byteOf_load (m : Memory) (base offset : UInt16) (hn : n ≤ 4) {k : Nat} (hk : k < n) :
    byteOf (m.load base offset n) k = m.peek (linear base (offset + UInt16.ofNat k)) := by
  induction n generalizing offset k with
  | zero => exact absurd hk (Nat.not_lt_zero k)
  | succ n ih =>
    have hpow : 256 ^ n ≤ 256 ^ 3 := Nat.pow_le_pow_right (by decide) (by omega)
    have hrest := m.load_lt base (offset + 1) (n := n) (by omega)
    have hb := (m.peek (linear base offset)).toNat_lt
    have hsplit := byte_below_toNat (m.load base (offset + 1) n) (m.peek (linear base offset))
      (by omega)
    cases k with
    | zero =>
      rw [add_ofNat_zero, byteOf_zero]
      apply UInt8.toNat_inj.1
      rw [load, UInt32.toNat_toUInt8, hsplit]
      omega
    | succ k =>
      have hshift : m.load base offset (n + 1) >>> 8 = m.load base (offset + 1) n := by
        apply UInt32.toNat_inj.1
        rw [load, UInt32.toNat_shiftRight, hsplit]
        change _ >>> 8 = _
        rw [Nat.shiftRight_eq_div_pow]
        omega
      rw [byteOf_succ, hshift, ih (offset + 1) (by omega) (Nat.lt_of_succ_lt_succ hk),
        add_ofNat_succ]

end Memory

namespace Cpu

open Exec

variable {δ : Type} [Peripheral δ] {s : System (Board δ)}

/-- A write through a segment and a read through the same or another one. The write changes nothing
but memory, and of that the bytes it covers, each at its address around the ends of the segment and
of the address bus. The read finds at each of its addresses, the lowest byte first, the byte that was
written there, or else the old one. So the same place yields what was written, cut to the width. -/
theorem access_overlays (h : Roomy s) (i j : Segment) (offset offset' : UInt16) (w w' : Width)
    (v : UInt32) :
    let base := s.cpu.registers.segment i
    let base' := s.cpu.registers.segment j
    ∃ m : Memory, m.size = s.bus.memory.size ∧
      writeMemory ⟨i, offset⟩ w v s = .ok () (withMemory s m) ∧
      (∀ a, s.bus.memory.Overlays base offset v w.bytes a (m.peek a)) ∧
      (∃ u, readMemory ⟨j, offset'⟩ w' (withMemory s m) = .ok u (withMemory s m) ∧
        u.toNat < 256 ^ w'.bytes ∧
        ∀ k < w'.bytes, s.bus.memory.Overlays base offset v w.bytes (byteAddress base' offset' k)
          (byteOf u k)) ∧
      readMemory ⟨i, offset⟩ w (withMemory s m) = .ok (w.truncate v) (withMemory s m) := by
  intro base base'
  let m := s.bus.memory.store base offset v w.bytes
  have hm : Roomy (withMemory s m) := by
    change 0x100000 ≤ m.size
    rwa [Memory.size_store]
  have hspans := Memory.spans_of_size h base offset w.bytes
  have hoverlays := Memory.overlays_peek_store hspans w.bytes_le v
  refine ⟨m, Memory.size_store .., run_writeMemory h i offset w v, hoverlays, ?_, ?_⟩
  · refine ⟨m.load base' offset' w'.bytes, run_readMemory hm j offset' w',
      m.load_lt base' offset' w'.bytes_le, fun k hk => ?_⟩
    rw [m.byteOf_load base' offset' w'.bytes_le hk, linear_add_ofNat]
    exact hoverlays _
  · have hload : m.load base offset w.bytes = w.truncate v := Memory.load_store hspans v
    rw [← hload]
    exact run_readMemory hm i offset w

def bare (m : Memory) : Board ExpansionCard :=
  { loaded [] with memory := m }

/-- A doubleword goes around the end of the address bus, and another segment has its upper half. -/
theorem access_overlays_around_end :
    let s : System (Board ExpansionCard) :=
      ⟨{ registers := { ds := 0xFFFF } }, bare (.zeroed Memory.defaultSize)⟩
    Roomy s ∧ ∃ m,
      writeMemory ⟨.ds, 0x000E⟩ .dword 0x44332211 s = .ok () (withMemory s m) ∧
      readMemory ⟨.es, 0⟩ .word (withMemory s m) = .ok 0x4433 (withMemory s m) ∧
      readMemory ⟨.ds, 0x000E⟩ .dword (withMemory s m) = .ok 0x44332211 (withMemory s m) := by
  intro s
  have hs : Roomy s := Nat.le_of_eq (Memory.size_zeroed _).symm
  obtain ⟨m, -, hwrite, -, ⟨u, hread, hlt, hbytes⟩, hback⟩ :=
    access_overlays hs .ds .es 0x000E 0 .dword .word 0x44332211
  have hlow : byteOf u 0 = 0x33 := (hbytes 0 (by decide)).written 2 (by decide) (by decide)
  have hhigh : byteOf u 1 = 0x44 := (hbytes 1 (by decide)).written 3 (by decide) (by decide)
  have hu : u = 0x4433 := by
    apply UInt32.toNat_inj.1
    have hlow : u.toNat / 256 ^ 0 % 256 = 0x33 := congrArg UInt8.toNat hlow
    have hhigh : u.toNat / 256 ^ 1 % 256 = 0x44 := congrArg UInt8.toNat hhigh
    change u.toNat < 256 ^ 2 at hlt
    change u.toNat = 0x4433
    omega
  rw [hu] at hread
  exact ⟨hs, m, hwrite, hread, hback⟩

end Cpu

end Pc8086

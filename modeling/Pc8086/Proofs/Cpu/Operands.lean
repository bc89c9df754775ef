import Pc8086.Proofs.Cpu.ArithmeticFlags
import Pc8086.Proofs.Cpu.Keeping
import Pc8086.Proofs.Cpu.OnBoard
import Pc8086.Proofs.Cpu.Stack
import Pc8086.Proofs.Cpu.WordRegisters

namespace Pc8086

theorem Width.bytes_le (w : Width) : w.bytes ≤ 4 := by
  cases w <;> decide

theorem Width.eight_mul_bytes (w : Width) : 8 * w.bytes = w.bits := by
  cases w <;> rfl

namespace Memory

variable {m : Memory} {base offset : UInt16} {n : Nat}

theorem byte_below_toNat (x : UInt32) (b : UInt8) (h : x.toNat < 2 ^ 24) :
    (x <<< 8 ||| b.toUInt32).toNat = x.toNat * 256 + b.toNat := by
  have hb := b.toNat_lt
  have hx : (x <<< 8).toNat = x.toNat <<< 8 := by
    rw [UInt32.toNat_shiftLeft, Nat.mod_eq_of_lt]
    · rfl
    · change x.toNat <<< 8 < _
      rw [Nat.shiftLeft_eq]
      omega
  rw [UInt32.toNat_or, hx, UInt8.toNat_toUInt32, ← Nat.shiftLeft_add_eq_or_of_lt hb,
    Nat.shiftLeft_eq]

/-- The bytes that were stored are loaded again. By induction on their number. -/
theorem toNat_load_store (h : m.Spans base offset n) (hn : n ≤ 4) (v : UInt32) :
    ((m.store base offset v n).load base offset n).toNat = v.toNat % 2 ^ (8 * n) := by
  induction n generalizing m offset v with
  | zero => exact (Nat.mod_one _).symm
  | succ n ih =>
    obtain ⟨h0, hrest⟩ := spans_succ.1 h
    have hapart : ∀ k < n, linear base (offset + 1 + UInt16.ofNat k) ≠ linear base offset :=
      fun k hk => linear_ne_next base offset (by omega)
    have hupper := ih (hrest.congr (size_poke m (linear base offset) v.toUInt8)) (by omega) (v >>> 8)
    have hlow : ((m.poke (linear base offset) v.toUInt8).store base (offset + 1) (v >>> 8) n).peek
        (linear base offset) = v.toUInt8 := by
      rw [peek_store_of_ne _ _ hapart, peek_poke h0, if_pos rfl]
    have hshift : (v >>> 8).toNat = v.toNat / 256 := by
      rw [UInt32.toNat_shiftRight]
      exact Nat.shiftRight_eq_div_pow _ 8
    have hv := v.toNat_lt
    rw [store, load, hlow, byte_below_toNat, hupper, hshift, UInt32.toNat_toUInt8]
    · have hpow : 2 ^ (8 * (n + 1)) = 256 * 2 ^ (8 * n) := by
        rw [Nat.mul_succ, Nat.pow_add, Nat.mul_comm]
      have hsplit := Nat.mod_mul (x := v.toNat) (a := 256) (b := 2 ^ (8 * n))
      rw [hpow, hsplit]
      omega
    · rw [hupper]
      exact Nat.lt_of_lt_of_le (Nat.mod_lt _ (Nat.two_pow_pos _))
        (Nat.pow_le_pow_right (by decide) (by omega))

theorem load_store {w : Width} (h : m.Spans base offset w.bytes) (v : UInt32) :
    (m.store base offset v w.bytes).load base offset w.bytes = w.truncate v := by
  apply UInt32.toNat_inj.1
  rw [w.toNat_truncate, toNat_load_store h w.bytes_le v, w.eight_mul_bytes]
  rfl

end Memory

namespace Cpu

open Exec

namespace Registers

variable (r : Registers)

@[simp] theorem lowByte_setLowByte (i : Reg) (v : UInt8) : (r.setLowByte i v).lowByte i = v := by
  rw [lowByte, setLowByte, dword_setDword, ← UInt8.toNat_inj, UInt32.toNat_toUInt8,
    UInt32.toNat_or, UInt32.toNat_and, UInt8.toNat_toUInt32]
  have hv := v.toNat_lt
  have hmask : UInt32.toNat 0xFFFFFF00 % 2 ^ 8 = 0 := rfl
  rw [Nat.or_mod_two_pow, Nat.and_mod_two_pow, hmask, Nat.and_zero, Nat.zero_or,
    Nat.mod_eq_of_lt hv]

@[simp] theorem highByte_setHighByte (i : Reg) (v : UInt8) :
    (r.setHighByte i v).highByte i = v := by
  have hv := v.toNat_lt
  have hshift : (v.toUInt32 <<< 8).toNat >>> 8 = v.toNat := by
    rw [UInt32.toNat_shiftLeft, UInt8.toNat_toUInt32]
    change (v.toNat <<< 8 % 2 ^ 32) >>> 8 = _
    rw [Nat.shiftLeft_eq, Nat.shiftRight_eq_div_pow]
    omega
  have hmask : (UInt32.toNat 0xFFFF00FF >>> 8) % 2 ^ 8 = 0 := rfl
  rw [highByte, setHighByte, dword_setDword, ← UInt8.toNat_inj, UInt32.toNat_toUInt8,
    UInt32.toNat_shiftRight]
  change (_ >>> 8) % _ = _
  rw [UInt32.toNat_or, UInt32.toNat_and, Nat.shiftRight_or_distrib, Nat.shiftRight_and_distrib,
    hshift, Nat.or_mod_two_pow, Nat.and_mod_two_pow, hmask, Nat.and_zero, Nat.zero_or,
    Nat.mod_eq_of_lt hv]

theorem toNat_read_write (w : Width) (i : Reg) (v : UInt32) :
    ((r.write w i v).read w i).toNat = w.toNat v := by
  cases w with
  | byte =>
    have hbyte : (r.setByte i v.toUInt8).byte i = v.toUInt8 := by
      cases i <;> simp [byte, setByte, Reg.byteHost]
    rw [read, write, hbyte, UInt8.toNat_toUInt32, UInt32.toNat_toUInt8]
    rfl
  | word =>
    rw [read, write, word_setWord, UInt16.toNat_toUInt32, UInt32.toNat_toUInt16]
    rfl
  | dword =>
    rw [read, write, dword_setDword]
    exact (Nat.mod_eq_of_lt v.toNat_lt).symm

end Registers

variable {δ : Type} [Peripheral δ] {s t : System (Board δ)} {a v : UInt32} {w : Width}

theorem readPlace_register {i : Reg} (h : s.cpu.registers.read w i = a) :
    readPlace w (.register i) s = .ok a s := by
  rw [← h]
  rfl

structure SameOperands (s t : System (Board δ)) : Prop where
  read (w : Width) (i : Reg) : t.cpu.registers.read w i = s.cpu.registers.read w i
  segment (i : Segment) : t.cpu.registers.segment i = s.cpu.registers.segment i
  memory : t.bus.memory = s.bus.memory

omit [Peripheral δ] in
/-- Neither the instruction pointer nor the flags are operands. -/
theorem sameOperands_of_registers {ip : UInt16} {f : Flags}
    (hr : t.cpu.registers = { s.cpu.registers with ip := ip, flags := f })
    (hm : t.bus.memory = s.bus.memory) : SameOperands s t where
  read w i := by
    rw [hr]
    cases w <;> cases i <;> rfl
  segment i := by
    rw [hr]
    cases i <;> rfl
  memory := hm

theorem SameOperands.readPlace (h : SameOperands s t) {p : Place}
    (hp : readPlace w p s = .ok a s) : readPlace w p t = .ok a t := by
  cases p with
  | register i =>
    change EStateM.Result.ok (s.cpu.registers.read w i) s = _ at hp
    rw [← h.read] at hp
    cases hp
    exact readPlace_register rfl
  | memory l =>
    obtain ⟨hspans, ha, -⟩ := readBytes_eq_ok_iff.1 hp
    rw [← h.segment, ← h.memory] at hspans ha
    exact readBytes_eq_ok_iff.2 ⟨hspans, ha, rfl⟩

theorem SameOperands.readSource (h : SameOperands s t) {p : Source}
    (hp : readSource w p s = .ok a s) : readSource w p t = .ok a t := by
  cases p with
  | place p => exact h.readPlace hp
  | immediate v =>
    cases hp
    rfl

/-- What can be read can be written, and holds afterwards what was written, cut to the width. -/
theorem exists_writePlace {p : Place} (hp : readPlace w p s = .ok a s) (v : UInt32) :
    ∃ r t, writePlace w v p s = .ok () t ∧ t.cpu.registers.flags = s.cpu.registers.flags ∧
      readPlace w p t = .ok r t ∧ r.toNat = w.toNat v := by
  cases p with
  | register i =>
    refine ⟨_, _, rfl, ?_, rfl, s.cpu.registers.toNat_read_write w i v⟩
    exact apart_flags.write s.cpu.registers w i v
  | memory l =>
    obtain ⟨hspans, -, -⟩ := readBytes_eq_ok_iff.1 hp
    let m := s.bus.memory.store (s.cpu.registers.segment l.segment) l.offset v w.bytes
    refine ⟨m.load (s.cpu.registers.segment l.segment) l.offset w.bytes, withMemory s m,
      writeBytes_of_spans hspans, rfl, ?_, ?_⟩
    · exact readBytes_eq_ok_iff.2 ⟨hspans.congr (Memory.size_store ..), rfl, rfl⟩
    · have hload := Memory.toNat_load_store hspans w.bytes_le v
      rw [w.eight_mul_bytes] at hload
      exact hload

end Cpu

end Pc8086

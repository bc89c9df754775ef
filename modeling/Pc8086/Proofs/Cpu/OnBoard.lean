import Pc8086.Board.Basic
import Pc8086.Proofs.Cpu.Exec
import Pc8086.Proofs.Memory.Overlay

namespace Pc8086.Cpu

open Exec

variable {δ : Type} [Peripheral δ] {s t : System (Board δ)}

/-- The whole address bus is covered by memory. -/
def Roomy (s : System (Board δ)) : Prop :=
  0x100000 ≤ s.bus.memory.size

def withMemory (s : System (Board δ)) (m : Memory) : System (Board δ) :=
  { s with bus.memory := m }

def withRegisters (s : System (Board δ)) (r : Registers) : System (Board δ) :=
  { s with cpu.registers := r }

section Bytes

variable {i : Segment} {offset : UInt16} {v : UInt32} {n : Nat}

theorem readByte_of_lt {a : UInt32} (h : a.toNat < s.bus.memory.size) :
    onBus (Bus.readByte a) s = .ok (s.bus.memory.peek a) s := by
  refine onBus_ok ?_
  dsimp only [Bus.readByte]
  rw [Memory.readByte_eq h]

theorem writeByte_of_lt {a : UInt32} (h : a.toNat < s.bus.memory.size) (v : UInt8) :
    onBus (Bus.writeByte a v) s = .ok () (withMemory s (s.bus.memory.poke a v)) := by
  refine onBus_ok ?_
  dsimp only [Bus.writeByte]
  rw [Memory.writeByte_eq h]

theorem writeByte_of_beyond {a : UInt32} (h : ¬a.toNat < s.bus.memory.size) (v : UInt8) :
    onBus (Bus.writeByte a v) s = .error (.addressOutOfRange a) s := by
  unfold onBus
  dsimp only [Bus.writeByte]
  rw [Memory.writeByte_eq_error h]

theorem lt_of_readByte {a : UInt32} {b : UInt8} (h : onBus (Bus.readByte a) s = .ok b t) :
    a.toNat < s.bus.memory.size := by
  refine Classical.byContradiction fun hlt => ?_
  have herror : onBus (Bus.readByte a) s = .error (.addressOutOfRange a) s := by
    unfold onBus
    dsimp only [Bus.readByte]
    rw [Memory.readByte_eq_error hlt]
  rw [herror] at h
  cases h

/-- Exactly the bytes that are there can be read. -/
theorem readBytes_eq_ok_iff {a : UInt32} : readBytes i offset n s = .ok a t ↔
    s.bus.memory.Spans (s.cpu.registers.segment i) offset n ∧
      a = s.bus.memory.load (s.cpu.registers.segment i) offset n ∧ t = s := by
  induction n generalizing offset a t with
  | zero =>
    constructor
    · intro h
      cases h
      exact ⟨fun k hk => absurd hk (Nat.not_lt_zero k), rfl, rfl⟩
    · rintro ⟨-, rfl, rfl⟩
      rfl
  | succ n ih =>
    rw [Memory.spans_succ]
    unfold readBytes
    have haddress : busAddress i offset s = .ok (linear (s.cpu.registers.segment i) offset) s := rfl
    rw [bind_ok _ haddress]
    constructor
    · intro h
      -- a read that succeeds leaves the state, so the rest is read in the same one
      cases hb : onBus (Bus.readByte (linear (s.cpu.registers.segment i) offset)) s with
      | error f u =>
        rw [bind_error _ hb] at h
        cases h
      | ok b u =>
        have h0 := lt_of_readByte hb
        have hread := readByte_of_lt h0
        rw [bind_ok _ hread] at h
        cases hr : readBytes i (offset + 1) n s with
        | error f u =>
          rw [bind_error _ hr] at h
          cases h
        | ok rest u =>
          obtain ⟨hspans, rfl, rfl⟩ := ih.1 hr
          rw [bind_ok _ hr] at h
          cases h
          exact ⟨⟨h0, hspans⟩, rfl, rfl⟩
    · rintro ⟨⟨h0, hrest⟩, rfl, rfl⟩
      rw [bind_ok _ (readByte_of_lt h0), bind_ok _ (ih.2 ⟨hrest, rfl, rfl⟩)]
      rfl

theorem writeBytes_of_spans (h : s.bus.memory.Spans (s.cpu.registers.segment i) offset n) :
    writeBytes i offset v n s =
      .ok () (withMemory s (s.bus.memory.store (s.cpu.registers.segment i) offset v n)) := by
  induction n generalizing offset v s with
  | zero => rfl
  | succ n ih =>
    obtain ⟨h0, hrest⟩ := Memory.spans_succ.1 h
    unfold writeBytes
    have haddress : busAddress i offset s = .ok (linear (s.cpu.registers.segment i) offset) s := rfl
    rw [bind_ok _ haddress, bind_ok _ (writeByte_of_lt h0 _), ih]
    · rfl
    · exact hrest.congr (Memory.size_poke ..)

end Bytes

theorem run_readByte (h : Roomy s) (base offset : UInt16) :
    onBus (Bus.readByte (linear base offset)) s =
      .ok (s.bus.memory.peek (linear base offset)) s :=
  readByte_of_lt (Nat.lt_of_lt_of_le (linear_lt base offset) h)

theorem run_readBytes (h : Roomy s) (i : Segment) (offset : UInt16) (n : Nat) :
    readBytes i offset n s =
      .ok (s.bus.memory.load (s.cpu.registers.segment i) offset n) s :=
  readBytes_eq_ok_iff.2 ⟨Memory.spans_of_size h _ offset n, rfl, rfl⟩

theorem run_writeBytes (h : Roomy s) (i : Segment) (offset : UInt16) (v : UInt32) (n : Nat) :
    writeBytes i offset v n s =
      .ok () (withMemory s (s.bus.memory.store (s.cpu.registers.segment i) offset v n)) :=
  writeBytes_of_spans (Memory.spans_of_size h _ offset n)

theorem run_readMemory (h : Roomy s) (i : Segment) (offset : UInt16) (w : Width) :
    readMemory ⟨i, offset⟩ w s =
      .ok (s.bus.memory.load (s.cpu.registers.segment i) offset w.bytes) s :=
  run_readBytes h i offset w.bytes

theorem run_writeMemory (h : Roomy s) (i : Segment) (offset : UInt16) (w : Width) (v : UInt32) :
    writeMemory ⟨i, offset⟩ w v s =
      .ok () (withMemory s (s.bus.memory.store (s.cpu.registers.segment i) offset v w.bytes)) :=
  run_writeBytes h i offset v w.bytes

theorem run_fetchByte (h : Roomy s) :
    fetchByte s = .ok (s.bus.memory.peek (linear s.cpu.registers.cs s.cpu.registers.ip))
      (withRegisters s { s.cpu.registers with ip := s.cpu.registers.ip + 1 }) := by
  unfold fetchByte
  rw [run_cpu]
  change (onBus (Bus.readByte (linear s.cpu.registers.cs s.cpu.registers.ip)) >>= _) s = _
  rw [bind_ok _ (run_readByte h _ _)]
  rfl

end Pc8086.Cpu

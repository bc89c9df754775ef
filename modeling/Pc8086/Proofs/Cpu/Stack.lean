import Pc8086.Proofs.Cpu.OnBoard
import Pc8086.Proofs.Cpu.WordRegisters

namespace Pc8086

theorem linear_toNat (base offset : UInt16) :
    (linear base offset).toNat = (base.toNat * 16 + offset.toNat) % 0x100000 := by
  have hb := base.toNat_lt
  have ho := offset.toNat_lt
  have hmask : addressMask.toNat = 2 ^ 20 - 1 := rfl
  have hshift : (base.toUInt32 <<< 4).toNat = base.toNat * 16 := by
    rw [UInt32.toNat_shiftLeft, UInt16.toNat_toUInt32, Nat.shiftLeft_eq]
    change base.toNat * 16 % 2 ^ 32 = _
    omega
  rw [linear, UInt32.toNat_and, hmask, Nat.and_two_pow_sub_one_eq_mod, UInt32.toNat_add, hshift,
    UInt16.toNat_toUInt32]
  omega

/-- A segment is shorter than the address bus reaches, so its offsets keep apart. -/
theorem linear_injective (base : UInt16) : Function.Injective (linear base) := by
  intro a b h
  have ha := a.toNat_lt
  have hb := b.toNat_lt
  have hn := congrArg UInt32.toNat h
  rw [linear_toNat, linear_toNat] at hn
  exact UInt16.toNat_inj.1 (by omega)

/-- The bytes behind an offset do not come back to it within the length of the segment. -/
theorem linear_ne_next (base offset : UInt16) {k : Nat} (hk : k + 1 < 0x10000) :
    linear base (offset + 1 + UInt16.ofNat k) ≠ linear base offset := by
  intro he
  have hsum : (offset + 1 + UInt16.ofNat k).toNat = offset.toNat :=
    congrArg UInt16.toNat (linear_injective base he)
  rw [UInt16.toNat_add, UInt16.toNat_add, UInt16.toNat_ofNat'] at hsum
  have ho := offset.toNat_lt
  change ((offset.toNat + 1) % 2 ^ 16 + k % 2 ^ 16) % 2 ^ 16 = _ at hsum
  omega

def joined (low high : UInt8) : UInt16 :=
  high.toUInt16 <<< 8 ||| low.toUInt16

theorem joined_toNat (low high : UInt8) :
    (joined low high).toNat = high.toNat * 256 + low.toNat := by
  have hl := low.toNat_lt
  have hh := high.toNat_lt
  have hshift : (high.toUInt16 <<< 8).toNat = high.toNat <<< 8 := by
    rw [UInt16.toNat_shiftLeft, UInt8.toNat_toUInt16]
    change high.toNat <<< 8 % 2 ^ 16 = _
    rw [Nat.shiftLeft_eq]
    omega
  rw [joined, UInt16.toNat_or, hshift, UInt8.toNat_toUInt16,
    ← Nat.shiftLeft_add_eq_or_of_lt (i := 8) hl, Nat.shiftLeft_eq]

@[simp] theorem joined_halves (v : UInt16) : joined v.toUInt8 (v >>> 8).toUInt8 = v := by
  have hv := v.toNat_lt
  have hhigh : (v >>> 8).toUInt8.toNat = v.toNat / 256 := by
    rw [UInt16.toNat_toUInt8, UInt16.toNat_shiftRight]
    change v.toNat >>> 8 % 2 ^ 8 = _
    rw [Nat.shiftRight_eq_div_pow]
    omega
  apply UInt16.toNat_inj.1
  rw [joined_toNat, hhigh, UInt16.toNat_toUInt8]
  omega

namespace Memory

variable {m m' : Memory} {base offset : UInt16}

def word (m : Memory) (base offset : UInt16) : UInt16 :=
  joined (m.peek (linear base offset)) (m.peek (linear base (offset + 1)))

theorem load_two (m : Memory) (base offset : UInt16) :
    (m.load base offset 2).toUInt16 = m.word base offset := by
  have hzero : (0 : UInt32) <<< 8 = 0 := rfl
  unfold load load load word joined
  rw [hzero, UInt32.zero_or, UInt32.toUInt16_or, UInt32.toUInt16_shiftLeft _ _ (by decide),
    UInt8.toUInt16_toUInt32, UInt8.toUInt16_toUInt32]
  rfl

theorem word_congr (h : ∀ i < 2, m.peek (linear base (offset + UInt16.ofNat i)) =
    m'.peek (linear base (offset + UInt16.ofNat i))) :
    m.word base offset = m'.word base offset := by
  have h0 := h 0 (by decide)
  have h1 := h 1 (by decide)
  rw [add_ofNat_zero] at h0
  unfold word
  rw [h0]
  exact congrArg _ h1

/-- A word goes into memory as its two bytes. -/
theorem store_two (m : Memory) (base offset v : UInt16) :
    m.store base offset v.toUInt32 2 =
      (m.poke (linear base offset) v.toUInt8).poke (linear base (offset + 1))
        (v >>> 8).toUInt8 := by
  have hhigh : (v.toUInt32 >>> 8).toUInt8 = (v >>> 8).toUInt8 := by
    rw [← UInt16.toUInt8_toUInt32, UInt16.toUInt32_shiftRight]
    rfl
  unfold store store store
  rw [UInt16.toUInt8_toUInt32, hhigh]

theorem word_store (hm : 0x100000 ≤ m.size) (base offset v : UInt16) :
    (m.store base offset v.toUInt32 2).word base offset = v := by
  have hlow : (linear base offset).toNat < m.size := Nat.lt_of_lt_of_le (linear_lt ..) hm
  have hhigh : (linear base (offset + 1)).toNat <
      (m.poke (linear base offset) v.toUInt8).size := by
    rw [size_poke]
    exact Nat.lt_of_lt_of_le (linear_lt ..) hm
  have hne : linear base offset ≠ linear base (offset + 1) := by
    intro h
    have he := linear_injective base h
    simp at he
  unfold word
  rw [store_two, peek_poke hhigh, peek_poke hhigh, if_neg hne, if_pos rfl, peek_poke hlow,
    if_pos rfl, joined_halves]

/-- A word is not touched by a store of another that lies apart in its segment. -/
theorem word_store_of_apart (m : Memory) {offset' : UInt16} (v : UInt16)
    (h : ∀ i < 2, ∀ j < 2, offset' + UInt16.ofNat j ≠ offset + UInt16.ofNat i) :
    (m.store base offset' v.toUInt32 2).word base offset = m.word base offset :=
  word_congr fun i hi => peek_store_of_ne m _ fun j hj he => h i hi j hj (linear_injective base he)

end Memory

namespace Cpu

open Exec

section Words

variable {δ : Type} {s : System (Board δ)}

theorem roomy_at {m : Memory} (hm : 0x100000 ≤ m.size) {r : Registers} :
    Roomy (withRegisters (withMemory s m) r) := hm

variable [Peripheral δ]

/-- What is pushed lies where the stack pointer goes. -/
theorem run_push (h : Roomy s) (w : Width) (v : UInt32) {sp : UInt16}
    (hsp : s.cpu.registers.word .sp - w.bytes.toUInt16 = sp) :
    push w v s = .ok ()
      (withRegisters (withMemory s (s.bus.memory.store s.cpu.registers.ss sp v w.bytes))
        (s.cpu.registers.setWord .sp sp)) := by
  subst hsp
  unfold push
  rw [run_registers]
  exact run_writeMemory (s := withRegisters s (s.cpu.registers.setWord .sp _)) h ..

/-- A pop yields what lies at the stack pointer and moves past it. -/
theorem run_pop (h : Roomy s) (w : Width) :
    let r := s.cpu.registers
    pop w s = .ok (s.bus.memory.load r.ss (r.word .sp) w.bytes)
      (withRegisters s (r.setWord .sp (r.word .sp + w.bytes.toUInt16))) := by
  intro r
  unfold pop
  rw [run_registers, bind_ok _ (run_readMemory h ..)]
  rfl

theorem run_pushWord (h : Roomy s) (v : UInt16) {sp : UInt16}
    (hsp : s.cpu.registers.word .sp - 2 = sp) :
    pushWord v s = .ok ()
      (withRegisters (withMemory s (s.bus.memory.store s.cpu.registers.ss sp v.toUInt32 2))
        (s.cpu.registers.setWord .sp sp)) :=
  run_push h .word v.toUInt32 hsp

theorem run_popWord (h : Roomy s) :
    let r := s.cpu.registers
    popWord s = .ok (s.bus.memory.word r.ss (r.word .sp))
      (withRegisters s (r.setWord .sp (r.word .sp + 2))) := by
  intro r
  unfold popWord
  rw [bind_ok _ (run_pop h .word), ← Memory.load_two]
  rfl

theorem run_push_at {m : Memory} (hm : 0x100000 ≤ m.size) (r : Registers) (w : Width) (v : UInt32)
    {sp sp' : UInt16} (hsp : sp - w.bytes.toUInt16 = sp') :
    push w v (withRegisters (withMemory s m) (r.setWord .sp sp)) = .ok ()
      (withRegisters (withMemory s (m.store r.ss sp' v w.bytes)) (r.setWord .sp sp')) := by
  have hword : (r.setWord .sp sp).word .sp - w.bytes.toUInt16 = sp' := by
    rw [Registers.word_setWord, hsp]
  have hpush := run_push (s := withRegisters (withMemory s m) (r.setWord .sp sp)) hm w v hword
  rw [← r.setWord_setWord .sp sp sp']
  exact hpush

theorem run_pop_at (h : Roomy s) (r : Registers) (w : Width) {sp sp' : UInt16}
    (hsp : sp + w.bytes.toUInt16 = sp') :
    pop w (withRegisters s (r.setWord .sp sp)) =
      .ok (s.bus.memory.load r.ss sp w.bytes) (withRegisters s (r.setWord .sp sp')) := by
  have hpop := run_pop (s := withRegisters s (r.setWord .sp sp)) h w
  have hword : (withRegisters s (r.setWord .sp sp)).cpu.registers.word .sp = sp :=
    r.word_setWord .sp sp
  dsimp only at hpop
  rw [hword, hsp] at hpop
  rw [← r.setWord_setWord .sp sp sp']
  exact hpop

theorem run_pushWord_at {m : Memory} (hm : 0x100000 ≤ m.size) (r : Registers) (v : UInt16)
    {sp sp' : UInt16} (hsp : sp - 2 = sp') :
    pushWord v (withRegisters (withMemory s m) (r.setWord .sp sp)) = .ok ()
      (withRegisters (withMemory s (m.store r.ss sp' v.toUInt32 2)) (r.setWord .sp sp')) :=
  run_push_at hm r .word v.toUInt32 hsp

theorem run_popWord_at (h : Roomy s) (r : Registers) {sp sp' : UInt16} (hsp : sp + 2 = sp') :
    popWord (withRegisters s (r.setWord .sp sp)) =
      .ok (s.bus.memory.word r.ss sp) (withRegisters s (r.setWord .sp sp')) := by
  unfold popWord
  rw [bind_ok _ (run_pop_at h r .word hsp), ← Memory.load_two]
  rfl

end Words

end Cpu

end Pc8086

import Pc8086.Proofs.Cpu.DoubleAccumulator
import Pc8086.Proofs.Cpu.Operands

namespace Pc8086

def below (p : UInt16) (n : Nat) : UInt16 :=
  p - UInt16.ofNat n

section Below

variable (p : UInt16) {a b : Nat}

theorem below_zero : below p 0 = p :=
  UInt16.sub_zero p

theorem below_below (a b : Nat) : below (below p a) b = below p (a + b) := by
  unfold below
  rw [UInt16.ofNat_add]
  grind

theorem below_add (h : b ≤ a) : below p a + UInt16.ofNat b = below p (a - b) := by
  apply UInt16.toNat_inj.1
  unfold below
  simp only [UInt16.toNat_add, UInt16.toNat_sub, UInt16.toNat_ofNat']
  omega

theorem below_ne_below (ha : a < 0x10000) (hb : b < 0x10000) (h : a ≠ b) : below p a ≠ below p b := by
  intro he
  have hn := congrArg UInt16.toNat he
  have hp := p.toNat_lt
  unfold below at hn
  simp only [UInt16.toNat_sub, UInt16.toNat_ofNat'] at hn
  omega

end Below

namespace Memory

variable {m m' : Memory} {base offset : UInt16} {n : Nat}

theorem load_congr (h : ∀ k < n, m.peek (linear base (offset + UInt16.ofNat k)) =
    m'.peek (linear base (offset + UInt16.ofNat k))) :
    m.load base offset n = m'.load base offset n := by
  induction n generalizing offset with
  | zero => rfl
  | succ n ih =>
    have h0 := h 0 n.succ_pos
    rw [add_ofNat_zero] at h0
    have hrest : m.load base (offset + 1) n = m'.load base (offset + 1) n :=
      ih fun k hk => add_ofNat_succ offset k ▸ h (k + 1) (Nat.succ_lt_succ hk)
    rw [load, load, h0, hrest]

/-- The memory after values of `n` bytes each have been pushed, the first one at the top. -/
def pushed (m : Memory) (base : UInt16) (n : Nat) : UInt16 → List UInt32 → Memory
  | _, [] => m
  | p, v :: vs => (m.store base (below p n) v n).pushed base n (below p n) vs

@[simp] theorem size_pushed (m : Memory) (base : UInt16) (n : Nat) (p : UInt16) (vs : List UInt32) :
    (m.pushed base n p vs).size = m.size := by
  induction vs generalizing m p with
  | nil => rfl
  | cons v vs ih => rw [pushed, ih, size_store]

/-- Nothing but the bytes below the stack pointer is written. -/
theorem peek_pushed {p : UInt16} {a : UInt32} (m : Memory) (vs : List UInt32)
    (h : ∀ k < n * vs.length, linear base (below p (k + 1)) ≠ a) :
    (m.pushed base n p vs).peek a = m.peek a := by
  induction vs generalizing m p with
  | nil => rfl
  | cons v vs ih =>
    rw [List.length_cons, Nat.mul_succ] at h
    have hrest : ∀ k < n * vs.length, linear base (below (below p n) (k + 1)) ≠ a := by
      intro k hk
      rw [below_below]
      exact h (n + k) (by omega)
    have hfirst : ∀ i < n, linear base (below p n + UInt16.ofNat i) ≠ a := by
      intro i hi
      rw [below_add p hi.le, show n - i = n - i - 1 + 1 by omega]
      exact h (n - i - 1) (by omega)
    rw [pushed, ih _ hrest, peek_store_of_ne m v hfirst]

/-- Every value lies where it was pushed, cut to its width. By induction on the values: the first
one is not touched by those below it. -/
theorem load_pushed (hm : 0x100000 ≤ m.size) {w : Width} {p : UInt16} {vs : List UInt32}
    (hsize : w.bytes * vs.length < 0x10000) {k : Nat} (hk : k < vs.length) :
    (m.pushed base w.bytes p vs).load base (below p (w.bytes * (k + 1))) w.bytes =
      w.truncate vs[k] := by
  induction vs generalizing m p k with
  | nil => exact absurd hk (Nat.not_lt_zero k)
  | cons v vs ih =>
    rw [List.length_cons, Nat.mul_succ] at hsize
    cases k with
    | zero =>
      have hkept : ∀ i < w.bytes, ∀ j < w.bytes * vs.length,
          linear base (below (below p w.bytes) (j + 1)) ≠
            linear base (below p w.bytes + UInt16.ofNat i) := by
        intro i hi j hj he
        rw [below_below, below_add p hi.le] at he
        exact below_ne_below p (by omega) (by omega) (by omega) (linear_injective base he)
      have hcongr := load_congr fun i hi => peek_pushed (m.store base (below p w.bytes) v w.bytes) vs
        (hkept i hi)
      have hspans := spans_of_size hm base (below p w.bytes) w.bytes
      rw [Nat.zero_add, Nat.mul_one, pushed, hcongr, load_store hspans]
      rfl
    | succ k =>
      have hrest := ih (m := m.store base (below p w.bytes) v w.bytes) (p := below p w.bytes)
        (by rwa [size_store]) (by omega) (Nat.lt_of_succ_lt_succ hk)
      rw [below_below] at hrest
      rw [pushed, Nat.mul_succ, Nat.add_comm]
      exact hrest

end Memory

namespace Cpu

open Exec

namespace Registers

variable (r : Registers)

theorem highByte_setLowByte (i : Reg) (v : UInt8) :
    (r.setLowByte i v).highByte i = r.highByte i := by
  have hv := v.toNat_lt
  have hd := (r.dword i).toNat_lt
  have hlow : v.toNat >>> 8 = 0 := by
    rw [Nat.shiftRight_eq_div_pow]
    omega
  have hmask : UInt32.toNat 0xFFFFFF00 >>> 8 = 2 ^ 24 - 1 := rfl
  have hhigh : (r.dword i).toNat >>> 8 % 2 ^ 24 = (r.dword i).toNat >>> 8 := by
    rw [Nat.shiftRight_eq_div_pow]
    omega
  rw [highByte, highByte, setLowByte, dword_setDword, ← UInt8.toNat_inj, UInt32.toNat_toUInt8,
    UInt32.toNat_toUInt8, UInt32.toNat_shiftRight, UInt32.toNat_shiftRight]
  change (_ >>> 8) % _ = (_ >>> 8) % _
  rw [UInt32.toNat_or, UInt32.toNat_and, Nat.shiftRight_or_distrib, Nat.shiftRight_and_distrib,
    UInt8.toNat_toUInt32, hlow, hmask, Nat.or_zero, Nat.and_two_pow_sub_one_eq_mod, hhigh]

theorem byteHost_injective : Function.Injective Reg.byteHost := by
  intro i j h
  cases i <;> cases j <;> first | rfl | cases h

theorem byte_setByte_of_ne {i j : Reg} (h : j ≠ i) (v : UInt8) :
    (r.setByte i v).byte j = r.byte j := by
  have hhost : j.byteHost ≠ i.byteHost := mt (fun he => byteHost_injective he) h
  unfold byte setByte
  generalize j.byteHost = q at hhost ⊢
  generalize i.byteHost = p at hhost ⊢
  obtain ⟨hostJ, highJ⟩ := q
  obtain ⟨hostI, highI⟩ := p
  by_cases he : hostJ = hostI
  · subst he
    -- one register, of which the other byte is written
    cases highI <;> cases highJ
    · exact absurd rfl hhost
    · exact r.highByte_setLowByte hostJ v
    · exact r.lowByte_setHighByte hostJ v
    · exact absurd rfl hhost
  · have hd := r.dword_setDword_of_ne he
    cases highI <;> cases highJ <;> simp only [lowByte, highByte, setLowByte, setHighByte, hd]

/-- A register keeps what it holds while another one is given a value. -/
theorem read_write_of_ne (w : Width) {i j : Reg} (h : j ≠ i) (v : UInt32) :
    (r.write w i v).read w j = r.read w j := by
  cases w with
  | byte => exact congrArg UInt8.toUInt32 (r.byte_setByte_of_ne h _)
  | word => exact congrArg UInt16.toUInt32 (r.word_setWord_of_ne h _)
  | dword => exact r.dword_setDword_of_ne h v

theorem read_write (w : Width) (i : Reg) (v : UInt32) :
    (r.write w i v).read w i = w.truncate v := by
  apply UInt32.toNat_inj.1
  rw [toNat_read_write, w.toNat_truncate]

/-- The register that the stack pointer belongs to holds no byte registers. -/
theorem read_setWord_sp (w : Width) {i : Reg} (h : i ≠ .sp) (p : UInt16) :
    (r.setWord .sp p).read w i = r.read w i := by
  cases w <;> cases i <;> first | exact absurd rfl h | rfl

theorem write_setWord_sp (w : Width) {i : Reg} (h : i ≠ .sp) (v : UInt32) (p : UInt16) :
    (r.setWord .sp p).write w i v = (r.write w i v).setWord .sp p := by
  cases w <;> cases i <;> first | exact absurd rfl h | rfl

def restored (w : Width) (r : Registers) : List Reg → Registers → Registers
  | [], q => q
  | i :: l, q => restored w r l (if i = .sp then q else q.write w i (r.read w i))

theorem truncate_read (w : Width) (i : Reg) : w.truncate (r.read w i) = r.read w i := by
  apply UInt32.toNat_inj.1
  rw [w.toNat_truncate, toNat_read]

theorem read_restored (w : Width) {i : Reg} (h : i ≠ .sp) (l : List Reg) (q : Registers) :
    (restored w r l q).read w i = if i ∈ l then r.read w i else q.read w i := by
  induction l generalizing q with
  | nil => rfl
  | cons j l ih =>
    rw [restored, ih]
    by_cases hl : i ∈ l
    · rw [if_pos hl, if_pos (List.mem_cons_of_mem j hl)]
    · rw [if_neg hl]
      by_cases hj : i = j
      · subst hj
        rw [if_neg h, read_write, truncate_read, if_pos List.mem_cons_self]
      · rw [if_neg fun hm => (List.mem_cons.1 hm).elim hj hl]
        split
        · rfl
        · exact q.read_write_of_ne w hj _

theorem ss_write (w : Width) (i : Reg) (v : UInt32) : (r.write w i v).ss = r.ss := by
  cases w <;> cases i <;> rfl

end Registers

variable {δ : Type} [Peripheral δ] {s : System (Board δ)} {w : Width}

theorem below_bytes (p : UInt16) (w : Width) : p - w.bytes.toUInt16 = below p w.bytes :=
  rfl

/-- Registers pushed one after another. By induction on the list: what is still to be pushed is as
it was, though the stack pointer has moved. -/
theorem run_pushes {m : Memory} (hm : 0x100000 ≤ m.size) (r : Registers) (l : List Reg)
    (p : UInt16) :
    (l.forM fun (i : Reg) => do
      let q ← Exec.registers
      push w (if i = .sp then r.read w .sp else q.read w i) : Exec (Board δ) Unit)
      (withRegisters (withMemory s m) (r.setWord .sp p)) =
    .ok () (withRegisters (withMemory s (m.pushed r.ss w.bytes p (l.map (r.read w))))
      (r.setWord .sp (below p (w.bytes * l.length)))) := by
  induction l generalizing m p with
  | nil =>
    rw [List.length_nil, Nat.mul_zero, below_zero]
    rfl
  | cons i l ih =>
    have hvalue : (if i = .sp then r.read w .sp else (r.setWord .sp p).read w i) = r.read w i := by
      split
      · next h => rw [h]
      · next h => exact r.read_setWord_sp w h p
    have hpush := run_push_at (s := s) hm r w (r.read w i) (below_bytes p w)
    have hrest := ih (m := m.store r.ss (below p w.bytes) (r.read w i) w.bytes)
      (by rwa [Memory.size_store]) (below p w.bytes)
    rw [below_below, Nat.add_comm, ← Nat.mul_succ] at hrest
    have hstep : (do
        let q ← Exec.registers
        push w (if i = .sp then r.read w .sp else q.read w i) : Exec (Board δ) Unit)
        (withRegisters (withMemory s m) (r.setWord .sp p)) =
        .ok () (withRegisters
          (withMemory s (m.store r.ss (below p w.bytes) (r.read w i) w.bytes))
          (r.setWord .sp (below p w.bytes))) := by
      rw [run_registers]
      change push w (if i = .sp then r.read w .sp else (r.setWord .sp p).read w i) _ = _
      rw [hvalue]
      exact hpush
    exact (bind_ok _ hstep).trans hrest

theorem run_pushAll (h : Roomy s) (w : Width) :
    let r := s.cpu.registers
    pushAll w s = .ok () (withRegisters
      (withMemory s (s.bus.memory.pushed r.ss w.bytes (r.word .sp) (Reg.all.map (r.read w))))
      (r.setWord .sp (below (r.word .sp) (w.bytes * 8)))) := by
  intro r
  have hpushes := run_pushes (s := s) (w := w) h r Reg.all (r.word .sp)
  rw [Registers.setWord_self] at hpushes
  exact hpushes

/-- Registers popped one after another take the values that lie on the stack. -/
theorem run_pops (hs : Roomy s) (r q : Registers) (l : List Reg) (p : UInt16)
    (h : ∀ (k : Nat) (hk : k < l.length),
      s.bus.memory.load q.ss (p + UInt16.ofNat (w.bytes * k)) w.bytes = r.read w l[k]) :
    (l.forM fun (i : Reg) => do
      let v ← pop w
      if i ≠ .sp then modifyRegisters fun q => q.write w i v : Exec (Board δ) Unit)
      (withRegisters s (q.setWord .sp p)) =
    .ok () (withRegisters s ((Registers.restored w r l q).setWord .sp
      (p + UInt16.ofNat (w.bytes * l.length)))) := by
  induction l generalizing q p with
  | nil =>
    rw [List.length_nil, Nat.mul_zero, add_ofNat_zero]
    rfl
  | cons i l ih =>
    have hfirst : s.bus.memory.load q.ss p w.bytes = r.read w i := by
      have h0 := h 0 (Nat.succ_pos _)
      rwa [Nat.mul_zero, add_ofNat_zero] at h0
    have hnext (k : Nat) : p + w.bytes.toUInt16 + UInt16.ofNat (w.bytes * k) =
        p + UInt16.ofNat (w.bytes * (k + 1)) := by
      rw [Nat.mul_succ, Nat.add_comm, UInt16.ofNat_add, ← UInt16.add_assoc, Nat.toUInt16_eq]
    have hpop := run_pop_at hs q w (rfl : p + w.bytes.toUInt16 = _)
    rw [hfirst] at hpop
    -- SP is popped but not restored
    let q' := if i = .sp then q else q.write w i (r.read w i)
    have hss : q'.ss = q.ss := by
      change (if i = .sp then q else q.write w i (r.read w i)).ss = _
      split
      · rfl
      · exact q.ss_write w i _
    -- no segment register is popped, so the rest lies in the same stack segment
    have hrest := ih q' (p + w.bytes.toUInt16) fun k hk => by
      rw [hss, hnext]
      exact h (k + 1) (Nat.succ_lt_succ hk)
    rw [hnext] at hrest
    have hstep : (do
        let v ← pop w
        if i ≠ .sp then modifyRegisters fun q => q.write w i v : Exec (Board δ) Unit)
        (withRegisters s (q.setWord .sp p)) =
        .ok () (withRegisters s (q'.setWord .sp (p + w.bytes.toUInt16))) := by
      refine (bind_ok _ hpop).trans ?_
      by_cases hi : i = .sp
      · rw [if_neg (not_not.2 hi), show q' = q from if_pos hi]
        rfl
      · rw [if_pos hi, show q' = q.write w i (r.read w i) from if_neg hi, ← q.write_setWord_sp w hi]
        rfl
    exact (bind_ok _ hstep).trans hrest

/-- What all registers were pushed from comes back to them, but for the stack pointer. -/
theorem run_popAll (hs : Roomy s) (w : Width) {r : Registers} {p : UInt16}
    (hp : s.cpu.registers.word .sp = below p (w.bytes * 8))
    (h : ∀ (k : Nat) (hk : k < Reg.all.length),
      s.bus.memory.load s.cpu.registers.ss (below p (w.bytes * (k + 1))) w.bytes =
        r.read w Reg.all[k]) :
    popAll w s = .ok () (withRegisters s
      ((Registers.restored w r Reg.all.reverse s.cpu.registers).setWord .sp p)) := by
  have hpops := run_pops (w := w) hs r s.cpu.registers Reg.all.reverse (below p (w.bytes * 8)) ?_
  · rw [← hp, Registers.setWord_self, hp] at hpops
    have hall : w.bytes * Reg.all.reverse.length = w.bytes * 8 := rfl
    rw [hall, below_add p (Nat.le_refl _), Nat.sub_self, below_zero] at hpops
    exact hpops
  · intro k hk
    have hlength : Reg.all.reverse.length = 8 := rfl
    have hbelow : w.bytes * 8 - w.bytes * k = w.bytes * (7 - k + 1) := by
      rw [← Nat.mul_sub]
      congr 1
      omega
    rw [below_add p (Nat.mul_le_mul_left _ (by omega)), hbelow, List.getElem_reverse]
    exact h (7 - k) (Nat.lt_succ_of_le (Nat.sub_le 7 k))

end Cpu

end Pc8086

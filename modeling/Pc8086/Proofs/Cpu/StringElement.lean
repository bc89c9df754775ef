import Pc8086.Cpu.Execute
import Pc8086.Proofs.Cpu.OnBoard
import Pc8086.Proofs.Cpu.WordRegisters

namespace Pc8086.Cpu

open Exec

namespace StringOperation

def internal : StringOperation → Bool
  | input | output => false
  | _ => true

def uses : StringOperation → Reg → Bool
  | output, .si | move, .si | compare, .si | load, .si => true
  | input, .di | move, .di | compare, .di | store, .di | scan, .di => true
  | _, _ => false

def writes : StringOperation → Bool
  | input | move | store => true
  | _ => false

end StringOperation

namespace Registers

def advanced (r : Registers) (i : Reg) (w : Width) : Registers :=
  let n := w.bytes.toUInt16
  r.setWord i (if r.flags.direction then r.word i - n else r.word i + n)

/-- An index register past `n` elements, in the direction of the direction flag. -/
def past (r : Registers) (i : Reg) (w : Width) (n : Nat) : UInt16 :=
  let distance := UInt16.ofNat (n * w.bytes)
  if r.flags.direction then r.word i - distance else r.word i + distance

def compared (r : Registers) (w : Width) (a b : UInt32) : Registers :=
  { r with flags := (Alu.sub w a b false r.flags).2 }

def positioned (r : Registers) (ip count : UInt16) : Registers :=
  ({ r with ip := ip } : Registers).setWord .cx count

end Registers

def elementEffect (i : Segment) (w : Width) (op : StringOperation) (r : Registers) (m : Memory) :
    Registers × Memory :=
  let source := m.load (r.segment i) (r.word .si) w.bytes
  let target := m.load r.es (r.word .di) w.bytes
  match op with
  | .move => ((r.advanced .si w).advanced .di w, m.store r.es (r.word .di) source w.bytes)
  | .compare => (((r.compared w source target).advanced .si w).advanced .di w, m)
  | .store => (r.advanced .di w, m.store r.es (r.word .di) (r.read w .ax) w.bytes)
  | .load => ((r.write w .ax source).advanced .si w, m)
  | .scan => ((r.compared w (r.read w .ax) target).advanced .di w, m)
  | .input | .output => (r, m)

section Effect

variable (r : Registers) (m : Memory) (i : Segment) (w : Width) (op : StringOperation)
  (ip count : UInt16)

namespace Registers

theorem positioned_self : r.positioned r.ip (r.word .cx) = r :=
  setWord_self r .cx

@[simp] theorem positioned_positioned (ip' count' : UInt16) :
    (r.positioned ip count).positioned ip' count' = r.positioned ip' count' :=
  setWord_setWord { r with ip := ip' } .cx count count'

@[simp] theorem word_positioned {j : Reg} (h : j ≠ .cx) :
    (r.positioned ip count).word j = r.word j := by
  cases j <;> first | rfl | exact absurd rfl h

@[simp] theorem count_positioned : (r.positioned ip count).word .cx = count :=
  word_setWord _ .cx count

@[simp] theorem segment_positioned : (r.positioned ip count).segment i = r.segment i := by
  cases i <;> rfl

@[simp] theorem flags_positioned : (r.positioned ip count).flags = r.flags := rfl

@[simp] theorem read_ax_positioned : (r.positioned ip count).read w .ax = r.read w .ax := by
  cases w <;> rfl

theorem write_ax_positioned (v : UInt32) :
    (r.positioned ip count).write w .ax v = (r.write w .ax v).positioned ip count := by
  cases w <;> rfl

theorem compared_positioned (a b : UInt32) :
    (r.positioned ip count).compared w a b = (r.compared w a b).positioned ip count := rfl

theorem advanced_positioned {j : Reg} (h : j ≠ .cx) :
    (r.positioned ip count).advanced j w = (r.advanced j w).positioned ip count := by
  unfold advanced
  rw [word_positioned _ _ _ h, flags_positioned]
  cases j <;> first | rfl | exact absurd rfl h

theorem word_advanced (j : Reg) : (r.advanced j w).word j = r.past j w 1 := by
  unfold advanced past
  rw [word_setWord, Nat.one_mul]

theorem word_advanced_of_ne {j k : Reg} (h : j ≠ k) : (r.advanced k w).word j = r.word j :=
  word_setWord_of_ne r h _

theorem word_write_ax (v : UInt32) {j : Reg} (h : j ≠ .ax) :
    (r.write w .ax v).word j = r.word j := by
  cases j <;> first | exact absurd rfl h | (cases w <;> rfl)

/-- Where elements lead depends on the register and the direction flag alone. -/
theorem past_congr {r r' : Registers} {j : Reg} (hw : r'.word j = r.word j)
    (hd : r'.flags.direction = r.flags.direction) (w : Width) (n : Nat) :
    r'.past j w n = r.past j w n := by
  rw [past, past, hw, hd]

theorem past_advanced_of_ne {j k : Reg} (h : j ≠ k) (n : Nat) :
    (r.advanced k w).past j w n = r.past j w n := by
  refine past_congr (word_advanced_of_ne r w h) ?_ w n
  cases k <;> rfl

theorem past_write_ax (v : UInt32) {j : Reg} (h : j ≠ .ax) (n : Nat) :
    (r.write w .ax v).past j w n = r.past j w n := by
  refine past_congr (word_write_ax r w v h) ?_ w n
  cases w <;> rfl

theorem past_compared (a b : UInt32) (j : Reg) (n : Nat) :
    (r.compared w a b).past j w n = r.past j w n := by
  refine past_congr rfl ?_ w n
  cases w <;> rfl

theorem past_zero (j : Reg) : r.past j w 0 = r.word j := by
  have h0 : UInt16.ofNat (0 * w.bytes) = 0 := by
    rw [Nat.zero_mul]
    rfl
  unfold past
  rw [h0]
  dsimp only
  rw [UInt16.sub_zero, UInt16.add_zero, ite_self]

theorem past_succ {r r' : Registers} {j : Reg} {n : Nat} (hw : r'.word j = r.past j w n)
    (hd : r'.flags.direction = r.flags.direction) : r'.past j w 1 = r.past j w (n + 1) := by
  have hn : UInt16.ofNat ((n + 1) * w.bytes) =
      UInt16.ofNat (n * w.bytes) + UInt16.ofNat (1 * w.bytes) := by
    rw [Nat.succ_mul, UInt16.ofNat_add, Nat.one_mul]
  unfold past at hw ⊢
  rw [hw, hd, hn]
  cases r.flags.direction with
  | true =>
    change r.word j - _ - _ = r.word j - (_ + _)
    grind
  | false => exact UInt16.add_assoc ..

end Registers

open Registers

/-- An element neither looks at the instruction pointer and the count nor changes them. -/
theorem elementEffect_positioned :
    elementEffect i w op (r.positioned ip count) m =
      ((elementEffect i w op r m).1.positioned ip count, (elementEffect i w op r m).2) := by
  have hes : (r.positioned ip count).es = r.es := rfl
  have hsi : (r.positioned ip count).word .si = r.word .si := rfl
  have hdi : (r.positioned ip count).word .di = r.word .di := rfl
  unfold elementEffect
  rw [segment_positioned, hes, hsi, hdi, read_ax_positioned]
  dsimp only
  cases op with
  | input => rfl
  | output => rfl
  | move =>
    dsimp only
    rw [advanced_positioned _ _ _ _ (by decide), advanced_positioned _ _ _ _ (by decide)]
  | compare =>
    dsimp only
    rw [compared_positioned, advanced_positioned _ _ _ _ (by decide),
      advanced_positioned _ _ _ _ (by decide)]
  | store =>
    dsimp only
    rw [advanced_positioned _ _ _ _ (by decide)]
  | load =>
    dsimp only
    rw [write_ax_positioned, advanced_positioned _ _ _ _ (by decide)]
  | scan =>
    dsimp only
    rw [compared_positioned, advanced_positioned _ _ _ _ (by decide)]

theorem elementEffect_segment (j : Segment) :
    (elementEffect i w op r m).1.segment j = r.segment j := by
  cases op <;> cases w <;> cases j <;> rfl

theorem elementEffect_direction :
    (elementEffect i w op r m).1.flags.direction = r.flags.direction := by
  cases op <;> cases w <;> rfl

theorem elementEffect_trap : (elementEffect i w op r m).1.flags.trap = r.flags.trap := by
  cases op <;> cases w <;> rfl

theorem elementEffect_interrupt :
    (elementEffect i w op r m).1.flags.interrupt = r.flags.interrupt := by
  cases op <;> cases w <;> rfl

theorem elementEffect_size : (elementEffect i w op r m).2.size = m.size := by
  cases op <;> simp [elementEffect]

/-- An element changes no byte but those it writes. -/
theorem peek_elementEffect {a : UInt32}
    (h : op.writes = true → ∀ j < w.bytes, linear r.es (r.word .di + UInt16.ofNat j) ≠ a) :
    (elementEffect i w op r m).2.peek a = m.peek a := by
  cases op with
  | move => exact Memory.peek_store_of_ne m _ (h rfl)
  | store => exact Memory.peek_store_of_ne m _ (h rfl)
  | _ => rfl

theorem elementEffect_index {j : Reg} (hj : j = .si ∨ j = .di) (ho : op.internal = true) :
    (elementEffect i w op r m).1.word j = if op.uses j then r.past j w 1 else r.word j := by
  have hne : Reg.si ≠ .di := by decide
  have hsi : ∀ r : Registers, ((r.advanced .si w).advanced .di w).word .si = r.past .si w 1 :=
    fun r => (word_advanced_of_ne _ w hne).trans (word_advanced r w .si)
  have hdi : ∀ r : Registers, ((r.advanced .si w).advanced .di w).word .di = r.past .di w 1 :=
    fun r => (word_advanced _ w .di).trans (past_advanced_of_ne r w hne.symm 1)
  cases op with
  | input => cases ho
  | output => cases ho
  | move =>
    rcases hj with rfl | rfl
    · exact hsi r
    · exact hdi r
  | compare =>
    rcases hj with rfl | rfl
    · exact (hsi _).trans (past_compared r w _ _ _ 1)
    · exact (hdi _).trans (past_compared r w _ _ _ 1)
  | store =>
    rcases hj with rfl | rfl
    · exact word_advanced_of_ne r w hne
    · exact word_advanced r w .di
  | load =>
    rcases hj with rfl | rfl
    · exact (word_advanced _ w .si).trans (past_write_ax r w _ (by decide) 1)
    · exact (word_advanced_of_ne _ w hne.symm).trans (word_write_ax r w _ (by decide))
  | scan =>
    rcases hj with rfl | rfl
    · exact word_advanced_of_ne _ w hne
    · exact (word_advanced _ w .di).trans (past_compared r w _ _ _ 1)

end Effect

section Run

variable {δ : Type} [Peripheral δ] {s : System (Board δ)}

def withEffect (s : System (Board δ)) (e : Registers × Memory) : System (Board δ) :=
  withMemory (withRegisters s e.1) e.2

/-- An element always succeeds, and does nothing but its effect. -/
theorem run_element (h : Roomy s) (w : Width) {op : StringOperation} (ho : op.internal = true) :
    element w op s =
      .ok () (withEffect s (elementEffect (s.cpu.prefixes.segmentOr .ds) w op s.cpu.registers
        s.bus.memory)) := by
  have hs : readElement w s = .ok _ s := run_readMemory h (s.cpu.prefixes.segmentOr .ds) _ w
  have ht : readTarget w s = .ok _ s := run_readMemory h .es _ w
  have hw : ∀ v, writeTarget w v s = .ok () _ := fun v => run_writeMemory h .es _ w v
  cases op with
  | input => cases ho
  | output => cases ho
  | move =>
    rw [element, bind_ok _ hs, bind_ok _ (hw _)]
    rfl
  | compare =>
    rw [element, bind_ok _ hs, bind_ok _ ht]
    rfl
  | store =>
    rw [element, run_registers, bind_ok _ (hw _)]
    rfl
  | load =>
    rw [element, bind_ok _ hs]
    rfl
  | scan =>
    rw [element, bind_ok _ ht]
    rfl

end Run

end Pc8086.Cpu

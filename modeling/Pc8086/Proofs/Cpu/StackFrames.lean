import Pc8086.Proofs.Cpu.PushedValues
import Pc8086.Proofs.Cpu.SegmentedAccess

namespace Pc8086

theorem apart_below (p : UInt16) {a b : Nat} (ha : 2 ≤ a) (hb : 2 ≤ b) (ha' : a < 0x10000)
    (hb' : b < 0x10000) (h : a + 2 ≤ b ∨ b + 2 ≤ a) :
    ∀ i < 2, ∀ j < 2, below p b + UInt16.ofNat j ≠ below p a + UInt16.ofNat i := by
  intro i hi j hj
  rw [below_add p (by omega), below_add p (by omega)]
  exact below_ne_below p (by omega) (by omega) (by omega)

namespace Memory

variable {m : Memory} {base : UInt16}

theorem load_word (m : Memory) (base offset : UInt16) :
    m.load base offset 2 = (m.word base offset).toUInt32 := by
  have hlt := m.load_lt base offset (n := 2) (by decide)
  apply UInt32.toNat_inj.1
  rw [← load_two, UInt16.toNat_toUInt32, UInt32.toNat_toUInt16]
  exact (Nat.mod_eq_of_lt hlt).symm

/-- The memory after `n` words below the outer frame have been pushed below the frame. Each is read
when its turn comes, so it may be one of those pushed before. -/
def copied (m : Memory) (base outer frame : UInt16) : Nat → Memory
  | 0 => m
  | n + 1 =>
    let m := m.copied base outer frame n
    m.store base (below frame (2 * (n + 1)))
      (m.word base (below outer (2 * (n + 1)))).toUInt32 2

/-- The memory after a frame has been built: the old frame pointer, the words that are copied, and
on all levels but 0 the address of the frame. -/
def entered (m : Memory) (base sp outer : UInt16) : Nat → Memory
  | 0 => m.store base (below sp 2) outer.toUInt32 2
  | n + 1 =>
    ((m.store base (below sp 2) outer.toUInt32 2).copied base outer (below sp 2) n).store base
      (below (below sp 2) (2 * (n + 1))) (below sp 2).toUInt32 2

@[simp] theorem size_copied (m : Memory) (base outer frame : UInt16) (n : Nat) :
    (m.copied base outer frame n).size = m.size := by
  induction n with
  | zero => rfl
  | succ n ih => rw [copied, size_store, ih]

@[simp] theorem size_entered (m : Memory) (base sp outer : UInt16) (n : Nat) :
    (m.entered base sp outer n).size = m.size := by
  cases n with
  | zero => exact size_store ..
  | succ n => rw [entered, size_store, size_copied, size_store]

/-- Copying goes on below the words that were copied. -/
theorem word_copied_of_above (m : Memory) {p outer frame : UInt16} {n : Nat}
    (h : ∀ k < n, ∀ i < 2, ∀ j < 2,
      below frame (2 * (k + 1)) + UInt16.ofNat j ≠ p + UInt16.ofNat i) :
    (m.copied base outer frame n).word base p = m.word base p := by
  induction n with
  | zero => rfl
  | succ n ih =>
    rw [copied, word_store_of_apart _ _ (h n n.lt_succ_self),
      ih fun k hk => h k (Nat.lt_succ_of_lt hk)]

/-- Every word that was copied is the one that was found at its turn. -/
theorem word_copied (hm : 0x100000 ≤ m.size) {outer frame : UInt16} {k n : Nat} (hk : k < n)
    (hn : 2 * n < 0x10000) :
    (m.copied base outer frame n).word base (below frame (2 * (k + 1))) =
      (m.copied base outer frame k).word base (below outer (2 * (k + 1))) := by
  induction n with
  | zero => exact absurd hk (Nat.not_lt_zero k)
  | succ n ih =>
    rcases Nat.lt_succ_iff_lt_or_eq.1 hk with hlt | rfl
    · rw [copied, word_store_of_apart, ih hlt (by omega)]
      exact apart_below frame (by omega) (by omega) (by omega) (by omega) (by omega)
    · rw [copied, word_store (by rwa [size_copied])]

end Memory

structure FrameBuilt (before after : Memory) (base sp outer : UInt16) (level : Nat) : Prop where
  saved : after.word base (below sp 2) = outer
  copied : ∀ k, k + 1 < level →
    after.word base (below (below sp 2) (2 * (k + 1))) =
      ((before.store base (below sp 2) outer.toUInt32 2).copied base outer (below sp 2) k).word base
        (below outer (2 * (k + 1)))
  pointer : 0 < level → after.word base (below (below sp 2) (2 * level)) = below sp 2

theorem frameBuilt_entered {m : Memory} (hm : 0x100000 ≤ m.size) (base sp outer : UInt16)
    {level : Nat} (hlevel : level < 0x100) :
    FrameBuilt m (m.entered base sp outer level) base sp outer level := by
  have hsaved := Memory.word_store hm base (below sp 2) outer
  cases level with
  | zero => exact ⟨hsaved, fun k hk => absurd hk (Nat.not_lt_zero _), fun h => absurd h (by decide)⟩
  | succ n =>
    -- the frame pointer's address lies two bytes above what is pushed below it
    have habove : ∀ k < n + 1, ∀ i < 2, ∀ j < 2,
        below (below sp 2) (2 * (k + 1)) + UInt16.ofNat j ≠ below sp 2 + UInt16.ofNat i := by
      intro k hk
      rw [below_below]
      exact apart_below sp (by decide) (by omega) (by decide) (by omega) (by omega)
    have hroom : 0x100000 ≤ (m.store base (below sp 2) outer.toUInt32 2).size := by
      rwa [Memory.size_store]
    constructor
    · rw [Memory.entered, Memory.word_store_of_apart _ _ (habove n n.lt_succ_self),
        Memory.word_copied_of_above _ fun k hk => habove k (by omega), hsaved]
    · intro k hk
      have hkn : k < n := Nat.lt_of_succ_lt_succ hk
      rw [Memory.entered, Memory.word_store_of_apart, Memory.word_copied hroom hkn (by omega)]
      exact apart_below _ (by omega) (by omega) (by omega) (by omega) (by omega)
    · intro _
      rw [Memory.entered, Memory.word_store (by rwa [Memory.size_copied])]

namespace Cpu

open Exec

variable {δ : Type} [Peripheral δ] {s : System (Board δ)}

theorem run_copyFrame {m : Memory} (hm : 0x100000 ≤ m.size) (r : Registers)
    (outer frame : UInt16) (k n : Nat) :
    copyFrame (below outer (2 * k)) n
      (withRegisters (withMemory s (m.copied r.ss outer frame k))
        (r.setWord .sp (below frame (2 * k)))) =
    .ok () (withRegisters (withMemory s (m.copied r.ss outer frame (k + n)))
      (r.setWord .sp (below frame (2 * (k + n))))) := by
  induction n generalizing k with
  | zero => rfl
  | succ n ih =>
    let mk := m.copied r.ss outer frame k
    have hroom : 0x100000 ≤ mk.size := by rwa [Memory.size_copied]
    have hnext : ∀ p, below p (2 * k) - 2 = below p (2 * (k + 1)) := fun p => below_below p _ 2
    have hread := run_readMemory
      (s := withRegisters (withMemory s mk) (r.setWord .sp (below frame (2 * k)))) hroom .ss
      (below outer (2 * (k + 1))) .word
    have hpush := run_push_at (s := s) hroom r .word
      (mk.word r.ss (below outer (2 * (k + 1)))).toUInt32 (hnext frame)
    have hrest := ih (k + 1)
    rw [Nat.add_right_comm, Nat.add_assoc] at hrest
    unfold copyFrame
    rw [hnext]
    refine (bind_ok _ hread).trans ?_
    rw [show Width.word.bytes = 2 from rfl, Memory.load_word]
    exact (bind_ok _ hpush).trans hrest

omit [Peripheral δ] in
theorem run_settle (r : Registers) (m : Memory) (frame p size : UInt16) :
    (do
      modifyRegisters fun q => q.setWord .bp frame
      modifyRegisters fun q => q.setWord .sp (q.word .sp - size) : Exec (Board δ) Unit)
      (withRegisters (withMemory s m) (r.setWord .sp p)) =
      .ok () (withRegisters (withMemory s m) ((r.setWord .bp frame).setWord .sp (p - size))) := by
  have hcomm : (r.setWord .sp p).setWord .bp frame = (r.setWord .bp frame).setWord .sp p := rfl
  have hregisters : ((r.setWord .sp p).setWord .bp frame).setWord .sp
      (((r.setWord .sp p).setWord .bp frame).word .sp - size) =
        (r.setWord .bp frame).setWord .sp (p - size) := by
    rw [hcomm, Registers.word_setWord, Registers.setWord_setWord]
  exact congrArg (fun q => EStateM.Result.ok () (withRegisters (withMemory s m) q)) hregisters

/-- A frame is built: BP points to the old one's address, and SP lies below the new one. -/
theorem run_enter (h : Roomy s) (size : UInt16) (level : UInt8) :
    let r := s.cpu.registers
    let frame := below (r.word .sp) 2
    enter size level s = .ok ()
      (withRegisters
        (withMemory s (s.bus.memory.entered r.ss (r.word .sp) (r.word .bp) level.toNat))
        ((r.setWord .bp frame).setWord .sp (below frame (2 * level.toNat) - size))) := by
  intro r frame
  generalize hm : s.bus.memory.store r.ss frame (r.word .bp).toUInt32 2 = m
  have hroom : 0x100000 ≤ m.size := by
    rw [← hm, Memory.size_store]
    exact h
  have hsaved : pushWord (r.word .bp) s =
      .ok () (withRegisters (withMemory s m) (r.setWord .sp frame)) :=
    hm ▸ run_pushWord h (r.word .bp) rfl
  have hframe : (withRegisters (withMemory s m) (r.setWord .sp frame)).cpu.registers.word .sp =
      frame := r.word_setWord .sp frame
  unfold enter
  rw [run_registers]
  refine (bind_ok _ hsaved).trans ?_
  rw [run_registers, hframe]
  -- a nested level copies the frames and pushes the new one; level zero saves BP alone
  by_cases hlevel : level > 0
  · obtain ⟨n, hn⟩ : ∃ n, level.toNat = n + 1 :=
      Nat.exists_eq_add_one.2 (UInt8.lt_iff_toNat_lt.1 hlevel)
    have hcopy := run_copyFrame (s := s) hroom r (r.word .bp) frame 0 n
    rw [Nat.mul_zero, below_zero, below_zero, Nat.zero_add] at hcopy
    have hpush := run_pushWord_at (s := s) (m := m.copied r.ss (r.word .bp) frame n)
      (by rwa [Memory.size_copied]) r frame (below_below frame (2 * n) 2)
    rw [if_pos hlevel, hn, Memory.entered, hm]
    exact (bind_ok _ hcopy).trans ((bind_ok _ hpush).trans (run_settle r _ frame _ size))
  · have hn : level.toNat = 0 :=
      Nat.eq_zero_of_not_pos fun h => hlevel (UInt8.lt_iff_toNat_lt.2 h)
    rw [if_neg hlevel, hn, Nat.mul_zero, below_zero, Memory.entered, hm]
    exact run_settle r m frame frame size

/-- BP leads back to the word that was saved there. -/
theorem run_leave (h : Roomy s) :
    let r := s.cpu.registers
    leave s = .ok () (withRegisters s
      ((r.setWord .sp (r.word .bp + 2)).setWord .bp (s.bus.memory.word r.ss (r.word .bp)))) := by
  intro r
  have hdrop : modifyRegisters (fun q => q.setWord .sp (q.word .bp)) s =
      .ok () (withRegisters s (r.setWord .sp (r.word .bp))) := rfl
  have hpop := run_popWord_at h r (rfl : r.word .bp + 2 = _)
  exact (bind_ok _ hdrop).trans (bind_ok _ hpop)

end Cpu

end Pc8086

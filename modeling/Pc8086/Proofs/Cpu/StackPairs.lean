import Pc8086.Proofs.Cpu.CodeLength
import Pc8086.Proofs.Cpu.PushEncodings
import Pc8086.Proofs.Cpu.StackFrames

namespace Pc8086.Cpu

open Exec

variable {δ : Type}

def Source.value (r : Registers) (m : Memory) (w : Width) : Source → UInt32
  | .immediate v => w.truncate v
  | .place (.register i) => r.read w i
  | .place (.memory l) => m.load (r.segment l.segment) l.offset w.bytes

/-- The instruction pushes a value. A word of the stack pointer itself may go there lowered. -/
inductive Pushes (r : Registers) (m : Memory) : Instruction → Width → UInt32 → Prop
  | source (w : Width) (source : Source) :
    Pushes r m (.push w source) w (source.value r m w)
  | register {w : Width} {i : Reg} (h : ¬(w = .word ∧ i = .sp)) :
    Pushes r m (.pushRegister w i) w (r.read w i)
  | stackPointer : Pushes r m (.pushRegister .word .sp) .word (r.word .sp - 2).toUInt32
  | segment (i : Segment) : Pushes r m (.pushSegment i) .word (r.segment i).toUInt32

/-- The instruction pops a value into a register other than the stack pointer. -/
inductive PopsInto : Width → Instruction → (UInt32 → Registers → Registers) → Prop
  | register (w : Width) {i : Reg} (h : i ≠ .sp) :
    PopsInto w (.pop w (.register i)) fun v r => r.write w i v
  | segment (i : Segment) : PopsInto .word (.popSegment i) fun v r => r.setSegment i v.toUInt16

def Instruction.isNearCall : Instruction → Bool
  | .callRelative _ | .call _ => true
  | _ => false

def Instruction.isFarCall : Instruction → Bool
  | .callFar _ | .callFarIndirect _ => true
  | _ => false

theorem Instruction.not_isNearCall {i : Instruction} (h : i.isFarCall = true) :
    i.isNearCall = false := by
  unfold isFarCall at h
  split at h
  · rfl
  · rfl
  · cases h

/-- The first instruction puts `n` bytes on the stack, to which a register then points. The second
one takes them off, and this is what it makes of the registers. When the first one is carried out,
they are `r`, and the instruction pointer has moved on. -/
inductive Pairs (r : Registers) (m : Memory) :
    Instruction → Reg → Nat → Instruction → (Registers → Registers) → Prop
  | pop {i j : Instruction} {w : Width} {v : UInt32} {put : UInt32 → Registers → Registers}
    (hi : Pushes r m i w v) (hj : PopsInto w j put) :
    Pairs r m i .sp w.bytes j fun q => put v (q.setWord .sp (r.word .sp))
  | popAll (w : Width) :
    Pairs r m (.pushAll w) .sp (w.bytes * 8) (.popAll w) fun q =>
      (Registers.restored w r Reg.all.reverse q).setWord .sp (r.word .sp)
  | returnNear {i : Instruction} (hi : i.isNearCall = true) (release : UInt16) :
    Pairs r m i .sp 2 (.returnNear release) fun q =>
      Registers.setWord { q with ip := r.ip } .sp (r.word .sp + release)
  | returnFar {i : Instruction} (hi : i.isFarCall = true) (release : UInt16) :
    Pairs r m i .sp 4 (.returnFar release) fun q =>
      Registers.setWord { q with ip := r.ip, cs := r.cs } .sp (r.word .sp + release)
  | leave (size : UInt16) (level : UInt8) :
    Pairs r m (.enter size level) .bp 2 .leave fun q =>
      (q.setWord .sp (r.word .sp)).setWord .bp (r.word .bp)

section Runs

variable [Peripheral δ] {s t u : System (Board δ)} {i j : Instruction} {w : Width} {v : UInt32}

/-- In the second state the stack segment, the pointer and `n` bytes are as in the first. -/
structure Preserved (pointer : Reg) (n : Nat) (t u : System (Board δ)) : Prop where
  roomy : Roomy u
  ss : u.cpu.registers.ss = t.cpu.registers.ss
  top : u.cpu.registers.word pointer = t.cpu.registers.word pointer
  bytes : ∀ k < n,
    let a := linear t.cpu.registers.ss (t.cpu.registers.word pointer + UInt16.ofNat k)
    u.bus.memory.peek a = t.bus.memory.peek a

theorem readSource_value (h : Roomy s) (w : Width) (source : Source) :
    readSource w source s =
      .ok (source.value s.cpu.registers s.bus.memory w) s := by
  match source with
  | .immediate _ => rfl
  | .place (.register _) => rfl
  | .place (.memory l) => exact run_readMemory h l.segment l.offset w

theorem truncate_load (m : Memory) (base offset : UInt16) (w : Width) :
    w.truncate (m.load base offset w.bytes) = m.load base offset w.bytes := by
  have hlt := m.load_lt base offset w.bytes_le
  apply UInt32.toNat_inj.1
  rw [w.toNat_truncate, w.toNat_eq_self]
  cases w <;> exact hlt

theorem truncate_word (v : UInt16) : Width.word.truncate v.toUInt32 = v.toUInt32 := by
  apply UInt32.toNat_inj.1
  rw [Width.toNat_truncate, Width.toNat_eq_self]
  exact v.toNat_lt

theorem Pushes.truncate {r : Registers} {m : Memory} (h : Pushes r m i w v) : w.truncate v = v := by
  cases h with
  | source w source =>
    match source with
    | .immediate v => exact truncate_truncate w v
    | .place (.register i) => exact r.truncate_read w i
    | .place (.memory l) => exact truncate_load m (r.segment l.segment) l.offset w
  | register h => exact r.truncate_read w _
  | stackPointer => exact truncate_word _
  | segment i => exact truncate_word _

theorem Pushes.run (hs : Roomy s) (h : Pushes s.cpu.registers s.bus.memory i w v) :
    let r := s.cpu.registers
    let sp := below (r.word .sp) w.bytes
    execute i s = .ok ()
      (withRegisters (withMemory s (s.bus.memory.store r.ss sp v w.bytes)) (r.setWord .sp sp)) := by
  intro r sp
  have hpush := fun v => run_push hs w v (below_bytes (r.word .sp) w)
  cases h with
  | source w source =>
    have hexecute : execute (.push w source) =
        (readSource w source >>= push w : Exec (Board δ) Unit) := rfl
    rw [hexecute, bind_ok _ (readSource_value hs w source)]
    exact hpush _
  | @register w i h =>
    have hexecute : execute (.push w (.register i)) =
        (Exec.registers >>= fun r => push w (r.read w i) : Exec (Board δ) Unit) := rfl
    rw [execute_pushRegister h, hexecute, run_registers]
    exact hpush _
  | stackPointer =>
    have hexecute : execute (.pushRegister .word .sp) =
        (Exec.registers >>= fun r => push .word (r.word .sp - 2).toUInt32 :
          Exec (Board δ) Unit) := rfl
    rw [hexecute, run_registers]
    exact hpush _
  | segment i =>
    have hexecute : execute (.pushSegment i) =
        (Exec.registers >>= fun r => push .word (r.segment i).toUInt32 : Exec (Board δ) Unit) := rfl
    rw [hexecute, run_registers]
    exact hpush _

theorem PopsInto.run (hs : Roomy s) {put : UInt32 → Registers → Registers} (h : PopsInto w j put) :
    let r := s.cpu.registers
    execute j s = .ok () (withRegisters s (put (s.bus.memory.load r.ss (r.word .sp) w.bytes)
      (r.setWord .sp (r.word .sp + w.bytes.toUInt16)))) := by
  intro r
  have hpop := run_pop hs w
  dsimp only at hpop
  generalize s.bus.memory.load r.ss (r.word .sp) w.bytes = v at hpop ⊢
  cases h with
  | @register w i h =>
    have hexecute : execute (.pop w (.register i)) =
        (pop w >>= fun v => writePlace w v (.register i) : Exec (Board δ) Unit) := rfl
    rw [hexecute, bind_ok _ hpop]
    rfl
  | segment i =>
    have hexecute : execute (.popSegment i) =
        (popWord >>= fun v => modifyRegisters fun r => r.setSegment i v : Exec (Board δ) Unit) := rfl
    rw [hexecute, popWord, bind_assoc, bind_ok _ hpop]
    rfl

theorem run_callRelative (hs : Roomy s) (distance : UInt16) :
    let r := s.cpu.registers
    let sp := below (r.word .sp) 2
    execute (.callRelative distance) s = .ok ()
      (withRegisters (withMemory s (s.bus.memory.store r.ss sp r.ip.toUInt32 2))
        (Registers.setWord { r with ip := r.ip + distance } .sp sp)) := by
  intro r sp
  have hexecute : execute (.callRelative distance) = (do
      pushWord (← Exec.registers).ip
      jumpBy distance : Exec (Board δ) Unit) := rfl
  rw [hexecute, run_registers, bind_ok _ (run_pushWord hs r.ip rfl)]
  rfl

/-- A near call leaves the address of the next instruction. -/
theorem run_nearCall (hs : Roomy s) (h : i.isNearCall = true) :
    let r := s.cpu.registers
    let sp := below (r.word .sp) 2
    ∃ target, execute i s = .ok ()
      (withRegisters (withMemory s (s.bus.memory.store r.ss sp r.ip.toUInt32 2))
        (Registers.setWord { r with ip := target } .sp sp)) := by
  intro r sp
  unfold Instruction.isNearCall at h
  split at h
  · next distance => exact ⟨r.ip + distance, run_callRelative hs distance⟩
  · next target =>
    have hexecute : execute (.call target) = (do
        let v ← readPlace .word target
        pushWord (← Exec.registers).ip
        jumpTo v.toUInt16 : Exec (Board δ) Unit) := rfl
    let v := (Source.place target).value r s.bus.memory .word
    have hread : readPlace .word target s = .ok v s := readSource_value hs .word (.place target)
    refine ⟨v.toUInt16, ?_⟩
    rw [hexecute, bind_ok _ hread, run_registers, bind_ok _ (run_pushWord hs r.ip rfl)]
    rfl
  · cases h

omit [Peripheral δ] in
theorem run_releaseStack (r : Registers) (p release : UInt16) :
    releaseStack release (withRegisters s (r.setWord .sp p)) =
      .ok () (withRegisters s (r.setWord .sp (p + release))) := by
  have hregisters : (r.setWord .sp p).setWord .sp ((r.setWord .sp p).word .sp + release) =
      r.setWord .sp (p + release) := by
    rw [Registers.word_setWord, Registers.setWord_setWord]
  exact congrArg (fun q => EStateM.Result.ok () (withRegisters s q)) hregisters

theorem run_returnNear (hs : Roomy s) (release : UInt16) :
    let r := s.cpu.registers
    execute (.returnNear release) s = .ok () (withRegisters s
      (Registers.setWord { r with ip := s.bus.memory.word r.ss (r.word .sp) } .sp
        (r.word .sp + 2 + release))) := by
  intro r
  have hexecute : execute (.returnNear release) = (do
      jumpTo (← popWord)
      releaseStack release : Exec (Board δ) Unit) := rfl
  have hpop := run_popWord hs
  dsimp only at hpop
  generalize s.bus.memory.word r.ss (r.word .sp) = ip at hpop ⊢
  have hjump : jumpTo ip (withRegisters s (r.setWord .sp (r.word .sp + 2))) =
      .ok () (withRegisters s (Registers.setWord { r with ip := ip } .sp (r.word .sp + 2))) := rfl
  rw [hexecute, bind_ok _ hpop, bind_ok _ hjump, run_releaseStack]

theorem run_callFar (hs : Roomy s) (a : SegmentedAddress) :
    let r := s.cpu.registers
    let sp := below (r.word .sp) 4
    let m := s.bus.memory.store r.ss (below (r.word .sp) 2) r.cs.toUInt32 2
    callFar a s = .ok () (withRegisters (withMemory s (m.store r.ss sp r.ip.toUInt32 2))
      (Registers.setWord { r with cs := a.segment, ip := a.offset } .sp sp)) := by
  intro r sp m
  have hm : 0x100000 ≤ m.size := (Memory.size_store ..).symm ▸ hs
  have hcs : pushWord r.cs s =
      .ok () (withRegisters (withMemory s m) (r.setWord .sp (below (r.word .sp) 2))) :=
    run_pushWord hs r.cs rfl
  have hip := run_pushWord_at (s := s) hm r r.ip (below_below (r.word .sp) 2 2)
  unfold callFar
  rw [run_registers]
  refine (bind_ok _ hcs).trans ?_
  rw [run_registers]
  exact (bind_ok _ hip).trans rfl

theorem run_farCall (hs : Roomy s) (h : i.isFarCall = true) :
    ∃ a, execute i s = callFar a s := by
  unfold Instruction.isFarCall at h
  split at h
  · next a => exact ⟨a, rfl⟩
  · next l =>
    have hexecute : execute (.callFarIndirect l) =
        (readFarPointer l >>= callFar : Exec (Board δ) Unit) := rfl
    have hoffset := run_readMemory hs l.segment l.offset .word
    have hsegment := run_readMemory hs l.segment (l.offset + 2) .word
    rw [hexecute, readFarPointer, bind_assoc, bind_ok _ hoffset, bind_assoc, bind_ok _ hsegment]
    exact ⟨_, rfl⟩
  · cases h

theorem run_returnFar (hs : Roomy s) (release : UInt16) :
    let r := s.cpu.registers
    execute (.returnFar release) s = .ok () (withRegisters s
      (Registers.setWord
        { r with
          ip := s.bus.memory.word r.ss (r.word .sp)
          cs := s.bus.memory.word r.ss (r.word .sp + 2) } .sp (r.word .sp + 4 + release))) := by
  intro r
  have hexecute : execute (.returnFar release) = (do
      jumpTo (← popWord)
      let cs ← popWord
      modifyRegisters fun r => { r with cs := cs }
      releaseStack release : Exec (Board δ) Unit) := rfl
  have hsum : r.word .sp + 2 + 2 = r.word .sp + 4 := UInt16.add_assoc _ 2 2
  have hip := run_popWord hs
  dsimp only at hip
  generalize s.bus.memory.word r.ss (r.word .sp) = ip at hip ⊢
  have hjump : jumpTo ip (withRegisters s (r.setWord .sp (r.word .sp + 2))) =
      .ok () (withRegisters s (Registers.setWord { r with ip := ip } .sp (r.word .sp + 2))) := rfl
  have hcs := run_popWord_at hs { r with ip := ip } hsum
  dsimp only at hcs
  generalize s.bus.memory.word r.ss (r.word .sp + 2) = cs at hcs ⊢
  have hsegment : modifyRegisters (fun r => { r with cs := cs })
      (withRegisters s (Registers.setWord { r with ip := ip } .sp (r.word .sp + 4))) =
      .ok () (withRegisters s
        (Registers.setWord { r with ip := ip, cs := cs } .sp (r.word .sp + 4))) := rfl
  rw [hexecute, bind_ok _ hip, bind_ok _ hjump, bind_ok _ hcs, bind_ok _ hsegment,
    run_releaseStack]

end Runs

section Preservation

variable {s t u : System (Board δ)} {pointer : Reg} {n : Nat} {m : Memory} {r : Registers}
  {p : UInt16}

theorem Preserved.moved (h : Preserved pointer n t s) {ip : UInt16}
    (hr : u.cpu.registers = { s.cpu.registers with ip := ip }) (hb : u.bus = s.bus) :
    Preserved pointer n t u := by
  have hword : u.cpu.registers.word pointer = s.cpu.registers.word pointer := by
    rw [hr]
    cases pointer <;> rfl
  refine ⟨?_, ?_, hword.trans h.top, ?_⟩
  · unfold Roomy
    rw [hb]
    exact h.roomy
  · rw [hr]
    exact h.ss
  · rw [hb]
    exact h.bytes

theorem Preserved.load (h : Preserved pointer n (withRegisters (withMemory s m) r) u)
    (hp : r.word pointer = p) {k l : Nat} (hk : k + l ≤ n) :
    u.bus.memory.load u.cpu.registers.ss (p + UInt16.ofNat k) l =
      m.load r.ss (p + UInt16.ofNat k) l := by
  have hss : u.cpu.registers.ss = r.ss := h.ss
  rw [hss]
  refine Memory.load_congr fun a ha => ?_
  have hbyte := h.bytes (k + a) (by omega)
  dsimp only [withRegisters] at hbyte
  rw [hp, UInt16.ofNat_add, ← UInt16.add_assoc] at hbyte
  exact hbyte

theorem Preserved.word (h : Preserved pointer n (withRegisters (withMemory s m) r) u)
    (hp : r.word pointer = p) {k : Nat} (hk : k + 2 ≤ n) :
    u.bus.memory.word u.cpu.registers.ss (p + UInt16.ofNat k) =
      m.word r.ss (p + UInt16.ofNat k) := by
  rw [← Memory.load_two, ← Memory.load_two, h.load hp hk]

end Preservation

section Restoring

variable [Peripheral δ] {s t u : System (Board δ)} {i j : Instruction} {w : Width} {v : UInt32}
  {m : Memory}

/-- Wherever what lies on the stack is preserved, the instruction makes this of the registers. -/
def Restores (t : System (Board δ)) (pointer : Reg) (n : Nat) (j : Instruction)
    (f : Registers → Registers) : Prop :=
  ∀ u, Preserved pointer n t u → execute j u = .ok () (withRegisters u (f u.cpu.registers))

theorem PopsInto.restores {put : UInt32 → Registers → Registers} (hj : PopsInto w j put)
    (hm : 0x100000 ≤ m.size) (hv : w.truncate v = v) (r : Registers) (p : UInt16) :
    Restores
      (withRegisters (withMemory s (m.store r.ss (below p w.bytes) v w.bytes))
        (r.setWord .sp (below p w.bytes)))
      .sp w.bytes j fun q => put v (q.setWord .sp p) := by
  intro u hu
  have hword := r.word_setWord .sp (below p w.bytes)
  have htop : u.cpu.registers.word .sp = below p w.bytes := hu.top.trans hword
  have hspans := Memory.spans_of_size hm r.ss (below p w.bytes) w.bytes
  have hss : (r.setWord .sp (below p w.bytes)).ss = r.ss := rfl
  have hload := hu.load hword (k := 0) (l := w.bytes) (by omega)
  rw [add_ofNat_zero, hss, Memory.load_store hspans, hv] at hload
  have hsum : below p w.bytes + w.bytes.toUInt16 = p := UInt16.sub_add_cancel p _
  have hrun := hj.run hu.roomy
  dsimp only at hrun
  rw [htop, hload, hsum] at hrun
  exact hrun

theorem popAll_restores (hm : 0x100000 ≤ m.size) (w : Width) (r : Registers) (p : UInt16) :
    Restores
      (withRegisters (withMemory s (m.pushed r.ss w.bytes p (Reg.all.map (r.read w))))
        (r.setWord .sp (below p (w.bytes * 8))))
      .sp (w.bytes * 8) (.popAll w) fun q =>
        (Registers.restored w r Reg.all.reverse q).setWord .sp p := by
  intro u hu
  have hword := r.word_setWord .sp (below p (w.bytes * 8))
  refine run_popAll hu.roomy w (hu.top.trans hword) fun k hk => ?_
  have hbytes := w.bytes_le
  have hk8 : w.bytes * (k + 1) ≤ w.bytes * 8 := Nat.mul_le_mul_left _ hk
  have hk1 : w.bytes ≤ w.bytes * (k + 1) := Nat.le_mul_of_pos_right _ k.succ_pos
  have hload := hu.load hword (k := w.bytes * 8 - w.bytes * (k + 1)) (l := w.bytes) (by omega)
  let vs := Reg.all.map (r.read w)
  have hsize : w.bytes * vs.length < 0x10000 := by
    change w.bytes * 8 < _
    omega
  have hpushed : (m.pushed r.ss w.bytes p vs).load r.ss (below p (w.bytes * (k + 1))) w.bytes =
      w.truncate (r.read w Reg.all[k]) := by
    rw [Memory.load_pushed hm hsize (by rwa [List.length_map]), List.getElem_map]
  have hss : (r.setWord .sp (below p (w.bytes * 8))).ss = r.ss := rfl
  rw [below_add p (Nat.sub_le _ _), Nat.sub_sub_self hk8, hss, hpushed, r.truncate_read] at hload
  exact hload

theorem returnNear_restores (hm : 0x100000 ≤ m.size) (r q : Registers) (hq : q.ss = r.ss)
    (p release : UInt16) :
    Restores
      (withRegisters (withMemory s (m.store r.ss (below p 2) r.ip.toUInt32 2))
        (q.setWord .sp (below p 2)))
      .sp 2 (.returnNear release) fun q =>
        Registers.setWord { q with ip := r.ip } .sp (p + release) := by
  intro u hu
  have hword := q.word_setWord .sp (below p 2)
  have htop : u.cpu.registers.word .sp = below p 2 := hu.top.trans hword
  have hip := hu.word hword (k := 0) (by decide)
  have hss : (q.setWord .sp (below p 2)).ss = r.ss := hq
  rw [add_ofNat_zero, hss, Memory.word_store hm] at hip
  have hsum : below p 2 + 2 = p := UInt16.sub_add_cancel p 2
  have hrun := run_returnNear hu.roomy release
  dsimp only at hrun
  rw [htop, hip, hsum] at hrun
  exact hrun

theorem returnFar_restores (hm : 0x100000 ≤ m.size) (r q : Registers) (hq : q.ss = r.ss)
    (p release : UInt16) :
    Restores
      (withRegisters (withMemory s ((m.store r.ss (below p 2) r.cs.toUInt32 2).store r.ss
        (below p 4) r.ip.toUInt32 2)) (q.setWord .sp (below p 4)))
      .sp 4 (.returnFar release) fun q =>
        Registers.setWord { q with ip := r.ip, cs := r.cs } .sp (p + release) := by
  intro u hu
  have hword := q.word_setWord .sp (below p 4)
  have htop : u.cpu.registers.word .sp = below p 4 := hu.top.trans hword
  have hss : (q.setWord .sp (below p 4)).ss = r.ss := hq
  have hip := hu.word hword (k := 0) (by decide)
  rw [add_ofNat_zero, hss, Memory.word_store (by rwa [Memory.size_store])] at hip
  have hcs := hu.word hword (k := 2) (by decide)
  have hapart := apart_below p (a := 2) (b := 4) (by decide) (by decide) (by decide) (by decide)
    (by decide)
  rw [below_add p (by decide), hss, Memory.word_store_of_apart _ _ hapart,
    Memory.word_store hm] at hcs
  have hnext : below p 4 + 2 = below p (4 - 2) := below_add p (b := 2) (by decide)
  have hsum : below p 4 + 4 = p := UInt16.sub_add_cancel p 4
  have hrun := run_returnFar hu.roomy release
  dsimp only at hrun
  rw [htop, hip, hnext, hcs, hsum] at hrun
  exact hrun

theorem leave_restores (hm : 0x100000 ≤ m.size) (r : Registers) (level : UInt8) (sp : UInt16) :
    let p := r.word .sp
    Restores
      (withRegisters (withMemory s (m.entered r.ss p (r.word .bp) level.toNat))
        ((r.setWord .bp (below p 2)).setWord .sp sp))
      .bp 2 .leave fun q => (q.setWord .sp p).setWord .bp (r.word .bp) := by
  intro p u hu
  have hword : ((r.setWord .bp (below p 2)).setWord .sp sp).word .bp = below p 2 :=
    r.word_setWord .bp _
  have htop : u.cpu.registers.word .bp = below p 2 := hu.top.trans hword
  have hss : ((r.setWord .bp (below p 2)).setWord .sp sp).ss = r.ss := rfl
  have hbuilt := frameBuilt_entered hm r.ss p (r.word .bp) level.toNat_lt
  have hsaved := hu.word hword (k := 0) (by decide)
  rw [add_ofNat_zero, hss, hbuilt.saved] at hsaved
  have hsum : below p 2 + 2 = p := UInt16.sub_add_cancel p 2
  have hrun := run_leave hu.roomy
  dsimp only at hrun
  rw [htop, hsaved, hsum] at hrun
  exact hrun

/-- What the first instruction of a pair leaves. The old frame pointer is saved at the top of a new
frame, then come the words below the old frame that are copied and the address of the new one, and
the room that is asked for lies below these. -/
structure LeftBehind (s t : System (Board δ)) (i : Instruction) (pointer : Reg) (n : Nat) : Prop where
  roomy : Roomy t
  ss : t.cpu.registers.ss = s.cpu.registers.ss
  top : pointer = .sp → t.cpu.registers.word .sp = below (s.cpu.registers.word .sp) n
  segment : i.isNearCall = true → t.cpu.registers.cs = s.cpu.registers.cs
  frame : ∀ size level, i = .enter size level →
    let r := s.cpu.registers
    t.cpu.registers.word .bp = below (r.word .sp) 2 ∧
      FrameBuilt s.bus.memory t.bus.memory r.ss (r.word .sp) (r.word .bp) level.toNat ∧
      t.cpu.registers.word .sp = below (t.cpu.registers.word .bp) (2 * level.toNat) - size

omit [Peripheral δ] in
theorem LeftBehind.moved {pointer : Reg} {n : Nat} (h : LeftBehind s t i pointer n) {ip : UInt16}
    (hr : s.cpu.registers = { u.cpu.registers with ip := ip }) (hb : s.bus = u.bus) :
    LeftBehind u t i pointer n := by
  obtain ⟨hroomy, hss, htop, hcs, hframe⟩ := h
  rw [hr] at hss htop hcs hframe
  rw [hb] at hframe
  exact ⟨hroomy, hss, htop, hcs, hframe⟩

omit [Peripheral δ] in
/-- All but a new frame leave nothing but the bytes and a lower stack pointer. -/
theorem leftBehind_lowered (hm : 0x100000 ≤ m.size) {q : Registers} (hss : q.ss = s.cpu.registers.ss)
    (hcs : i.isNearCall = true → q.cs = s.cpu.registers.cs)
    (hi : ∀ size level, i ≠ .enter size level) (n : Nat) :
    LeftBehind s
      (withRegisters (withMemory s m) (q.setWord .sp (below (s.cpu.registers.word .sp) n)))
      i .sp n where
  roomy := hm
  ss := hss
  top _ := q.word_setWord .sp _
  segment := hcs
  frame size level h := absurd h (hi size level)

omit [Peripheral δ] in
theorem leftBehind_entered (hs : Roomy s) (size : UInt16) (level : UInt8) :
    let r := s.cpu.registers
    let frame := below (r.word .sp) 2
    LeftBehind s
      (withRegisters
        (withMemory s (s.bus.memory.entered r.ss (r.word .sp) (r.word .bp) level.toNat))
        ((r.setWord .bp frame).setWord .sp (below frame (2 * level.toNat) - size)))
      (.enter size level) .bp 2 := by
  intro r frame
  let top := below frame (2 * level.toNat) - size
  have hm : 0x100000 ≤
      (s.bus.memory.entered r.ss (r.word .sp) (r.word .bp) level.toNat).size := by
    rwa [Memory.size_entered]
  have hbp : ((r.setWord .bp frame).setWord .sp top).word .bp = frame := r.word_setWord .bp frame
  have hsp : ((r.setWord .bp frame).setWord .sp top).word .sp =
      below (((r.setWord .bp frame).setWord .sp top).word .bp) (2 * level.toNat) - size := by
    rw [Registers.word_setWord, hbp]
  refine ⟨hm, rfl, nofun, fun _ => rfl, fun size' level' h => ?_⟩
  cases h
  exact ⟨hbp, frameBuilt_entered hs _ _ _ level.toNat_lt, hsp⟩

/-- The first instruction succeeds, and the second one takes back what it put on the stack. -/
theorem Pairs.run {pointer : Reg} {n : Nat} {f : Registers → Registers} (hs : Roomy s)
    (h : Pairs s.cpu.registers s.bus.memory i pointer n j f) :
    ∃ t, execute i s = .ok () t ∧ LeftBehind s t i pointer n ∧ Restores t pointer n j f := by
  let r := s.cpu.registers
  -- the second instruction of the pair finds as much memory as the first
  have hstore : ∀ offset v k, 0x100000 ≤ (s.bus.memory.store r.ss offset v k).size :=
    fun offset v k => (Memory.size_store ..).symm ▸ hs
  cases h with
  | @pop i j w v put hi hj =>
    refine ⟨_, hi.run hs, leftBehind_lowered (hstore ..) rfl (fun _ => rfl) ?_ _,
      hj.restores hs hi.truncate r _⟩
    rintro size level rfl
    cases hi
  | popAll w =>
    have hm : 0x100000 ≤ (s.bus.memory.pushed r.ss w.bytes (r.word .sp)
        (Reg.all.map (r.read w))).size := by rwa [Memory.size_pushed]
    refine ⟨_, run_pushAll hs w, leftBehind_lowered hm rfl (fun _ => rfl) ?_ _,
      popAll_restores hs w r _⟩
    rintro size level ⟨⟩
  | returnNear hi release =>
    obtain ⟨target, hcall⟩ := run_nearCall hs hi
    let q : Registers := { r with ip := target }
    refine ⟨_, hcall, leftBehind_lowered (q := q) (hstore ..) rfl (fun _ => rfl) ?_ _,
      returnNear_restores hs r q rfl _ release⟩
    rintro size level rfl
    cases hi
  | returnFar hi release =>
    obtain ⟨a, hcall⟩ := run_farCall hs hi
    let q : Registers := { r with cs := a.segment, ip := a.offset }
    have hm : 0x100000 ≤ ((s.bus.memory.store r.ss (below (r.word .sp) 2) r.cs.toUInt32 2).store
        r.ss (below (r.word .sp) 4) r.ip.toUInt32 2).size := by
      rwa [Memory.size_store, Memory.size_store]
    refine ⟨_, hcall.trans (run_callFar hs a), leftBehind_lowered (q := q) hm rfl ?_ ?_ _,
      returnFar_restores hs r q rfl _ release⟩
    · exact fun hnear => absurd hnear (Bool.eq_false_iff.1 (Instruction.not_isNearCall hi))
    · rintro size level rfl
      cases hi
  | leave size level =>
    exact ⟨_, run_enter hs size level, leftBehind_entered hs size level, leave_restores hs r level _⟩

end Restoring

section Encodings

variable {c : Cpu}

theorem encodes_callRelative (low high : UInt8) :
    Encodes c [0xE8, low, high] (.callRelative (wordOf low high)) :=
  encodes_of_isPlain .callNear rfl rfl fun _ _ => .last (reads_fetchWord low high) (reads_pure _)

theorem encodes_jumpFar (low high low' high' : UInt8) :
    Encodes c [0xEA, low, high, low', high'] (.jumpFar ⟨wordOf low' high', wordOf low high⟩) :=
  encodes_of_isPlain .jumpFar rfl rfl fun β _ =>
    have hsegment := (reads_fetchWord (β := β) (c := c) low' high').map fun segment =>
      SegmentedAddress.mk segment (wordOf low high)
    .last ((reads_fetchWord low high).bind hsegment) (reads_pure _)

theorem encodes_returnNear : Encodes c [0xC3] (.returnNear 0) :=
  encodes_of_isPlain (.returnNear false) rfl rfl fun _ _ => reads_pure _

end Encodings

theorem spells_poke {m : Memory} (hm : 0x100000 ≤ m.size) {base offset : UInt16} {a : UInt32}
    (ha : linear base offset = a) (b : UInt8) : (m.poke a b).Spells base offset [b] := by
  have hlt : a.toNat < m.size := ha ▸ Nat.lt_of_lt_of_le (linear_lt base offset) hm
  refine Memory.Holds.spells (by rwa [Memory.size_poke]) fun i hi => ?_
  obtain rfl : i = 0 := Nat.lt_one_iff.1 hi
  rw [add_ofNat_zero, ha, Memory.peek_poke hlt, if_pos rfl]
  rfl

section Standing

variable [Peripheral δ] {s : System (Board δ)} {i : Instruction} {next : UInt16}

/-- The instruction is found at the instruction pointer, and the one after it begins at `next`. -/
def Stands (s : System (Board δ)) (i : Instruction) (next : UInt16) : Prop :=
  ∃ u, decodeInstruction none segmentSize s = .ok i u ∧ u.cpu.registers.ip = next

theorem Stands.run (h : Stands s i next) :
    ∃ u, runInstruction none segmentSize s = execute i u ∧
      u.cpu.registers = { s.cpu.registers with ip := next } ∧ u.bus = s.bus := by
  obtain ⟨u, hu, rfl⟩ := h
  have hrun : runInstruction none segmentSize s = execute i u := by
    rw [runInstruction_eq, bind_ok _ hu]
  obtain ⟨q, rfl, -⟩ := decodeInstruction_code hu
  exact ⟨_, hrun, rfl, rfl⟩

theorem Encodes.decodeInstruction_eq {bytes : List UInt8} (he : Encodes s.cpu bytes i)
    (h : s.bus.memory.Spells s.cpu.registers.cs s.cpu.registers.ip bytes) :
    decodeInstruction none segmentSize s = .ok i (advanced bytes.length s) := by
  obtain ⟨b, rest, rfl, hb, hs, hreads⟩ := he
  obtain ⟨u, hfetch, hrest⟩ := supplies_board h
  obtain ⟨hsimple, hrepeat⟩ := not_or.1 hb
  rw [segmentSize, decodeInstruction, bind_ok _ hfetch, if_neg hsimple, if_neg hrepeat,
    decodePrefixed_of_not_string hs]
  exact hreads _ u _ (Supplies.sameButIp (supplies_singleton.2 hfetch) rfl) hrest

theorem Encodes.stands {bytes : List UInt8} (he : Encodes s.cpu bytes i)
    (h : s.bus.memory.Spells s.cpu.registers.cs s.cpu.registers.ip bytes) :
    Stands s i (s.cpu.registers.ip + UInt16.ofNat bytes.length) :=
  ⟨_, he.decodeInstruction_eq h, rfl⟩

theorem Encodes.run_spelled {bytes : List UInt8} (he : Encodes s.cpu bytes i)
    (h : s.bus.memory.Spells s.cpu.registers.cs s.cpu.registers.ip bytes) :
    runInstruction none segmentSize s = execute i (advanced bytes.length s) := by
  rw [runInstruction_eq, bind_ok _ (he.decodeInstruction_eq h)]

/-- A routine is called, jumps to another segment and returns from there, by way of code that lies in
any memory. -/
theorem run_call_jump_return {code : Memory} (hroom : 0x100000 ≤ code.size)
    (hcall : code.Holds 0 0 [0xE8, 0x01, 0x00])
    (hjump : code.Holds 0 4 [0xEA, 0x00, 0x00, 0x00, 0x10])
    (hreturn : code.Holds 0x1000 0 [0xC3]) :
    let s : System (Board ExpansionCard) := ⟨{ registers := { ss := 0x2000 } }, bare code⟩
    Stands s (.callRelative 1) 3 ∧
      ∃ t u v, runInstruction none segmentSize s = .ok () t ∧
        runInstruction none segmentSize t = .ok () u ∧
        Preserved .sp 2 t u ∧ Stands u (.returnNear 0) 1 ∧
        runInstruction none segmentSize u = .ok () v ∧
        v.cpu.registers.ip = 3 ∧ v.cpu.registers.word .sp = 0 ∧ v.cpu.registers.cs = 0x1000 := by
  intro s
  have hcall' : code.Spells 0 0 [0xE8, 0x01, 0x00] := hcall.spells hroom
  -- the return address lies far from the code
  obtain ⟨stored, hstore⟩ : ∃ stored, code.store 0x2000 0xFFFE 3 2 = stored := ⟨_, rfl⟩
  have hstored : 0x100000 ≤ stored.size := by rwa [← hstore, Memory.size_store]
  have hip : stored.word 0x2000 0xFFFE = 3 := by
    rw [← hstore]
    exact Memory.word_store hroom 0x2000 0xFFFE 3
  have hjump' : stored.Spells 0 4 [0xEA, 0x00, 0x00, 0x00, 0x10] :=
    Memory.Holds.spells hstored (hstore ▸ hjump.stored 3 (by decide))
  have hreturn' : stored.Spells 0x1000 0 [0xC3] :=
    Memory.Holds.spells hstored (hstore ▸ hreturn.stored 3 (by decide))
  let r : Registers := Registers.setWord { ss := 0x2000, ip := 4 } .sp 0xFFFE
  let t : System (Board ExpansionCard) := ⟨{ registers := r }, bare stored⟩
  let u : System (Board ExpansionCard) :=
    ⟨{ registers := { r with cs := 0x1000, ip := 0 } }, bare stored⟩
  have ht : runInstruction none segmentSize s = .ok () t := by
    rw [(encodes_callRelative 0x01 0x00).run_spelled (s := s) hcall']
    refine (run_callRelative (s := advanced 3 s) hroom 1).trans ?_
    change EStateM.Result.ok () (withRegisters (withMemory (advanced 3 s)
      (code.store 0x2000 (below 0 2) 3 2))
      (Registers.setWord { ss := 0x2000, ip := 4 } .sp (below 0 2))) = _
    rw [show below 0 2 = 0xFFFE by decide, hstore]
    rfl
  have hu : runInstruction none segmentSize t = .ok () u :=
    (encodes_jumpFar 0x00 0x00 0x00 0x10).run_spelled (s := t) hjump'
  have hsp : r.word .sp = 0xFFFE := Registers.word_setWord ..
  have hv : runInstruction none segmentSize u = .ok () (withRegisters (advanced 1 u)
      (Registers.setWord { r with cs := 0x1000, ip := 3 } .sp 0)) := by
    rw [encodes_returnNear.run_spelled (s := u) hreturn']
    refine (run_returnNear (s := advanced 1 u) hstored 0).trans ?_
    change EStateM.Result.ok () (withRegisters (advanced 1 u) (Registers.setWord
      { r with cs := 0x1000, ip := stored.word 0x2000 (r.word .sp) } .sp (r.word .sp + 2 + 0))) = _
    rw [hsp, hip]
    rfl
  have hbottom : (Registers.setWord { r with cs := 0x1000, ip := 3 } .sp 0).word .sp = 0 :=
    Registers.word_setWord ..
  have hpreserved : Preserved .sp 2 t u := ⟨hstored, rfl, rfl, fun _ _ => rfl⟩
  exact ⟨(encodes_callRelative 0x01 0x00).stands (s := s) hcall', t, u, _, ht, hu, hpreserved,
    encodes_returnNear.stands (s := u) hreturn', hv, rfl, hbottom, rfl⟩

/-- Stack instructions pair up. The first of a pair succeeds. Later the second one, wherever it is
found, takes back what the first has put on the stack, provided that the stack segment, the pointer
and the bytes there are as the first has left them. A pop yields the value that was pushed, and a
pop of all registers what they held; a return leads behind the call, where a near one stays in the
segment that it is in, and the end of a frame to the frame before. The stack pointer is where it
was, but for the bytes that a return releases. -/
theorem stack_instructions_pair (hs : Roomy s) (hi : Stands s i next) {pointer : Reg} {n : Nat}
    {j : Instruction} {f : Registers → Registers}
    (hp : Pairs { s.cpu.registers with ip := next } s.bus.memory i pointer n j f) :
    ∃ t, runInstruction none segmentSize s = .ok () t ∧ LeftBehind s t i pointer n ∧
      (∀ w, i = .pushAll w → ∀ q k, k ≠ .sp → (f q).read w k = s.cpu.registers.read w k) ∧
      ∀ u next', Preserved pointer n t u → Stands u j next' →
        ∃ v, runInstruction none segmentSize u = .ok () v ∧
          v.cpu.registers = f { u.cpu.registers with ip := next' } ∧ v.bus = u.bus := by
  obtain ⟨s', hrun, hregisters, hbus⟩ := hi.run
  have hs' : Roomy s' := by
    unfold Roomy
    rwa [hbus]
  rw [← hregisters, ← hbus] at hp
  obtain ⟨t, ht, hleft, hrestores⟩ := hp.run hs'
  refine ⟨t, hrun.trans ht, ?_, ?_, ?_⟩
  · exact hleft.moved hregisters hbus
  · rintro w rfl q k hk
    have hmem : k ∈ Reg.all.reverse := by cases k <;> decide
    have hread : s'.cpu.registers.read w k = s.cpu.registers.read w k := by
      rw [hregisters, read_withIp]
    cases hp with
    | pop hi => cases hi
    | popAll w =>
      rw [Registers.read_setWord_sp _ w hk, Registers.read_restored _ w hk, if_pos hmem, hread]
    | returnNear hi => cases hi
    | returnFar hi => cases hi
  · intro u next' hu hj
    obtain ⟨u', hrun', hregisters', hbus'⟩ := hj.run
    refine ⟨_, hrun'.trans (hrestores u' (hu.moved hregisters' hbus')), ?_, hbus'⟩
    rw [← hregisters']
    rfl

end Standing

/-- AX is pushed where the stack goes around the end of its segment. Code is written elsewhere, run
and has the word popped into BX. -/
theorem pushed_word_pops :
    let m := Memory.zeroed Memory.defaultSize
    let s : System (Board ExpansionCard) :=
      ⟨{ registers := { eax := 0x1234, ss := 0x1000 } }, bare (m.poke 0 0x50)⟩
    Roomy s ∧ Stands s (.pushRegister .word .ax) 1 ∧
      ∃ t, runInstruction none segmentSize s = .ok () t ∧ t.cpu.registers.word .sp = 0xFFFE ∧
        let r : Registers := { t.cpu.registers with cs := 0, ip := 0x100 }
        let u : System (Board ExpansionCard) :=
          ⟨{ registers := r }, { t.bus with memory := t.bus.memory.poke 0x100 0x5B }⟩
        ∃ v, runInstruction none segmentSize u = .ok () v ∧
          v.cpu.registers.word .bx = 0x1234 ∧ v.cpu.registers.word .sp = 0 := by
  have hm : 0x100000 ≤ (Memory.zeroed Memory.defaultSize).size :=
    Nat.le_of_eq (Memory.size_zeroed _).symm
  -- nothing is to be evaluated byte by byte
  generalize Memory.zeroed Memory.defaultSize = m at hm ⊢
  intro m s
  have hs : Roomy s := by
    change 0x100000 ≤ (m.poke 0 0x50).size
    rwa [Memory.size_poke]
  have hstart : linear 0 0 = 0 := by decide
  have hcode : linear 0 0x100 = 0x100 := by decide
  have hlow : below 0 2 = 0xFFFE := by decide
  have hpush : Stands s (.pushRegister .word .ax) 1 :=
    (encodes_pushRegister (c := s.cpu) .ax).stands (spells_poke hm hstart 0x50)
  have hpairs : Pairs { s.cpu.registers with ip := 1 } s.bus.memory (.pushRegister .word .ax) .sp 2
      (.pop .word (.register .bx)) _ :=
    .pop (.register (by decide)) (.register .word (by decide))
  obtain ⟨t, ht, hleft, -, hback⟩ := stack_instructions_pair hs hpush hpairs
  have hsp : t.cpu.registers.word .sp = 0xFFFE := (hleft.top rfl).trans hlow
  have hss : t.cpu.registers.ss = 0x1000 := hleft.ss
  refine ⟨hs, hpush, t, ht, hsp, ?_⟩
  intro r u
  have hroom : Roomy u := by
    change 0x100000 ≤ (t.bus.memory.poke 0x100 0x5B).size
    rw [Memory.size_poke]
    exact hleft.roomy
  have hapart : ∀ k < 2, linear 0x1000 (0xFFFE + UInt16.ofNat k) ≠ 0x100 := by decide
  have hu : Preserved .sp 2 t u := by
    refine ⟨hroom, rfl, rfl, fun k hk => ?_⟩
    dsimp only
    rw [hss, hsp]
    exact Memory.peek_poke_of_ne _ (hapart k hk) _
  have hpop : Stands u (.pop .word (.register .bx)) 0x101 :=
    (encodes_popRegister (c := u.cpu) .bx).stands (spells_poke hleft.roomy hcode 0x5B)
  obtain ⟨v, hv, hregisters, -⟩ := hback u 0x101 hu hpop
  let q := Registers.setWord { r with ip := 0x101 } .sp 0
  have hmoved : v.cpu.registers = q.setWord .bx 0x1234 := hregisters
  have hbottom : q.word .sp = 0 := Registers.word_setWord ..
  refine ⟨v, hv, ?_, ?_⟩
  · rw [hmoved, Registers.word_setWord]
  · rw [hmoved, Registers.word_setWord_of_ne q (by decide), hbottom]

/-- Where a routine goes on in another segment, a near return stays there: it leads to the offset
behind the call, but not to the segment of the call. -/
theorem near_return_stays_in_segment :
    let m := Memory.zeroed Memory.defaultSize
    let code := ((((m.poke 0 0xE8).poke 1 0x01).poke 4 0xEA).poke 8 0x10).poke 0x10000 0xC3
    let s : System (Board ExpansionCard) := ⟨{ registers := { ss := 0x2000 } }, bare code⟩
    Roomy s ∧ s.cpu.registers.cs = 0 ∧ Stands s (.callRelative 1) 3 ∧
      ∃ t u v, runInstruction none segmentSize s = .ok () t ∧
        runInstruction none segmentSize t = .ok () u ∧
        Preserved .sp 2 t u ∧ Stands u (.returnNear 0) 1 ∧
        runInstruction none segmentSize u = .ok () v ∧
        v.cpu.registers.ip = 3 ∧ v.cpu.registers.word .sp = 0 ∧ v.cpu.registers.cs = 0x1000 := by
  intro m code s
  have hm : 0x100000 ≤ m.size := Nat.le_of_eq (Memory.size_zeroed _).symm
  have hzero : ∀ a, m.peek a = 0 := Memory.peek_zeroed Memory.defaultSize
  -- nothing is to be evaluated byte by byte
  clear_value m
  have hroom : 0x100000 ≤ code.size := by
    simpa only [code, Memory.size_poke] using hm
  have hpeek (a : UInt32) : code.peek a =
      if a = 0x10000 then 0xC3 else if a = 8 then 0x10 else if a = 4 then 0xEA else
        if a = 1 then 0x01 else if a = 0 then 0xE8 else 0 := by
    have hpoke : ∀ (n : Memory) (b : UInt32) (v : UInt8), m.size = n.size → b.toNat < 0x100000 →
        (n.poke b v).peek a = if a = b then v else n.peek a :=
      fun n b v hn hb => Memory.peek_poke (hn ▸ Nat.lt_of_lt_of_le hb hm) v a
    rw [← hzero a, hpoke, hpoke, hpoke, hpoke, hpoke] <;> simp [Memory.size_poke]
  clear_value code
  have hcall : code.Holds 0 0 [0xE8, 0x01, 0x00] := fun i hi => by
    rw [hpeek]
    revert i
    decide
  have hjump : code.Holds 0 4 [0xEA, 0x00, 0x00, 0x00, 0x10] := fun i hi => by
    rw [hpeek]
    revert i
    decide
  have hreturn : code.Holds 0x1000 0 [0xC3] := fun i hi => by
    rw [hpeek]
    revert i
    decide
  exact ⟨hroom, rfl, run_call_jump_return hroom hcall hjump hreturn⟩

end Pc8086.Cpu

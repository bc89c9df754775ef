import Pc8086.Proofs.Cpu.DoubleWidth
import Pc8086.Proofs.Cpu.InstructionParts

namespace Pc8086.Cpu

open Exec

variable {β γ α α' : Type} {g : Registers → γ}

/-- The computation leaves a part of the registers as it was, even by a fault. -/
def Keeps (g : Registers → γ) (x : Exec β α) : Prop :=
  ∀ s, g (final (x s)).cpu.registers = g s.cpu.registers

theorem keeps_pure (a : α) : Keeps g (pure a : Exec β α) :=
  fun _ => rfl

theorem Keeps.bind {x : Exec β α} {f : α → Exec β α'} (hx : Keeps g x) (hf : ∀ a, Keeps g (f a)) :
    Keeps g (x >>= f) :=
  fun s => final_bind (I := fun t => g t.cpu.registers = g s.cpu.registers) (hx s)
    fun a t ht => (hf a t).trans ht

theorem keeps_registers : Keeps g (Exec.registers : Exec β Registers) :=
  fun _ => rfl

theorem keeps_look {f : Registers → Exec β α}
    (h : ∀ s, g (final (f s.cpu.registers s)).cpu.registers = g s.cpu.registers) :
    Keeps g (Exec.registers >>= f) := h

theorem keeps_modifyCpu {f : Cpu → Cpu} (hf : ∀ c, g (f c).registers = g c.registers) :
    Keeps g (modifyCpu f : Exec β Unit) :=
  fun s => hf s.cpu

theorem keeps_modify {f : Registers → Registers} (hf : ∀ r, g (f r) = g r) :
    Keeps g (modifyRegisters f : Exec β Unit) :=
  keeps_modifyCpu fun c => hf c.registers

theorem keeps_onBus (x : EStateM Fault β α) : Keeps g (onBus x) := by
  intro s
  rw [final_onBus_cpu]

theorem keeps_illegal (bytes : List UInt8) : Keeps g (illegal bytes : Exec β α) :=
  fun _ => rfl

theorem keeps_withFlags {f : Flags → α × Flags}
    (hf : ∀ r : Registers, g { r with flags := (f r.flags).2 } = g r) :
    Keeps g (withFlags f : Exec β α) :=
  fun s => hf s.cpu.registers

theorem keeps_accessing [Bus β] :
    Accessing fun α (x : Exec β α) (_ : Exec β α) => Keeps g x where
  pure := keeps_pure
  bind := Keeps.bind
  registers := keeps_registers
  readByte _ _ := keeps_onBus _
  writeByte _ _ _ := keeps_onBus _
  input _ _ := keeps_onBus _
  output _ _ _ := keeps_onBus _

theorem keeps_forM {ι : Type} [Bus β] {f : ι → Exec β Unit} (hf : ∀ i, Keeps g (f i))
    (is : List ι) : Keeps g (is.forM f) :=
  keeps_accessing.forM (g := f) hf is

theorem keeps_readElement [Bus β] (w : Width) : Keeps g (readElement w : Exec β UInt32) :=
  Keeps.bind (x := Exec.cpu) (fun _ => rfl) fun _ => keeps_accessing.readMemory _ _

theorem keeps_readTarget [Bus β] (w : Width) : Keeps g (readTarget w : Exec β UInt32) :=
  keeps_registers.bind fun _ => keeps_accessing.readMemory _ _

theorem keeps_writeTarget [Bus β] (w : Width) (v : UInt32) :
    Keeps g (writeTarget w v : Exec β Unit) :=
  keeps_registers.bind fun _ => keeps_accessing.writeMemory _ _ _

structure Apart (g : Registers → γ) : Prop where
  setDword (r : Registers) (i : Reg) (v : UInt32) : g (r.setDword i v) = g r
  setSegment (r : Registers) (i : Segment) (v : UInt16) : g (r.setSegment i v) = g r

theorem apart_ip : Apart Registers.ip where
  setDword r i v := by cases i <;> rfl
  setSegment r i v := by cases i <;> rfl

theorem apart_flags : Apart Registers.flags where
  setDword r i v := by cases i <;> rfl
  setSegment r i v := by cases i <;> rfl

/-- The instruction moves numbers between registers and memory and does nothing else. Loading an
address is a move of a number. -/
def Instruction.isMove : Instruction → Bool
  | .skip | .move .. | .moveExtended .. | .exchange .. | .storeSegment .. | .loadSegment ..
  | .loadFarPointer .. | .tableLookup _ | .push .. | .pushRegister .. | .pop .. | .pushAll _
  | .popAll _ | .pushSegment _ | .popSegment _ | .pushFlags | .loadFlags | .enter .. | .leave
  | .setIf .. => true
  | _ => false

section Apart

variable (h : Apart g)
include h

theorem Apart.comp {γ' : Type} (f : γ → γ') : Apart fun r => f (g r) where
  setDword r i v := congrArg f (h.setDword r i v)
  setSegment r i v := congrArg f (h.setSegment r i v)

theorem Apart.setWord (r : Registers) (i : Reg) (v : UInt16) : g (r.setWord i v) = g r :=
  h.setDword _ _ _

theorem Apart.setLowByte (r : Registers) (i : Reg) (v : UInt8) : g (r.setLowByte i v) = g r :=
  h.setDword _ _ _

theorem Apart.setHighByte (r : Registers) (i : Reg) (v : UInt8) : g (r.setHighByte i v) = g r :=
  h.setDword _ _ _

theorem Apart.setAl (r : Registers) (v : UInt8) : g (r.setAl v) = g r :=
  h.setLowByte _ _ _

theorem Apart.setAh (r : Registers) (v : UInt8) : g (r.setAh v) = g r :=
  h.setHighByte _ _ _

theorem Apart.write (r : Registers) (w : Width) (i : Reg) (v : UInt32) : g (r.write w i v) = g r := by
  cases w with
  | byte =>
    rw [Registers.write, Registers.setByte]
    split
    · exact h.setLowByte _ _ _
    · exact h.setHighByte _ _ _
  | word => exact h.setWord _ _ _
  | dword => exact h.setDword _ _ _

theorem Apart.setDoubleAccumulator (r : Registers) (w : Width) (low high : UInt32) :
    g (r.setDoubleAccumulator w low high) = g r := by
  cases w with
  | byte => exact (h.setHighByte (r.setAl low.toUInt8) .ax _).trans (h.setLowByte r .ax _)
  | word => exact (h.setWord (r.setWord .ax low.toUInt16) .dx _).trans (h.setWord r .ax _)
  | dword => exact (h.setDword (r.setDword .ax low) .dx _).trans (h.setDword r .ax _)

theorem Apart.extendAccumulator (r : Registers) (w : Width) : g (r.extendAccumulator w) = g r := by
  unfold Registers.extendAccumulator
  split
  · exact h.setDword _ _ _
  · exact h.setWord _ _ _

theorem Apart.extendDouble (r : Registers) (w : Width) : g (r.extendDouble w) = g r := by
  unfold Registers.extendDouble
  split
  · exact h.setDword _ _ _
  · exact h.setWord _ _ _

theorem Apart.divide? {r r' : Registers} {w : Width} {v : UInt32} (hd : r.divide? w v = some r') :
    g r' = g r := by
  rw [Registers.divide?_eq, Registers.wideDivide?] at hd
  split at hd
  · cases hd
  · cases hd
    exact h.setDoubleAccumulator _ _ _ _

theorem Apart.divideSigned? {r r' : Registers} {w : Width} {v : UInt32}
    (hd : r.divideSigned? w v = some r') : g r' = g r := by
  rw [Registers.divideSigned?_eq, Registers.wideDivideSigned?] at hd
  split at hd
  · cases hd
  · cases hd
    exact h.setDoubleAccumulator _ _ _ _

theorem Apart.advance (i : Reg) (w : Width) : Keeps g (advance i w : Exec β Unit) :=
  keeps_modify fun _ => h.setWord _ _ _

variable [Bus β]

theorem Apart.writePlace (w : Width) (v : UInt32) (p : Place) :
    Keeps g (writePlace w v p : Exec β Unit) := by
  cases p with
  | register i => exact keeps_modify fun r => h.write r w i v
  | memory l => exact keeps_accessing.writeMemory l w v

theorem Apart.push (w : Width) (v : UInt32) : Keeps g (push w v : Exec β Unit) :=
  keeps_registers.bind fun _ => (keeps_modify fun _ => h.setWord _ _ _).bind fun _ =>
    keeps_accessing.writeMemory _ _ _

theorem Apart.pushWord (v : UInt16) : Keeps g (pushWord v : Exec β Unit) :=
  h.push _ _

theorem Apart.pop (w : Width) : Keeps g (pop w : Exec β UInt32) :=
  keeps_registers.bind fun _ => (keeps_accessing.readMemory _ _).bind fun _ =>
    (keeps_modify fun _ => h.setWord _ _ _).bind fun _ => keeps_pure _

theorem Apart.popWord : Keeps g (popWord : Exec β UInt16) :=
  (h.pop .word).bind fun _ => keeps_pure _

theorem Apart.pushAll (w : Width) : Keeps g (pushAll w : Exec β Unit) :=
  keeps_registers.bind fun _ =>
    keeps_forM (fun _ => keeps_registers.bind fun _ => h.push _ _) _

theorem Apart.popAll (w : Width) : Keeps g (popAll w : Exec β Unit) := by
  refine keeps_forM (fun i => (h.pop w).bind fun v => ?_) _
  split
  · exact keeps_modify fun r => h.write r w i v
  · exact keeps_pure ()

theorem Apart.copyFrame (frame : UInt16) (n : Nat) :
    Keeps g (copyFrame frame n : Exec β Unit) := by
  induction n generalizing frame with
  | zero => exact keeps_pure ()
  | succ n ih =>
    exact (keeps_accessing.readMemory _ _).bind fun _ => (h.push _ _).bind fun _ => ih (frame - 2)

theorem Apart.enter (size : UInt16) (level : UInt8) :
    Keeps g (enter size level : Exec β Unit) := by
  have hroom (frame : UInt16) : Keeps g (do
      modifyRegisters fun r => r.setWord .bp frame
      modifyRegisters fun r => r.setWord .sp (r.word .sp - size) : Exec β Unit) :=
    (keeps_modify fun _ => h.setWord _ _ _).bind fun _ => keeps_modify fun _ => h.setWord _ _ _
  refine keeps_registers.bind fun _ => (h.push _ _).bind fun _ => keeps_registers.bind fun _ => ?_
  dsimp only
  split
  · exact (h.copyFrame _ _).bind fun _ => (h.push _ _).bind fun _ => hroom _
  · exact hroom _

theorem Apart.leave : Keeps g (leave : Exec β Unit) :=
  (keeps_modify fun _ => h.setWord _ _ _).bind fun _ => h.popWord.bind fun _ =>
    keeps_modify fun _ => h.setWord _ _ _

omit [Bus β] in
theorem Apart.loopTaken (condition : LoopCondition) :
    Keeps g (loopTaken condition : Exec β Bool) :=
  (keeps_modify fun _ => h.setWord _ _ _).bind fun _ => keeps_registers.bind fun _ => keeps_pure _

omit [Bus β] in
theorem Apart.modifyFar (s : Segment) (i : Reg) (a : SegmentedAddress) :
    Keeps g (modifyRegisters fun r => (r.setWord i a.offset).setSegment s a.segment :
      Exec β Unit) :=
  keeps_modify fun r => (h.setSegment _ _ _).trans (h.setWord r _ _)

theorem Apart.unary {op : UnaryOperation} (w : Width) (target : Place)
    (hi : ∀ (r : Registers) (v : UInt32), g { r with flags := (Alu.increment w v r.flags).2 } = g r)
    (hd : ∀ (r : Registers) (v : UInt32), g { r with flags := (Alu.decrement w v r.flags).2 } = g r)
    (hn : op = .negate →
      ∀ (r : Registers) (v : UInt32), g { r with flags := (Alu.negate w v r.flags).2 } = g r) :
    Keeps g (unary op w target : Exec β Unit) := by
  refine (keeps_accessing.readPlace w target).bind fun v => ?_
  have hwrite (v : UInt32) : Keeps g (Exec.writePlace w v target : Exec β Unit) :=
    h.writePlace w v target
  cases op with
  | increment => exact (keeps_withFlags fun r => hi r v).bind hwrite
  | decrement => exact (keeps_withFlags fun r => hd r v).bind hwrite
  | complement => exact (keeps_pure _).bind hwrite
  | negate => exact (keeps_withFlags fun r => hn rfl r v).bind hwrite

theorem Apart.execute_move {i : Instruction} (hi : i.isMove = true) :
    Keeps g (execute i : Exec β Unit) := by
  unfold execute
  split
  all_goals first
    | exact Bool.noConfusion hi
    | with_reducible repeat' first
      | exact keeps_pure _
      | exact keeps_registers
      | exact keeps_accessing.readPlace _ _
      | exact keeps_accessing.readSource _ _
      | exact keeps_accessing.readMemory _ _
      | exact keeps_accessing.readFarPointer _
      | exact h.writePlace _ _ _
      | exact h.push _ _
      | exact h.pushWord _
      | exact h.pop _
      | exact h.popWord
      | exact h.pushAll _
      | exact h.popAll _
      | exact h.enter _ _
      | exact h.leave
      | exact h.modifyFar _ _ _
      | exact keeps_modify fun r => h.write r _ _ _
      | exact keeps_modify fun r => h.setAl r _
      | exact keeps_modify fun r => h.setAh r _
      | exact keeps_modify fun r => h.setSegment r _ _
      | refine Keeps.bind ?_ fun _ => ?_
      | split

end Apart

def Instruction.isTransfer : Instruction → Bool
  | .jumpRelative _ | .jumpIf .. | .jumpIfCountZero _ | .loop .. | .jump _ | .jumpFar _
  | .jumpFarIndirect _ | .callRelative _ | .call _ | .callFar _ | .callFarIndirect _
  | .returnNear _ | .returnFar _ | .interrupt _ | .interruptOnOverflow | .returnInterrupt => true
  | _ => false

section InstructionPointer

theorem ip_multiplyTruncated (r : Registers) (w : Width) (i : Reg) (a b : UInt32) :
    (r.multiplyTruncated w i a b).ip = r.ip := by
  have hlost (lost : Bool) : (r.setLost lost).ip = r.ip := rfl
  unfold Registers.multiplyTruncated
  dsimp only
  rw [apart_ip.write, hlost]

theorem ip_flagByte (r : Registers) (v : UInt8) : (r.flagByte v).ip = r.ip := rfl

theorem ip_adjustPacked (r : Registers) (low high : UInt8) :
    (r.adjustPacked low high).ip = r.ip := by
  unfold Registers.adjustPacked
  rw [ip_flagByte, apart_ip.setAl]

theorem ip_adjustUnpacked (r : Registers) (low high : UInt8) :
    (r.adjustUnpacked low high).ip = r.ip := by
  unfold Registers.adjustUnpacked
  rw [apart_ip.setAl]
  dsimp only
  split
  · exact apart_ip.setAh _ _
  · rfl

theorem ip_adjustAfterAdd (r : Registers) : r.adjustAfterAdd.ip = r.ip :=
  ip_adjustPacked ..

theorem ip_adjustAfterSub (r : Registers) : r.adjustAfterSub.ip = r.ip :=
  ip_adjustPacked ..

theorem ip_adjustDigitAfterAdd (r : Registers) : r.adjustDigitAfterAdd.ip = r.ip :=
  ip_adjustUnpacked ..

theorem ip_adjustDigitAfterSub (r : Registers) : r.adjustDigitAfterSub.ip = r.ip :=
  ip_adjustUnpacked ..

theorem ip_joinDigits (r : Registers) (base : UInt8) : (r.joinDigits base).ip = r.ip := by
  unfold Registers.joinDigits
  rw [ip_flagByte, apart_ip.setWord]

theorem ip_splitDigits? {r r' : Registers} {base : UInt8} (h : r.splitDigits? base = some r') :
    r'.ip = r.ip := by
  unfold Registers.splitDigits? at h
  split at h
  · cases h
  · cases h
    rfl

variable [Bus β]

theorem keepsIp_accumulator (op : AccumulatorOperation) (w : Width) (source : Place) :
    Keeps Registers.ip (accumulator op w source : Exec β Unit) := by
  refine (keeps_accessing.readPlace w source).bind fun v => keeps_look fun s => ?_
  cases op with
  | multiply =>
    change (s.cpu.registers.multiply w v).ip = _
    rw [Registers.multiply_eq]
    exact apart_ip.setDoubleAccumulator _ w _ _
  | multiplySigned =>
    change (s.cpu.registers.multiplySigned w v).ip = _
    rw [Registers.multiplySigned_eq]
    exact apart_ip.setDoubleAccumulator _ w _ _
  | divide =>
    dsimp only
    cases h : s.cpu.registers.divide? w v with
    | some r => exact apart_ip.divide? h
    | none => rfl
  | divideSigned =>
    dsimp only
    cases h : s.cpu.registers.divideSigned? w v with
    | some r => exact apart_ip.divideSigned? h
    | none => rfl

theorem keepsIp_splitDigits (base : UInt8) :
    Keeps Registers.ip (execute (.splitDigits base) : Exec β Unit) := by
  refine keeps_look fun s => ?_
  cases h : s.cpu.registers.splitDigits? base with
  | some r => exact ip_splitDigits? h
  | none => rfl

omit [Bus β] in
theorem keepsIp_changeFlag (change : FlagChange) :
    Keeps Registers.ip (changeFlag change : Exec β Unit) := by
  refine keeps_modifyCpu fun c => ?_
  cases change with
  | enableInterrupts =>
    dsimp only
    split <;> rfl
  | _ => rfl

/-- Only transfers and strings move the instruction pointer. -/
theorem keepsIp_execute {i : Instruction} (h : i.isTransfer = false)
    (hs : ∀ op w, i ≠ .string op w) : Keeps Registers.ip (execute i : Exec β Unit) := by
  by_cases hmove : i.isMove = true
  · exact apart_ip.execute_move hmove
  -- splitting digits may end in a divide error and has its own lemma
  by_cases hsplit : ∃ base, i = .splitDigits base
  · obtain ⟨base, rfl⟩ := hsplit
    exact keepsIp_splitDigits base
  unfold execute
  split
  all_goals first
    | exact Bool.noConfusion h
    | exact absurd rfl hmove
    | exact absurd rfl (hs _ _)
    | exact absurd ⟨_, rfl⟩ hsplit
    | with_reducible repeat' first
      | exact keeps_pure _
      | exact keeps_registers
      | exact keeps_withFlags fun _ => rfl
      | exact keeps_accessing.readPlace _ _
      | exact keeps_accessing.readSource _ _
      | exact apart_ip.writePlace _ _ _
      | exact apart_ip.popWord
      | exact apart_ip.unary _ _ (fun _ _ => rfl) (fun _ _ => rfl) fun _ _ _ => rfl
      | exact keepsIp_accumulator _ _ _
      | exact keepsIp_changeFlag _
      | exact keeps_onBus _
      | exact keeps_illegal _
      | exact keeps_modify fun r => apart_ip.write r _ _ _
      | exact keeps_modify fun r => ip_multiplyTruncated r _ _ _ _
      | exact keeps_modify fun r => apart_ip.extendAccumulator r _
      | exact keeps_modify fun r => apart_ip.extendDouble r _
      | exact keeps_modify ip_adjustAfterAdd
      | exact keeps_modify ip_adjustAfterSub
      | exact keeps_modify ip_adjustDigitAfterAdd
      | exact keeps_modify ip_adjustDigitAfterSub
      | exact keeps_modify fun r => ip_joinDigits r _
      | exact keeps_modify fun _ => rfl
      | exact keeps_modifyCpu fun _ => rfl
      | refine Keeps.bind ?_ fun _ => ?_
      | split

end InstructionPointer

end Pc8086.Cpu

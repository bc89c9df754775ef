import Pc8086.Cpu.Execute
import Pc8086.Proofs.Cpu.Parts

namespace Pc8086.Cpu

open Exec

variable {β α α' : Type}

def movedTo (ip : UInt16) (s : System β) : System β :=
  { s with cpu.registers.ip := ip }

def outcomeAt (ip : UInt16) :
    EStateM.Result Fault (System β) α → EStateM.Result Fault (System β) α
  | .ok a s => .ok a (movedTo ip s)
  | .error f s => .error f (movedTo ip s)

/-- The computation neither looks at the instruction pointer nor moves it. -/
def Relocatable (x : Exec β α) : Prop :=
  ∀ ip s, x (movedTo ip s) = outcomeAt ip (x s)

/-- The registers are changed without regard to the instruction pointer, which stays. -/
def SparesIp (f : Registers → Registers) : Prop :=
  ∀ r ip, f { r with ip := ip } = { f r with ip := ip }

theorem relocatable_pure (a : α) : Relocatable (pure a : Exec β α) :=
  fun _ _ => rfl

theorem Relocatable.bind {x : Exec β α} {f : α → Exec β α'} (hx : Relocatable x)
    (hf : ∀ a, Relocatable (f a)) : Relocatable (x >>= f) := by
  intro ip s
  rw [bind_eq_resume, bind_eq_resume, hx ip s]
  cases x s with
  | ok a t => exact hf a ip t
  | error e t => rfl

theorem Relocatable.ip {x : Exec β α} (hx : Relocatable x) (s : System β) :
    (final (x s)).cpu.registers.ip = s.cpu.registers.ip := by
  have h : x s = outcomeAt s.cpu.registers.ip (x s) := hx s.cpu.registers.ip s
  rw [h]
  cases x s <;> rfl

/-- What is computed from the registers may not depend on the instruction pointer. -/
theorem relocatable_registers {f : Registers → Exec β α} (hf : ∀ r, Relocatable (f r))
    (hs : ∀ r ip, f { r with ip := ip } = f r) : Relocatable (Exec.registers >>= f) := by
  intro ip s
  change f { s.cpu.registers with ip := ip } (movedTo ip s) = outcomeAt ip (f s.cpu.registers s)
  rw [hs]
  exact hf _ ip s

theorem relocatable_modify {f : Registers → Registers} (hf : SparesIp f) :
    Relocatable (modifyRegisters f : Exec β Unit) := by
  intro ip s
  have h := hf s.cpu.registers ip
  change EStateM.Result.ok () (System.mk { s.cpu with registers := _ } s.bus) = _
  rw [h]
  rfl

theorem relocatable_onBus (x : EStateM Fault β α) : Relocatable (onBus x) := by
  intro ip s
  unfold onBus
  dsimp only [movedTo]
  cases x s.bus <;> rfl

theorem relocatable_withFlags (f : Flags → α × Flags) :
    Relocatable (withFlags f : Exec β α) :=
  relocatable_registers
    (fun _ => (relocatable_modify fun _ _ => rfl).bind fun _ => relocatable_pure _) fun _ _ => rfl

theorem relocatable_writeRegister (w : Width) (i : Reg) (v : UInt32) :
    Relocatable (modifyRegisters fun r => r.write w i v : Exec β Unit) :=
  relocatable_modify fun r ip => by cases w <;> cases i <;> rfl

theorem read_withIp (w : Width) (i : Reg) (r : Registers) (ip : UInt16) :
    Registers.read { r with ip := ip } w i = r.read w i := by
  cases w <;> cases i <;> rfl

theorem segment_withIp (i : Segment) (r : Registers) (ip : UInt16) :
    Registers.segment { r with ip := ip } i = r.segment i := by
  cases i <;> rfl

theorem relocatable_readRegister (w : Width) (i : Reg) :
    Relocatable (do return (← Exec.registers).read w i : Exec β UInt32) :=
  relocatable_registers (fun _ => relocatable_pure _) fun r ip => by rw [read_withIp]

section Accesses

variable [Bus β]

theorem relocatable_readBytes (i : Segment) (offset : UInt16) (n : Nat) :
    Relocatable (readBytes i offset n : Exec β UInt32) := by
  induction n generalizing offset with
  | zero => exact relocatable_pure 0
  | succ n ih =>
    unfold readBytes
    rw [busAddress_bind]
    refine relocatable_registers (fun _ => ?_) fun r ip => by simp only [segment_withIp]
    exact (relocatable_onBus _).bind fun _ => (ih (offset + 1)).bind fun _ => relocatable_pure _

theorem relocatable_writeBytes (i : Segment) (offset : UInt16) (v : UInt32) (n : Nat) :
    Relocatable (writeBytes i offset v n : Exec β Unit) := by
  induction n generalizing offset v with
  | zero => exact relocatable_pure ()
  | succ n ih =>
    unfold writeBytes
    rw [busAddress_bind]
    refine relocatable_registers (fun _ => ?_) fun r ip => by simp only [segment_withIp]
    exact (relocatable_onBus _).bind fun _ => ih (offset + 1) (v >>> 8)

theorem relocatable_readPlace (w : Width) (p : Place) :
    Relocatable (readPlace w p : Exec β UInt32) := by
  cases p with
  | register i => exact relocatable_readRegister w i
  | memory l => exact relocatable_readBytes _ _ _

theorem relocatable_writePlace (w : Width) (v : UInt32) (p : Place) :
    Relocatable (writePlace w v p : Exec β Unit) := by
  cases p with
  | register i => exact relocatable_writeRegister w i v
  | memory l => exact relocatable_writeBytes _ _ _ _

theorem relocatable_readSource (w : Width) (p : Source) :
    Relocatable (readSource w p : Exec β UInt32) := by
  cases p with
  | place p => exact relocatable_readPlace w p
  | immediate v => exact relocatable_pure _

theorem relocatable_push (w : Width) (v : UInt32) : Relocatable (push w v : Exec β Unit) :=
  relocatable_registers
    (fun _ => (relocatable_modify fun _ _ => rfl).bind fun _ => relocatable_writeBytes _ _ _ _)
    fun _ _ => rfl

end Accesses

section Instructions

variable [Bus β]

theorem relocatable_arithmetic (op : Alu.Operation) (w : Width) (target : Place)
    (source : Source) : Relocatable (execute (.arithmetic op w target source) : Exec β Unit) := by
  refine (relocatable_readPlace w target).bind fun a => ?_
  refine (relocatable_readSource w source).bind fun b => ?_
  refine (relocatable_withFlags (op.apply w a b)).bind fun result => ?_
  split
  · exact relocatable_writePlace w result target
  · exact relocatable_pure ()

theorem relocatable_test (w : Width) (a : Place) (b : Source) :
    Relocatable (execute (.test w a b) : Exec β Unit) :=
  (relocatable_readPlace w a).bind fun _ => (relocatable_readSource w b).bind fun _ =>
    (relocatable_withFlags _).bind fun _ => relocatable_pure ()

theorem relocatable_unary (op : UnaryOperation) (w : Width) (target : Place) :
    Relocatable (execute (.unary op w target) : Exec β Unit) := by
  refine (relocatable_readPlace w target).bind fun v => ?_
  have hwrite := fun v => relocatable_writePlace (β := β) w v target
  cases op with
  | increment => exact (relocatable_withFlags _).bind hwrite
  | decrement => exact (relocatable_withFlags _).bind hwrite
  | complement => exact (relocatable_pure _).bind hwrite
  | negate => exact (relocatable_withFlags _).bind hwrite

theorem relocatable_shift (op : Shift) (w : Width) (target : Place) (count : UInt8) :
    Relocatable (execute (.shift op w target count) : Exec β Unit) := by
  refine (relocatable_readPlace w target).bind fun v => ?_
  refine (relocatable_withFlags (op.apply w v count)).bind fun result => ?_
  split
  · exact relocatable_writePlace w result target
  · exact relocatable_pure ()

theorem relocatable_move (w : Width) (target : Place) (source : Source) :
    Relocatable (execute (.move w target source) : Exec β Unit) :=
  (relocatable_readSource w source).bind fun v => relocatable_writePlace w v target

theorem relocatable_exchange (w : Width) (a : Place) (b : Reg) :
    Relocatable (execute (.exchange w a b) : Exec β Unit) := by
  refine (relocatable_readPlace w a).bind fun v => ?_
  refine relocatable_registers (fun r => ?_) fun r ip => by simp only [read_withIp]
  exact (relocatable_writePlace w _ a).bind fun _ => relocatable_writeRegister w b v

theorem relocatable_pushSource (w : Width) (source : Source) :
    Relocatable (execute (.push w source) : Exec β Unit) :=
  (relocatable_readSource w source).bind fun v => relocatable_push w v

end Instructions

end Pc8086.Cpu

import Pc8086.Cpu.Decode
import Pc8086.Proofs.Cpu.Exec
import Pc8086.Proofs.Memory.Overlay

/-!
Properties that computations inherit from their parts: accesses to the bus and changes of the
registers. A property relates the same computation on two buses, which may be one and the same.
-/

namespace Pc8086.Cpu.Exec

def operandSegment {β : Type} (i : Segment) : Exec β Segment := do
  return (← cpu).prefixes.segmentOr i

section Properties

variable {β γ : Type} (P : (α : Type) → Exec β α → Exec γ α → Prop)

structure Closed : Prop where
  pure {α : Type} (a : α) : P α (pure a) (pure a)
  bind {α α' : Type} {x : Exec β α} {y : Exec γ α} {f : α → Exec β α'} {g : α → Exec γ α'}
    (hx : P α x y) (hf : ∀ a, P α' (f a) (g a)) : P α' (x >>= f) (y >>= g)
  registers : P Registers registers registers

/-- Bytes may be fetched one after another, and the prefixes before them be asked for. -/
structure Decoding [Bus β] [Bus γ] : Prop extends Closed P where
  operandSegment (i : Segment) : P Segment (operandSegment i) (operandSegment i)
  currentWidth : P Width currentWidth currentWidth
  fetchByte : P UInt8 fetchByte fetchByte

structure Reading [Bus β] [Bus γ] : Prop extends Closed P where
  readByte (a : UInt32) (h : a.toNat < 0x100000) :
    P UInt8 (onBus (Bus.readByte a)) (onBus (Bus.readByte a))

structure Accessing [Bus β] [Bus γ] : Prop extends Reading P where
  writeByte (a : UInt32) (h : a.toNat < 0x100000) (v : UInt8) :
    P Unit (onBus (Bus.writeByte a v)) (onBus (Bus.writeByte a v))
  input (w : Width) (port : UInt16) :
    P UInt32 (onBus (Bus.input w port)) (onBus (Bus.input w port))
  output (w : Width) (port : UInt16) (v : UInt32) :
    P Unit (onBus (Bus.output w port v)) (onBus (Bus.output w port v))

structure Working [Bus β] [Bus γ] : Prop extends Accessing P where
  modify (f : Registers → Registers) : P Unit (modifyRegisters f) (modifyRegisters f)

end Properties

variable {β γ α : Type} {P : (α : Type) → Exec β α → Exec γ α → Prop}

section Closed

variable (h : Closed P)
include h

theorem Closed.map {α' : Type} {x : Exec β α} {y : Exec γ α} (f : α → α') (hx : P α x y) :
    P α' (f <$> x) (f <$> y) :=
  h.bind hx fun a => h.pure (f a)

theorem Closed.forM {ι : Type} {f : ι → Exec β Unit} {g : ι → Exec γ Unit}
    (hf : ∀ i, P Unit (f i) (g i)) (is : List ι) : P PUnit (is.forM f) (is.forM g) := by
  induction is with
  | nil => exact h.pure ()
  | cons i is ih => exact h.bind (hf i) fun _ => ih

end Closed

theorem busAddress_bind (i : Segment) (offset : UInt16) (f : UInt32 → Exec β α) :
    busAddress i offset >>= f = registers >>= fun r => f (linear (r.segment i) offset) := rfl

/-- The bytes of a word are looked for on the address bus. -/
theorem masked_lt (a : UInt32) : (a &&& addressMask).toNat < 0x100000 := by
  rw [UInt32.toNat_and]
  exact Nat.lt_of_le_of_lt Nat.and_le_right (by decide)

variable [Bus β] [Bus γ]

section Decoding

variable (h : Decoding P)
include h

theorem Decoding.fetchWord : P UInt16 fetchWord fetchWord :=
  h.bind h.fetchByte fun _ => h.bind h.fetchByte fun _ => h.pure _

theorem Decoding.fetchSignedByte : P UInt32 fetchSignedByte fetchSignedByte :=
  h.bind h.fetchByte fun _ => h.pure _

theorem Decoding.fetch (w : Width) : P UInt32 (fetch w) (fetch w) := by
  cases w with
  | byte => exact h.bind h.fetchByte fun _ => h.pure _
  | word => exact h.bind h.fetchWord fun _ => h.pure _
  | dword => exact h.bind h.fetchWord fun _ => h.bind h.fetchWord fun _ => h.pure _

end Decoding

section Reading

variable (h : Reading P)
include h

theorem Reading.readBytes (i : Segment) (offset : UInt16) (n : Nat) :
    P UInt32 (readBytes i offset n) (readBytes i offset n) := by
  induction n generalizing offset with
  | zero => exact h.pure 0
  | succ n ih =>
    unfold Exec.readBytes
    rw [busAddress_bind]
    exact h.bind h.registers fun _ => h.bind (h.readByte _ (linear_lt ..)) fun _ =>
      h.bind (ih (offset + 1)) fun _ => h.pure _

theorem Reading.readMemory (l : Location) (w : Width) :
    P UInt32 (readMemory l w) (readMemory l w) :=
  h.readBytes _ _ _

theorem Reading.readFarPointer (l : Location) :
    P SegmentedAddress (readFarPointer l) (readFarPointer l) :=
  h.bind (h.readMemory _ _) fun _ => h.bind (h.readMemory _ _) fun _ => h.pure _

theorem Reading.readPlace (w : Width) (p : Place) : P UInt32 (readPlace w p) (readPlace w p) := by
  cases p with
  | register i => exact h.bind h.registers fun _ => h.pure _
  | memory l => exact h.readMemory l w

theorem Reading.readSource (w : Width) (p : Source) :
    P UInt32 (readSource w p) (readSource w p) := by
  cases p with
  | place p => exact h.readPlace w p
  | immediate v => exact h.pure _

theorem Reading.readBusWord (a : UInt32) :
    P UInt16 (onBus (Bus.readWord a)) (onBus (Bus.readWord a)) := by
  simp only [Bus.readWord, onBus_bind]
  exact h.bind (h.readByte _ (masked_lt a)) fun _ =>
    h.bind (h.readByte _ (masked_lt (a + 1))) fun _ => h.pure _

end Reading

section Accessing

variable (h : Accessing P)
include h

theorem Accessing.writeBytes (i : Segment) (offset : UInt16) (v : UInt32) (n : Nat) :
    P Unit (writeBytes i offset v n) (writeBytes i offset v n) := by
  induction n generalizing offset v with
  | zero => exact h.pure ()
  | succ n ih =>
    unfold Exec.writeBytes
    rw [busAddress_bind]
    exact h.bind h.registers fun _ => h.bind (h.writeByte _ (linear_lt ..) _) fun _ =>
      ih (offset + 1) (v >>> 8)

theorem Accessing.writeMemory (l : Location) (w : Width) (v : UInt32) :
    P Unit (writeMemory l w v) (writeMemory l w v) :=
  h.writeBytes _ _ _ _

end Accessing

section Working

variable (h : Working P)
include h

theorem Working.withFlags (f : Flags → α × Flags) : P α (withFlags f) (withFlags f) :=
  h.bind h.registers fun _ => h.bind (h.modify _) fun _ => h.pure _

theorem Working.writePlace (w : Width) (v : UInt32) (p : Place) :
    P Unit (writePlace w v p) (writePlace w v p) := by
  cases p with
  | register i => exact h.modify fun r => r.write w i v
  | memory l => exact h.writeMemory l w v

theorem Working.push (w : Width) (v : UInt32) : P Unit (push w v) (push w v) :=
  h.bind h.registers fun _ => h.bind (h.modify _) fun _ => h.writeMemory _ _ _

theorem Working.pop (w : Width) : P UInt32 (pop w) (pop w) :=
  h.bind h.registers fun _ => h.bind (h.readMemory _ _) fun v =>
    h.bind (h.modify _) fun _ => h.pure v

theorem Working.pushWord (v : UInt16) : P Unit (pushWord v) (pushWord v) :=
  h.push _ _

theorem Working.popWord : P UInt16 popWord popWord :=
  h.bind (h.pop .word) fun _ => h.pure _

theorem Working.enterVector (vector : UInt8) :
    P Unit (enterVector vector) (enterVector vector) := by
  refine h.bind h.registers fun _ => h.bind (h.pushWord _) fun _ => ?_
  refine h.bind (h.modify _) fun _ => ?_
  refine h.bind h.registers fun _ => h.bind (h.pushWord _) fun _ => ?_
  refine h.bind h.registers fun _ => h.bind (h.pushWord _) fun _ => ?_
  refine h.bind (h.readBusWord _) fun _ => h.bind (h.readBusWord _) fun _ => ?_
  exact h.modify _

theorem Working.enterVectorIf (on : Bool) (vector : UInt8) :
    P Unit (if on then Exec.enterVector vector else pure ())
      (if on then Exec.enterVector vector else pure ()) := by
  cases on
  · exact h.pure ()
  · exact h.enterVector vector

end Working

end Pc8086.Cpu.Exec

import Pc8086.Bus
import Pc8086.Cpu.Instruction
import Pc8086.Cpu.State

namespace Pc8086

structure System (β : Type) where
  cpu : Cpu
  bus : β

namespace Cpu

/-- A computation of the processor. A fault keeps what was done before it. -/
abbrev Exec (β : Type) := EStateM Fault (System β)

namespace Exec

variable {β : Type}

@[inline]
def onBus {α : Type} (x : EStateM Fault β α) : Exec β α := fun ⟨cpu, bus⟩ =>
  match x bus with
  | .ok a bus => .ok a ⟨cpu, bus⟩
  | .error f bus => .error f ⟨cpu, bus⟩

@[inline]
def cpu : Exec β Cpu := fun s => .ok s.cpu s

@[inline]
def modifyCpu (f : Cpu → Cpu) : Exec β Unit := fun ⟨cpu, bus⟩ => .ok () ⟨f cpu, bus⟩

@[inline]
def registers : Exec β Registers := fun s => .ok s.cpu.registers s

@[inline]
def modifyRegisters (f : Registers → Registers) : Exec β Unit :=
  modifyCpu fun c => { c with registers := f c.registers }

@[inline]
def withFlags {α : Type} (f : Flags → α × Flags) : Exec β α := do
  let (a, flags) := f (← registers).flags
  modifyRegisters fun r => { r with flags := flags }
  return a

def jumpTo (ip : UInt16) : Exec β Unit :=
  modifyRegisters fun r => { r with ip := ip }

def jumpBy (distance : UInt16) : Exec β Unit :=
  modifyRegisters fun r => { r with ip := r.ip + distance }

def jumpFarTo (a : SegmentedAddress) : Exec β Unit :=
  modifyRegisters fun r => { r with cs := a.segment, ip := a.offset }

/-- The bytes name no instruction; the prefixes before them belong to the report. -/
def illegal {α : Type} (bytes : List UInt8) : Exec β α := do
  let c ← cpu
  throw (.illegalInstruction (c.prefixes.bytes ++ bytes) c.instructionAddress c.instructionCount)

def divideError {α : Type} : Exec β α := do
  throw (.divideError (← cpu).instructionAddress)

variable [Bus β]

def fetchByte : Exec β UInt8 := do
  let b ← onBus (Bus.readByte (← cpu).codeAddress.linear)
  jumpBy 1
  return b

def fetchWord : Exec β UInt16 := do
  let low ← fetchByte
  let high ← fetchByte
  return high.toUInt16 <<< 8 ||| low.toUInt16

def fetchSignedByte : Exec β UInt32 := do
  return Width.byte.signExtend (← fetchByte).toUInt32

def fetch : Width → Exec β UInt32
  | .byte => do return (← fetchByte).toUInt32
  | .word => do return (← fetchWord).toUInt32
  | .dword => do
    let low ← fetchWord
    let high ← fetchWord
    return high.toUInt32 <<< 16 ||| low.toUInt32

def busAddress (s : Segment) (offset : UInt16) : Exec β UInt32 := do
  return linear ((← registers).segment s) offset

/-- `n` bytes, the lowest first; the offset goes around the end of the segment. -/
def readBytes (s : Segment) (offset : UInt16) : Nat → Exec β UInt32
  | 0 => return 0
  | n + 1 => do
    let b ← onBus (Bus.readByte (← busAddress s offset))
    let rest ← readBytes s (offset + 1) n
    return rest <<< 8 ||| b.toUInt32

def writeBytes (s : Segment) (offset : UInt16) (v : UInt32) : Nat → Exec β Unit
  | 0 => return ()
  | n + 1 => do
    onBus (Bus.writeByte (← busAddress s offset) v.toUInt8)
    writeBytes s (offset + 1) (v >>> 8) n

def readMemory (l : Location) (w : Width) : Exec β UInt32 :=
  readBytes l.segment l.offset w.bytes

def writeMemory (l : Location) (w : Width) (v : UInt32) : Exec β Unit :=
  writeBytes l.segment l.offset v w.bytes

/-- The two words of a far pointer, the offset first. -/
def readFarPointer (l : Location) : Exec β SegmentedAddress := do
  let offset ← readMemory l .word
  let segment ← readMemory { l with offset := l.offset + 2 } .word
  return ⟨segment.toUInt16, offset.toUInt16⟩

def readPlace (w : Width) : Place → Exec β UInt32
  | .register i => do return (← registers).read w i
  | .memory l => readMemory l w

def writePlace (w : Width) (v : UInt32) : Place → Exec β Unit
  | .register i => modifyRegisters fun r => r.write w i v
  | .memory l => writeMemory l w v

def readSource (w : Width) : Source → Exec β UInt32
  | .place p => readPlace w p
  | .immediate v => return w.truncate v

/-- Lowers the stack pointer and stores `v` there. -/
def push (w : Width) (v : UInt32) : Exec β Unit := do
  let sp := (← registers).word .sp - w.bytes.toUInt16
  modifyRegisters fun r => r.setWord .sp sp
  writeMemory ⟨.ss, sp⟩ w v

def pop (w : Width) : Exec β UInt32 := do
  let sp := (← registers).word .sp
  let v ← readMemory ⟨.ss, sp⟩ w
  modifyRegisters fun r => r.setWord .sp (sp + w.bytes.toUInt16)
  return v

def pushWord (v : UInt16) : Exec β Unit :=
  push .word v.toUInt32

def popWord : Exec β UInt16 := do
  return (← pop .word).toUInt16

/-- Pushes the flags and the address of the next instruction, turns interrupts and single steps off
and goes to the address in the vector table. -/
def enterVector (vector : UInt8) : Exec β Unit := do
  pushWord (← registers).flags.toWord
  modifyRegisters fun r => { r with flags := { r.flags with interrupt := false, trap := false } }
  pushWord (← registers).cs
  pushWord (← registers).ip
  let entry := vector.toUInt32 <<< 2
  let ip ← onBus (Bus.readWord entry)
  let cs ← onBus (Bus.readWord (entry + 2))
  jumpFarTo ⟨cs, ip⟩

end Exec

end Cpu

end Pc8086

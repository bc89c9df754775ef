import Pc8086.Cpu.Prefixes
import Pc8086.Cpu.RequestLatch
import Pc8086.Memory.Address

namespace Pc8086

structure Cpu where
  registers : Cpu.Registers := {}
  prefixes : Cpu.Prefixes := {}
  latch : Cpu.RequestLatch := .idle
  halted : Bool := false
  /-- A fatal fault has stopped execution. -/
  fatalError : Bool := false
  /-- Divide errors enter vector 0; otherwise they are passed over. -/
  divideErrorInterrupt : Bool := true
  /-- Steps carried out, whatever their outcome. -/
  instructionCount : Nat := 0
  /-- The offset of the first byte of the current instruction, prefixes included. -/
  instructionStart : UInt16 := 0
  deriving DecidableEq, Inhabited

namespace Cpu

def codeAddress (c : Cpu) : SegmentedAddress :=
  ⟨c.registers.cs, c.registers.ip⟩

def instructionAddress (c : Cpu) : SegmentedAddress :=
  ⟨c.registers.cs, c.instructionStart⟩

/-- One of the sixteen branch conditions; an odd code is the contrary of the even one before. -/
def condition (code : UInt8) (f : Flags) : Bool :=
  let holds :=
    match (code >>> 1) &&& 7 with
    | 0 => f.overflow
    | 1 => f.carry
    | 2 => f.zero
    | 3 => f.carry || f.zero
    | 4 => f.sign
    | 5 => f.parity
    | 6 => f.sign != f.overflow
    | _ => f.zero || (f.sign != f.overflow)
  if code &&& 1 == 0 then holds else !holds

/-- The end of an element of a string instruction: while its repetition goes on, the instruction
pointer returns to the first prefix. -/
def finishElement (c : Cpu) : Cpu :=
  match c.prefixes.leaveRepeat with
  | (none, _) => c
  | (some (mode, rewind), prefixes) =>
    let count := c.registers.word .cx - 1
    let r := c.registers.setWord .cx count
    let r := if mode.continues count r.flags.zero then { r with ip := r.ip - rewind } else r
    { c with registers := r, prefixes := prefixes }

end Cpu

end Pc8086

import Pc8086.Cpu.Alu
import Pc8086.Cpu.Prefixes

namespace Pc8086.Cpu

/-- Bit 0 of most opcodes chooses between bytes and operands of the current size. -/
inductive OperandSize where
  | byte
  | current
  deriving DecidableEq, Inhabited

namespace OperandSize

def ofOpcode (b : UInt8) : OperandSize :=
  if b &&& 1 == 0 then byte else current

def width (s : OperandSize) (p : Prefixes) : Width :=
  match s with
  | byte => .byte
  | current => p.operandWidth

end OperandSize

/-- Where the operands of an arithmetic opcode stand, the destination first. -/
inductive Layout where
  | memoryRegister
  | registerMemory
  | accumulatorImmediate
  deriving DecidableEq, Inhabited

inductive ImmediateForm where
  /-- As wide as the other operand. -/
  | full
  /-- One byte, with its sign copied upwards. -/
  | signedByte
  /-- One byte. -/
  | byte
  deriving DecidableEq, Inhabited

inductive StringOperation where
  | input
  | output
  | move
  | compare
  | store
  | load
  | scan
  deriving DecidableEq, Inhabited

namespace StringOperation

/-- The operations whose repetition also depends on the zero flag. -/
def comparing : StringOperation → Bool
  | compare | scan => true
  | _ => false

def mnemonic : StringOperation → String
  | input => "ins"
  | output => "outs"
  | move => "movs"
  | compare => "cmps"
  | store => "stos"
  | load => "lods"
  | scan => "scas"

end StringOperation

inductive CountSource where
  | one
  | cl
  | immediate
  deriving DecidableEq, Inhabited

/-- What a loop instruction asks besides the count being left. -/
inductive LoopCondition where
  | notZero
  | zero
  | always
  deriving DecidableEq, Inhabited

inductive FlagChange where
  | complementCarry
  | clearCarry
  | setCarry
  | disableInterrupts
  | enableInterrupts
  | clearDirection
  | setDirection
  deriving DecidableEq, Inhabited

inductive Opcode where
  | arithmetic (op : Alu.Operation) (layout : Layout) (size : OperandSize)
  | pushSegment (s : Segment)
  | popSegment (s : Segment)
  | escape
  /-- A segment override, the operand size or the lock. -/
  | modifier (text : String)
  | repeatNext
  | adjustAfterAdd
  | adjustAfterSub
  | adjustDigitAfterAdd
  | adjustDigitAfterSub
  | increment (r : Reg)
  | decrement (r : Reg)
  | push (r : Reg)
  | pop (r : Reg)
  | pushAll
  | popAll
  | unassigned
  | pushImmediate (form : ImmediateForm)
  | multiplyImmediate (form : ImmediateForm)
  | string (op : StringOperation) (size : OperandSize)
  | jumpIf (condition : UInt8)
  | arithmeticImmediate (form : ImmediateForm) (size : OperandSize)
  | test (size : OperandSize)
  | exchange (size : OperandSize)
  | store (size : OperandSize)
  | load (size : OperandSize)
  | storeSegment
  | loadAddress
  | loadSegment
  | popMemory
  | noOperation
  | exchangeAccumulator (r : Reg)
  | extendAccumulator
  | extendDouble
  | callFar
  | wait
  | pushFlags
  | popFlags
  | storeFlags
  | loadFlags
  | loadDirect (size : OperandSize)
  | storeDirect (size : OperandSize)
  | testImmediate (size : OperandSize)
  | loadImmediate (r : Reg) (size : OperandSize)
  | shift (count : CountSource) (size : OperandSize)
  | returnNear (releases : Bool)
  | loadFarPointer (s : Segment)
  | storeImmediate (size : OperandSize)
  | enter
  | leave
  | returnFar (releases : Bool)
  | breakpoint
  | interrupt
  | interruptOnOverflow
  | returnInterrupt
  | splitDigits
  | joinDigits
  | tableLookup
  | coprocessor
  | loop (condition : LoopCondition)
  | jumpIfCountZero
  | inputImmediate (size : OperandSize)
  | outputImmediate (size : OperandSize)
  | inputIndirect (size : OperandSize)
  | outputIndirect (size : OperandSize)
  | callNear
  | jumpNear
  | jumpFar
  | jumpShort
  | halt
  | changeFlag (change : FlagChange)
  | unary (size : OperandSize)
  | step
  | indirect
  | jumpIfNear (condition : UInt8)
  | setIf (condition : UInt8)
  | multiplyRegister
  | moveZeroExtended (source : Width)
  | moveSignExtended (source : Width)
  | undefined

inductive OpcodeKind where
  | instruction
  | modifier
  | unassigned
  | undefined
  deriving DecidableEq, Inhabited

namespace Opcode

/-- The rows below 40: six forms of one operation each, then stack, prefix and decimal opcodes. -/
def ofRow (b : UInt8) : Opcode :=
  let op := Alu.Operation.ofCode (b >>> 3)
  let size := OperandSize.ofOpcode b
  match b &&& 7 with
  | 0 | 1 => arithmetic op .memoryRegister size
  | 2 | 3 => arithmetic op .registerMemory size
  | 4 | 5 => arithmetic op .accumulatorImmediate size
  | 6 =>
    match b with
    | 0x06 => pushSegment .es
    | 0x0E => pushSegment .cs
    | 0x16 => pushSegment .ss
    | 0x1E => pushSegment .ds
    | 0x26 => modifier "es:"
    | 0x2E => modifier "cs:"
    | 0x36 => modifier "ss:"
    | _ => modifier "ds:"
  | _ =>
    match b with
    | 0x07 => popSegment .es
    | 0x0F => escape
    | 0x17 => popSegment .ss
    | 0x1F => popSegment .ds
    | 0x27 => adjustAfterAdd
    | 0x2F => adjustAfterSub
    | 0x37 => adjustDigitAfterAdd
    | _ => adjustDigitAfterSub

def ofRow6 (b : UInt8) : Opcode :=
  let size := OperandSize.ofOpcode b
  match b with
  | 0x60 => pushAll
  | 0x61 => popAll
  | 0x66 => modifier "(operand size)"
  | 0x68 => pushImmediate .full
  | 0x69 => multiplyImmediate .full
  | 0x6A => pushImmediate .signedByte
  | 0x6B => multiplyImmediate .signedByte
  | 0x6C | 0x6D => string .input size
  | 0x6E | 0x6F => string .output size
  | _ => unassigned

def ofRow8 (b : UInt8) : Opcode :=
  let size := OperandSize.ofOpcode b
  match b with
  | 0x80 | 0x82 => arithmeticImmediate .byte size
  | 0x81 => arithmeticImmediate .full size
  | 0x83 => arithmeticImmediate .signedByte size
  | 0x84 | 0x85 => test size
  | 0x86 | 0x87 => exchange size
  | 0x88 | 0x89 => store size
  | 0x8A | 0x8B => load size
  | 0x8C => storeSegment
  | 0x8D => loadAddress
  | 0x8E => loadSegment
  | 0x8F => popMemory
  | 0x90 => noOperation
  | 0x98 => extendAccumulator
  | 0x99 => extendDouble
  | 0x9A => callFar
  | 0x9B => wait
  | 0x9C => pushFlags
  | 0x9D => popFlags
  | 0x9E => storeFlags
  | 0x9F => loadFlags
  | _ => exchangeAccumulator (Reg.ofCode b)

def ofRowA (b : UInt8) : Opcode :=
  let size := OperandSize.ofOpcode b
  match b with
  | 0xA0 | 0xA1 => loadDirect size
  | 0xA2 | 0xA3 => storeDirect size
  | 0xA4 | 0xA5 => string .move size
  | 0xA6 | 0xA7 => string .compare size
  | 0xA8 | 0xA9 => testImmediate size
  | 0xAA | 0xAB => string .store size
  | 0xAC | 0xAD => string .load size
  | 0xAE | 0xAF => string .scan size
  | _ => loadImmediate (Reg.ofCode b) (if b < 0xB8 then .byte else .current)

def ofRowC (b : UInt8) : Opcode :=
  let size := OperandSize.ofOpcode b
  match b with
  | 0xC0 | 0xC1 => shift .immediate size
  | 0xC2 => returnNear true
  | 0xC3 => returnNear false
  | 0xC4 => loadFarPointer .es
  | 0xC5 => loadFarPointer .ds
  | 0xC6 | 0xC7 => storeImmediate size
  | 0xC8 => enter
  | 0xC9 => leave
  | 0xCA => returnFar true
  | 0xCB => returnFar false
  | 0xCC => breakpoint
  | 0xCD => interrupt
  | 0xCE => interruptOnOverflow
  | 0xCF => returnInterrupt
  | 0xD0 | 0xD1 => shift .one size
  | 0xD2 | 0xD3 => shift .cl size
  | 0xD4 => splitDigits
  | 0xD5 => joinDigits
  | 0xD6 => unassigned
  | 0xD7 => tableLookup
  | _ => coprocessor

def ofRowE (b : UInt8) : Opcode :=
  let size := OperandSize.ofOpcode b
  match b with
  | 0xE0 => loop .notZero
  | 0xE1 => loop .zero
  | 0xE2 => loop .always
  | 0xE3 => jumpIfCountZero
  | 0xE4 | 0xE5 => inputImmediate size
  | 0xE6 | 0xE7 => outputImmediate size
  | 0xE8 => callNear
  | 0xE9 => jumpNear
  | 0xEA => jumpFar
  | 0xEB => jumpShort
  | 0xEC | 0xED => inputIndirect size
  | 0xEE | 0xEF => outputIndirect size
  | 0xF0 => modifier "lock"
  | 0xF1 => unassigned
  | 0xF2 | 0xF3 => repeatNext
  | 0xF4 => halt
  | 0xF5 => changeFlag .complementCarry
  | 0xF6 | 0xF7 => unary size
  | 0xF8 => changeFlag .clearCarry
  | 0xF9 => changeFlag .setCarry
  | 0xFA => changeFlag .disableInterrupts
  | 0xFB => changeFlag .enableInterrupts
  | 0xFC => changeFlag .clearDirection
  | 0xFD => changeFlag .setDirection
  | 0xFE => step
  | _ => indirect

def ofByte (b : UInt8) : Opcode :=
  if b < 0x40 then ofRow b
  else if b < 0x48 then increment (Reg.ofCode b)
  else if b < 0x50 then decrement (Reg.ofCode b)
  else if b < 0x58 then push (Reg.ofCode b)
  else if b < 0x60 then pop (Reg.ofCode b)
  else if b < 0x70 then ofRow6 b
  else if b < 0x80 then jumpIf (b &&& 0x0F)
  else if b < 0xA0 then ofRow8 b
  else if b < 0xC0 then ofRowA b
  else if b < 0xE0 then ofRowC b
  else ofRowE b

/-- The map of the byte after 0F. -/
def ofEscaped (b : UInt8) : Opcode :=
  if b &&& 0xF0 == 0x80 then jumpIfNear (b &&& 0x0F)
  else if b &&& 0xF0 == 0x90 then setIf (b &&& 0x0F)
  else
    match b with
    | 0xAF => multiplyRegister
    | 0xB6 => moveZeroExtended .byte
    | 0xB7 => moveZeroExtended .word
    | 0xBE => moveSignExtended .byte
    | 0xBF => moveSignExtended .word
    | _ => undefined

def kind : Opcode → OpcodeKind
  | modifier _ => .modifier
  | unassigned => .unassigned
  | undefined => .undefined
  | _ => .instruction

/-- The name in a listing; a group whose operation stands in a later byte has a name of its own. -/
def mnemonic : Opcode → String
  | arithmetic op .. => op.mnemonic
  | pushSegment s => "push " ++ s.name
  | popSegment s => "pop " ++ s.name
  | escape => "(escape)"
  | modifier text => text
  | repeatNext => "rep"
  | adjustAfterAdd => "daa"
  | adjustAfterSub => "das"
  | adjustDigitAfterAdd => "aaa"
  | adjustDigitAfterSub => "aas"
  | increment _ => "inc"
  | decrement _ => "dec"
  | push _ | pushImmediate _ => "push"
  | pop _ | popMemory => "pop"
  | pushAll => "pusha"
  | popAll => "popa"
  | unassigned => "(unassigned)"
  | multiplyImmediate _ | multiplyRegister => "imul"
  | string op _ => op.mnemonic
  | jumpIf _ | jumpIfNear _ => "jcc"
  | arithmeticImmediate .. => "(group 1)"
  | test _ | testImmediate _ => "test"
  | exchange _ | exchangeAccumulator _ => "xchg"
  | store _ | load _ | storeSegment | loadSegment | loadDirect _ | storeDirect _
  | loadImmediate .. | storeImmediate _ => "mov"
  | loadAddress => "lea"
  | noOperation => "nop"
  | extendAccumulator => "cbw"
  | extendDouble => "cwd"
  | callFar => "call far"
  | wait => "wait"
  | pushFlags => "pushf"
  | popFlags => "popf"
  | storeFlags => "sahf"
  | loadFlags => "lahf"
  | shift .. => "(shift group)"
  | returnNear _ => "ret"
  | loadFarPointer _ => "lds"
  | enter => "enter"
  | leave => "leave"
  | returnFar _ => "retf"
  | breakpoint | interrupt | interruptOnOverflow => "int"
  | returnInterrupt => "iret"
  | splitDigits => "aam"
  | joinDigits => "aad"
  | tableLookup => "xlat"
  | coprocessor => "esc"
  | loop _ | jumpIfCountZero => "loop"
  | inputImmediate _ | outputImmediate _ | inputIndirect _ | outputIndirect _ => "in/out"
  | callNear => "call"
  | jumpNear => "jmp"
  | jumpFar => "jmp far"
  | jumpShort => "jmp short"
  | halt => "hlt"
  | changeFlag .complementCarry => "cmc"
  | changeFlag _ => "(flag op)"
  | unary _ => "(group 3)"
  | step => "(group 4)"
  | indirect => "(group 5)"
  | setIf _ => "setcc"
  | moveZeroExtended _ => "movzx"
  | moveSignExtended _ => "movsx"
  | undefined => "(bad)"

end Opcode

end Pc8086.Cpu

import Pc8086.Cpu.Opcode
import Pc8086.Cpu.Shift
import Pc8086.Memory.Address

namespace Pc8086.Cpu

structure ModRM where
  mode : UInt8
  reg : UInt8
  rm : UInt8
  deriving DecidableEq, Inhabited

namespace ModRM

def ofByte (b : UInt8) : ModRM :=
  ⟨b >>> 6, (b >>> 3) &&& 7, b &&& 7⟩

def toByte (m : ModRM) : UInt8 :=
  m.mode <<< 6 ||| m.reg <<< 3 ||| m.rm

end ModRM

inductive BaseIndex where
  | bxSi
  | bxDi
  | bpSi
  | bpDi
  | si
  | di
  | bp
  | bx
  deriving DecidableEq, Inhabited

namespace BaseIndex

def all : List BaseIndex := [bxSi, bxDi, bpSi, bpDi, si, di, bp, bx]

def ofCode (code : UInt8) : BaseIndex :=
  match code &&& 7 with
  | 0 => bxSi
  | 1 => bxDi
  | 2 => bpSi
  | 3 => bpDi
  | 4 => si
  | 5 => di
  | 6 => bp
  | _ => bx

def text : BaseIndex → String
  | bxSi => "bx+si"
  | bxDi => "bx+di"
  | bpSi => "bp+si"
  | bpDi => "bp+di"
  | si => "si"
  | di => "di"
  | bp => "bp"
  | bx => "bx"

/-- A sum with BP lies in the stack segment. -/
def defaultSegment : BaseIndex → Segment
  | bpSi | bpDi | bp => .ss
  | _ => .ds

def offset (r : Registers) : BaseIndex → UInt16
  | bxSi => r.word .bx + r.word .si
  | bxDi => r.word .bx + r.word .di
  | bpSi => r.word .bp + r.word .si
  | bpDi => r.word .bp + r.word .di
  | si => r.word .si
  | di => r.word .di
  | bp => r.word .bp
  | bx => r.word .bx

end BaseIndex

structure Location where
  segment : Segment
  offset : UInt16
  deriving DecidableEq, Inhabited

inductive Place where
  | register (r : Reg)
  | memory (l : Location)
  deriving DecidableEq, Inhabited

inductive Source where
  | place (p : Place)
  | immediate (v : UInt32)
  deriving DecidableEq, Inhabited

abbrev Source.register (r : Reg) : Source :=
  .place (.register r)

inductive UnaryOperation where
  | increment
  | decrement
  | complement
  | negate
  deriving DecidableEq, Inhabited

inductive AccumulatorOperation where
  | multiply
  | multiplySigned
  | divide
  | divideSigned
  deriving DecidableEq, Inhabited

inductive Instruction where
  | skip
  /-- Bytes that name no instruction. -/
  | undefined (bytes : List UInt8)
  | arithmetic (op : Alu.Operation) (w : Width) (target : Place) (source : Source)
  | test (w : Width) (a : Place) (b : Source)
  | unary (op : UnaryOperation) (w : Width) (target : Place)
  | accumulator (op : AccumulatorOperation) (w : Width) (source : Place)
  | multiplyTruncated (w : Width) (target : Reg) (a b : Source)
  | shift (op : Shift) (w : Width) (target : Place) (count : UInt8)
  | move (w : Width) (target : Place) (source : Source)
  | moveExtended (signed : Bool) (w : Width) (target : Reg) (sourceWidth : Width) (source : Place)
  | exchange (w : Width) (a : Place) (b : Reg)
  | storeSegment (target : Place) (s : Segment)
  | loadSegment (s : Segment) (source : Place)
  | loadFarPointer (s : Segment) (target : Reg) (l : Location)
  | tableLookup (s : Segment)
  | extendAccumulator (w : Width)
  | extendDouble (w : Width)
  | adjustAfterAdd
  | adjustAfterSub
  | adjustDigitAfterAdd
  | adjustDigitAfterSub
  | splitDigits (base : UInt8)
  | joinDigits (base : UInt8)
  | push (w : Width) (source : Source)
  | pushRegister (w : Width) (r : Reg)
  | pop (w : Width) (target : Place)
  | pushAll (w : Width)
  | popAll (w : Width)
  | pushSegment (s : Segment)
  | popSegment (s : Segment)
  | pushFlags
  | popFlags
  | storeFlags
  | loadFlags
  | enter (size : UInt16) (level : UInt8)
  | leave
  | jumpRelative (distance : UInt16)
  | jumpIf (condition : UInt8) (distance : UInt16)
  | jumpIfCountZero (distance : UInt16)
  | loop (condition : LoopCondition) (distance : UInt16)
  | jump (target : Place)
  | jumpFar (target : SegmentedAddress)
  | jumpFarIndirect (l : Location)
  | callRelative (distance : UInt16)
  | call (target : Place)
  | callFar (target : SegmentedAddress)
  | callFarIndirect (l : Location)
  | returnNear (release : UInt16)
  | returnFar (release : UInt16)
  | interrupt (vector : UInt8)
  | interruptOnOverflow
  | returnInterrupt
  | input (w : Width) (port : UInt16)
  | output (w : Width) (port : UInt16)
  | string (op : StringOperation) (w : Width)
  | setIf (condition : UInt8) (target : Place)
  | changeFlag (change : FlagChange)
  | halt
  deriving DecidableEq

end Pc8086.Cpu

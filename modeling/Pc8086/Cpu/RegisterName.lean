import Pc8086.Cpu.Register

namespace Pc8086.Cpu

inductive RegisterName where
  | lowByte (r : Reg)
  | highByte (r : Reg)
  | word (r : Reg)
  | dword (r : Reg)
  | segment (s : Segment)
  | ip
  deriving DecidableEq, Inhabited

namespace RegisterName

/-- Every name with its text; the high and low bytes exist for the first four registers. -/
def table : List (String × RegisterName) :=
  [("al", lowByte .ax), ("cl", lowByte .cx), ("dl", lowByte .dx), ("bl", lowByte .bx),
   ("ah", highByte .ax), ("ch", highByte .cx), ("dh", highByte .dx), ("bh", highByte .bx),
   ("ax", word .ax), ("cx", word .cx), ("dx", word .dx), ("bx", word .bx),
   ("sp", word .sp), ("bp", word .bp), ("si", word .si), ("di", word .di),
   ("eax", dword .ax), ("ecx", dword .cx), ("edx", dword .dx), ("ebx", dword .bx),
   ("esp", dword .sp), ("ebp", dword .bp), ("esi", dword .si), ("edi", dword .di),
   ("es", segment .es), ("cs", segment .cs), ("ss", segment .ss), ("ds", segment .ds),
   ("ip", ip)]

def ofText? (s : String) : Option RegisterName :=
  table.lookup s.toLower

def text (n : RegisterName) : String :=
  match table.find? fun entry => entry.2 == n with
  | some entry => entry.1
  | none => ""

def ofByteCode (code : UInt8) : RegisterName :=
  match (Reg.ofCode code).byteHost with
  | (host, false) => lowByte host
  | (host, true) => highByte host

def ofWordCode (code : UInt8) : RegisterName :=
  word (Reg.ofCode code)

def ofDwordCode (code : UInt8) : RegisterName :=
  dword (Reg.ofCode code)

def ofSegmentCode (code : UInt8) : RegisterName :=
  segment (Segment.ofCode code)

/-- The number within its bank; the instruction pointer counts as the first. -/
def index : RegisterName → UInt8
  | lowByte r | highByte r | word r | dword r => r.code
  | segment s => s.code
  | ip => 0

def isHighByte : RegisterName → Bool
  | highByte _ => true
  | _ => false

/-- The general register with the number of `n`, whatever bank `n` is in. -/
def generalRegister (n : RegisterName) : Reg :=
  Reg.ofCode n.index

end RegisterName

namespace Registers

/-- The byte view of a name: the high byte for a high byte, else the low byte of the general
register with the same number. -/
def byteOf (r : Registers) (n : RegisterName) : UInt8 :=
  if n.isHighByte then r.highByte n.generalRegister else r.lowByte n.generalRegister

def setByteOf (r : Registers) (n : RegisterName) (v : UInt8) : Registers :=
  if n.isHighByte then r.setHighByte n.generalRegister v else r.setLowByte n.generalRegister v

/-- The word view of a name: its segment register or the instruction pointer, else the low word of
the general register with the same number. -/
def wordOf (r : Registers) : RegisterName → UInt16
  | .segment s => r.segment s
  | .ip => r.ip
  | n => r.word n.generalRegister

def setWordOf (r : Registers) (n : RegisterName) (v : UInt16) : Registers :=
  match n with
  | .segment s => r.setSegment s v
  | .ip => { r with ip := v }
  | n => r.setWord n.generalRegister v

def dwordOf (r : Registers) (n : RegisterName) : UInt32 :=
  r.dword n.generalRegister

def setDwordOf (r : Registers) (n : RegisterName) (v : UInt32) : Registers :=
  r.setDword n.generalRegister v

def get (r : Registers) : RegisterName → UInt32
  | .lowByte i => (r.lowByte i).toUInt32
  | .highByte i => (r.highByte i).toUInt32
  | .dword i => r.dword i
  | n => (r.wordOf n).toUInt32

/-- A name written at its own width; higher bits of `v` are dropped. -/
def set (r : Registers) (n : RegisterName) (v : UInt32) : Registers :=
  match n with
  | .lowByte i => r.setLowByte i v.toUInt8
  | .highByte i => r.setHighByte i v.toUInt8
  | .dword i => r.setDword i v
  | n => r.setWordOf n v.toUInt16

def getText? (r : Registers) (s : String) : Option UInt32 :=
  if s.toLower == "flags" then some r.flags.toWord.toUInt32
  else (RegisterName.ofText? s).map r.get

def setText? (r : Registers) (s : String) (v : UInt32) : Option Registers :=
  if s.toLower == "flags" then some { r with flags := Flags.ofWord v.toUInt16 }
  else (RegisterName.ofText? s).map fun n => r.set n v

end Registers

end Pc8086.Cpu

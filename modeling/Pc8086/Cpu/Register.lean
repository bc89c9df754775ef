import Pc8086.Width
import Pc8086.Cpu.Flags

namespace Pc8086.Cpu

/-- The general registers in the order of their numbers, each named by its low word. -/
inductive Reg where
  | ax
  | cx
  | dx
  | bx
  | sp
  | bp
  | si
  | di
  deriving DecidableEq, Inhabited

namespace Reg

def all : List Reg := [ax, cx, dx, bx, sp, bp, si, di]

def ofCode (code : UInt8) : Reg :=
  match code &&& 7 with
  | 0 => ax
  | 1 => cx
  | 2 => dx
  | 3 => bx
  | 4 => sp
  | 5 => bp
  | 6 => si
  | _ => di

def code : Reg → UInt8
  | ax => 0
  | cx => 1
  | dx => 2
  | bx => 3
  | sp => 4
  | bp => 5
  | si => 6
  | di => 7

/-- As a byte register, a number below four is the low byte of its register, and one from four on
is the high byte of the register four places earlier. -/
def byteHost : Reg → Reg × Bool
  | ax => (ax, false)
  | cx => (cx, false)
  | dx => (dx, false)
  | bx => (bx, false)
  | sp => (ax, true)
  | bp => (cx, true)
  | si => (dx, true)
  | di => (bx, true)

end Reg

inductive Segment where
  | es
  | cs
  | ss
  | ds
  deriving DecidableEq, Inhabited

namespace Segment

def all : List Segment := [es, cs, ss, ds]

def ofCode (code : UInt8) : Segment :=
  match code &&& 3 with
  | 0 => es
  | 1 => cs
  | 2 => ss
  | _ => ds

def code : Segment → UInt8
  | es => 0
  | cs => 1
  | ss => 2
  | ds => 3

def name : Segment → String
  | es => "es"
  | cs => "cs"
  | ss => "ss"
  | ds => "ds"

def ofOverride? : UInt8 → Option Segment
  | 0x26 => some es
  | 0x2E => some cs
  | 0x36 => some ss
  | 0x3E => some ds
  | _ => none

end Segment

structure Registers where
  eax : UInt32 := 0
  ecx : UInt32 := 0
  edx : UInt32 := 0
  ebx : UInt32 := 0
  esp : UInt32 := 0
  ebp : UInt32 := 0
  esi : UInt32 := 0
  edi : UInt32 := 0
  es : UInt16 := 0
  cs : UInt16 := 0
  ss : UInt16 := 0
  ds : UInt16 := 0
  ip : UInt16 := 0
  flags : Flags := {}
  deriving DecidableEq, Inhabited

namespace Registers

def dword (r : Registers) : Reg → UInt32
  | .ax => r.eax
  | .cx => r.ecx
  | .dx => r.edx
  | .bx => r.ebx
  | .sp => r.esp
  | .bp => r.ebp
  | .si => r.esi
  | .di => r.edi

def setDword (r : Registers) (i : Reg) (v : UInt32) : Registers :=
  match i with
  | .ax => { r with eax := v }
  | .cx => { r with ecx := v }
  | .dx => { r with edx := v }
  | .bx => { r with ebx := v }
  | .sp => { r with esp := v }
  | .bp => { r with ebp := v }
  | .si => { r with esi := v }
  | .di => { r with edi := v }

def word (r : Registers) (i : Reg) : UInt16 :=
  (r.dword i).toUInt16

/-- The upper half stays as it is. -/
def setWord (r : Registers) (i : Reg) (v : UInt16) : Registers :=
  r.setDword i ((r.dword i &&& 0xFFFF0000) ||| v.toUInt32)

def lowByte (r : Registers) (i : Reg) : UInt8 :=
  (r.dword i).toUInt8

def setLowByte (r : Registers) (i : Reg) (v : UInt8) : Registers :=
  r.setDword i ((r.dword i &&& 0xFFFFFF00) ||| v.toUInt32)

def highByte (r : Registers) (i : Reg) : UInt8 :=
  (r.dword i >>> 8).toUInt8

def setHighByte (r : Registers) (i : Reg) (v : UInt8) : Registers :=
  let rest := r.dword i &&& 0xFFFF00FF
  r.setDword i (rest ||| v.toUInt32 <<< 8)

def byte (r : Registers) (i : Reg) : UInt8 :=
  match i.byteHost with
  | (host, false) => r.lowByte host
  | (host, true) => r.highByte host

def setByte (r : Registers) (i : Reg) (v : UInt8) : Registers :=
  match i.byteHost with
  | (host, false) => r.setLowByte host v
  | (host, true) => r.setHighByte host v

def read (r : Registers) (w : Width) (i : Reg) : UInt32 :=
  match w with
  | .byte => (r.byte i).toUInt32
  | .word => (r.word i).toUInt32
  | .dword => r.dword i

def write (r : Registers) (w : Width) (i : Reg) (v : UInt32) : Registers :=
  match w with
  | .byte => r.setByte i v.toUInt8
  | .word => r.setWord i v.toUInt16
  | .dword => r.setDword i v

def segment (r : Registers) : Segment → UInt16
  | .es => r.es
  | .cs => r.cs
  | .ss => r.ss
  | .ds => r.ds

def setSegment (r : Registers) (s : Segment) (v : UInt16) : Registers :=
  match s with
  | .es => { r with es := v }
  | .cs => { r with cs := v }
  | .ss => { r with ss := v }
  | .ds => { r with ds := v }

def al (r : Registers) : UInt8 := r.lowByte .ax

def ah (r : Registers) : UInt8 := r.highByte .ax

def setAl (r : Registers) (v : UInt8) : Registers := r.setLowByte .ax v

def setAh (r : Registers) (v : UInt8) : Registers := r.setHighByte .ax v

end Registers

end Pc8086.Cpu

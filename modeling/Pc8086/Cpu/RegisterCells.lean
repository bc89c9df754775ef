import Pc8086.Cpu.RegisterName

namespace Pc8086.Cpu

structure Cell where
  value : UInt16 := 0
  deriving DecidableEq, Inhabited

namespace Cell

def setHigh (c : Cell) (v : UInt8) : Cell :=
  let rest := c.value &&& 0xFF
  ⟨rest + v.toUInt16 <<< 8⟩

def setLow (c : Cell) (v : UInt8) : Cell :=
  ⟨(c.value &&& 0xFF00) + v.toUInt16⟩

def low (c : Cell) : UInt8 :=
  (c.value &&& 0xFF).toUInt8

def high (c : Cell) : UInt8 :=
  (c.value >>> 8).toUInt8

end Cell

def Segment.place (s : Segment) : Fin 4 :=
  ⟨s.code.toNat % 4, Nat.mod_lt _ (by decide)⟩

def RegisterName.place (n : RegisterName) : Fin 8 :=
  ⟨n.index.toNat % 8, Nat.mod_lt _ (by decide)⟩

/-- A bank with a new entry. -/
def put {α : Type} {n : Nat} (bank : Vector α n) (i : Fin n) (x : α) : Vector α n :=
  bank.set i x i.isLt

structure RegisterCells where
  /-- AX, CX, DX, BX, SP, BP, SI, DI. -/
  general : Vector Cell 8 := .replicate 8 {}
  /-- The upper halves of EAX to EDI. -/
  upper : Vector UInt16 8 := .replicate 8 0
  /-- ES, CS, SS, DS. -/
  segments : Vector Cell 4 := .replicate 4 {}
  ip : Cell := {}
  flags : Flags := {}
  deriving DecidableEq

namespace RegisterCells

def byteOf (c : RegisterCells) (n : RegisterName) : UInt8 :=
  let cell := c.general.get n.place
  if n.isHighByte then cell.high else cell.low

def setByteOf (c : RegisterCells) (n : RegisterName) (v : UInt8) : RegisterCells :=
  let cell := c.general.get n.place
  { c with general := put c.general n.place (if n.isHighByte then cell.setHigh v else cell.setLow v) }

/-- The cell of a name; a byte's is that of the whole word. -/
def cell (c : RegisterCells) : RegisterName → Cell
  | .segment s => c.segments.get s.place
  | .ip => c.ip
  | n => c.general.get n.place

def setCell (c : RegisterCells) (n : RegisterName) (x : Cell) : RegisterCells :=
  match n with
  | .segment s => { c with segments := put c.segments s.place x }
  | .ip => { c with ip := x }
  | n => { c with general := put c.general n.place x }

def wordOf (c : RegisterCells) (n : RegisterName) : UInt16 :=
  (c.cell n).value

def setWordOf (c : RegisterCells) (n : RegisterName) (v : UInt16) : RegisterCells :=
  c.setCell n ⟨v⟩

def dwordOf (c : RegisterCells) (n : RegisterName) : UInt32 :=
  (c.upper.get n.place).toUInt32 <<< 16 ||| (c.general.get n.place).value.toUInt32

def setDwordOf (c : RegisterCells) (n : RegisterName) (v : UInt32) : RegisterCells :=
  { c with
    upper := put c.upper n.place (v >>> 16).toUInt16
    general := put c.general n.place ⟨v.toUInt16⟩ }

def get (c : RegisterCells) (n : RegisterName) : UInt32 :=
  match n with
  | .lowByte _ | .highByte _ => (c.byteOf n).toUInt32
  | .dword _ => c.dwordOf n
  | _ => (c.wordOf n).toUInt32

def set (c : RegisterCells) (n : RegisterName) (v : UInt32) : RegisterCells :=
  match n with
  | .lowByte _ | .highByte _ => c.setByteOf n v.toUInt8
  | .dword _ => c.setDwordOf n v
  | _ => c.setWordOf n v.toUInt16

def cellText? (c : RegisterCells) (s : String) : Option Cell :=
  (RegisterName.ofText? s).map c.cell

def modifyCellText? (c : RegisterCells) (s : String) (f : Cell → Cell) : Option RegisterCells :=
  (RegisterName.ofText? s).map fun n => c.setCell n (f (c.cell n))

def getText? (c : RegisterCells) (s : String) : Option UInt32 :=
  if s.toLower == "flags" then some c.flags.toWord.toUInt32
  else (RegisterName.ofText? s).map c.get

def setText? (c : RegisterCells) (s : String) (v : UInt32) : Option RegisterCells :=
  if s.toLower == "flags" then some { c with flags := Flags.ofWord v.toUInt16 }
  else (RegisterName.ofText? s).map fun n => c.set n v

def registers (c : RegisterCells) : Registers where
  eax := c.dwordOf (.dword .ax)
  ecx := c.dwordOf (.dword .cx)
  edx := c.dwordOf (.dword .dx)
  ebx := c.dwordOf (.dword .bx)
  esp := c.dwordOf (.dword .sp)
  ebp := c.dwordOf (.dword .bp)
  esi := c.dwordOf (.dword .si)
  edi := c.dwordOf (.dword .di)
  es := c.wordOf (.segment .es)
  cs := c.wordOf (.segment .cs)
  ss := c.wordOf (.segment .ss)
  ds := c.wordOf (.segment .ds)
  ip := c.wordOf .ip
  flags := c.flags

end RegisterCells

end Pc8086.Cpu

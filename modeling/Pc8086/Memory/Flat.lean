import Pc8086.Fault

namespace Pc8086

structure Memory where
  bytes : ByteArray
  deriving Inhabited

namespace Memory

/-- One mebibyte: conventional and upper memory. -/
def defaultSize : Nat := 0x100000

def zeroed (size : Nat) : Memory :=
  ⟨⟨Array.replicate size 0⟩⟩

def size (m : Memory) : Nat :=
  m.bytes.size

def byte? (m : Memory) (a : UInt32) : Option UInt8 :=
  if h : a.toNat < m.bytes.size then some (m.bytes.get a.toNat h) else none

def readByte (m : Memory) (a : UInt32) : Except Fault UInt8 :=
  match m.byte? a with
  | some b => .ok b
  | none => .error (.addressOutOfRange a)

def writeByte (m : Memory) (a : UInt32) (b : UInt8) : Except Fault Unit × Memory :=
  if h : a.toNat < m.bytes.size then (.ok (), ⟨m.bytes.set a.toNat b h⟩)
  else (.error (.addressOutOfRange a), m)

/-- Low byte first; the upper of the two addresses is looked at first. -/
def readWord (m : Memory) (a : UInt32) : Except Fault UInt16 := do
  let high ← m.readByte (a + 1)
  let low ← m.readByte a
  return high.toUInt16 <<< 8 ||| low.toUInt16

/-- Low byte first; it stays written if the high byte is out of range. -/
def writeWord (m : Memory) (a : UInt32) (v : UInt16) : Except Fault Unit × Memory :=
  match m.writeByte a v.toUInt8 with
  | (.ok (), m) => m.writeByte (a + 1) (v >>> 8).toUInt8
  | (.error f, m) => (.error f, m)

/-- The `n` bytes from `a` on; the address reported is the one past the last. -/
def read (m : Memory) (a : UInt32) (n : Nat) : Except Fault ByteArray :=
  if a.toNat + n ≤ m.bytes.size then .ok (m.bytes.extract a.toNat (a.toNat + n))
  else .error (.addressOutOfRange (a.toNat + n).toUInt32)

/-- Writes all of `data` or nothing. -/
def write (m : Memory) (a : UInt32) (data : ByteArray) : Except Fault Unit × Memory :=
  if a.toNat + data.size ≤ m.bytes.size then
    (.ok (), ⟨data.copySlice 0 m.bytes a.toNat data.size⟩)
  else (.error (.addressOutOfRange (a.toNat + data.size).toUInt32), m)

end Memory

end Pc8086

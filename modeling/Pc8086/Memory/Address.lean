import Pc8086.Text.Hex

namespace Pc8086

/-- The 20 lines of the address bus; carries out of the topmost are lost. -/
def addressMask : UInt32 := 0xFFFFF

/-- The bus address of `offset` in the segment that starts sixteen times `segment` bytes up. -/
def linear (segment offset : UInt16) : UInt32 :=
  ((segment.toUInt32 <<< 4) + offset.toUInt32) &&& addressMask

structure SegmentedAddress where
  segment : UInt16
  offset : UInt16
  deriving DecidableEq, Inhabited

namespace SegmentedAddress

def linear (a : SegmentedAddress) : UInt32 :=
  Pc8086.linear a.segment a.offset

def advance (a : SegmentedAddress) (n : UInt16) : SegmentedAddress :=
  { a with offset := a.offset + n }

def render (a : SegmentedAddress) : String :=
  Text.hexPadded 4 a.segment.toNat ++ ":" ++ Text.hexPadded 4 a.offset.toNat

end SegmentedAddress

end Pc8086

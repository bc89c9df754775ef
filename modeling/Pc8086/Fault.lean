import Pc8086.Width
import Pc8086.Memory.Address

namespace Pc8086

inductive Fault where
  /-- No device answers an access of this size at this port. -/
  | unknownPort (port : UInt16) (width : Width)
  | addressOutOfRange (address : UInt32)
  /-- The bytes, prefixes included, name no instruction. -/
  | illegalInstruction (bytes : List UInt8) (start : SegmentedAddress) (executed : Nat)
  | divideError (start : SegmentedAddress)
  /-- Every byte of the code segment is a prefix, so no instruction ever begins. -/
  | endlessPrefixes (start : SegmentedAddress)
  deriving DecidableEq

namespace Fault

/-- A fatal fault ends a run; the other ones are vectored or passed over. -/
def isFatal : Fault → Bool
  | divideError _ => false
  | _ => true

def message : Fault → String
  | unknownPort port width =>
    "unknown port " ++ Text.hexPadded 4 port.toNat ++ " (" ++ toString width.bits ++ "-bit access)"
  | addressOutOfRange address =>
    "memory address " ++ Text.hexPadded 6 address.toNat ++ " is out of range"
  | illegalInstruction bytes start executed =>
    "illegal instruction " ++ Text.hexBytes bytes ++ " at " ++ start.render ++ " after " ++
      toString executed ++ " instructions"
  | divideError start => "divide error at " ++ start.render
  | endlessPrefixes start => "endless prefixes at " ++ start.render

end Fault

end Pc8086

/-!
Operand sizes. A value of any size travels in a 32-bit word of which only the low bits count.
-/

namespace Pc8086

inductive Width where
  | byte
  | word
  | dword
  deriving DecidableEq, Inhabited

namespace Width

def bits : Width → Nat
  | byte => 8
  | word => 16
  | dword => 32

def bytes : Width → Nat
  | byte => 1
  | word => 2
  | dword => 4

def mask : Width → UInt32
  | byte => 0xFF
  | word => 0xFFFF
  | dword => 0xFFFFFFFF

def signBit : Width → UInt32
  | byte => 0x80
  | word => 0x8000
  | dword => 0x80000000

def truncate (w : Width) (v : UInt32) : UInt32 :=
  v &&& w.mask

def toInt (w : Width) (v : UInt32) : Int :=
  (v.toNat : Int).bmod (Nat.pow 2 w.bits)

def signExtend (w : Width) (v : UInt32) : UInt32 :=
  UInt32.ofInt (w.toInt v)

end Width

end Pc8086

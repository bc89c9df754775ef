import Pc8086.Cpu.Alu

namespace Pc8086.Cpu

inductive Shift where
  | rol
  | ror
  | rcl
  | rcr
  | shl
  | shr
  /-- A second code for the left shift. -/
  | sal
  | sar
  deriving DecidableEq, Inhabited

namespace Shift

def ofCode (code : UInt8) : Shift :=
  match code &&& 7 with
  | 0 => rol
  | 1 => ror
  | 2 => rcl
  | 3 => rcr
  | 4 => shl
  | 5 => shr
  | 6 => sal
  | _ => sar

def top (w : Width) (v : UInt32) : Bool :=
  v &&& w.signBit != 0

def low (v : UInt32) : Bool :=
  v &&& 1 != 0

/-- `v` moved up one place, with `fill` entering at the bottom. -/
def up (w : Width) (v : UInt32) (fill : Bool) : UInt32 :=
  w.truncate (v <<< 1 ||| fill.toUInt32)

def down (w : Width) (v : UInt32) (fill : Bool) : UInt32 :=
  v >>> 1 ||| (if fill then w.signBit else 0)

/-- The value and the carry after one place; the carry is the bit that left. -/
def place (op : Shift) (w : Width) : UInt32 × Bool → UInt32 × Bool
  | (v, c) =>
    match op with
    | rol => (up w v (top w v), top w v)
    | ror => (down w v (low v), low v)
    | rcl => (up w v c, top w v)
    | rcr => (down w v c, low v)
    | shl | sal => (up w v false, top w v)
    | shr => (down w v false, low v)
    | sar => (down w v (top w v), low v)

/-- The overflow flag for a value `before` that became `after`: whether the sign changed with the
last place, but for a right shift the sign before the first, and none for an arithmetic one. -/
def overflow (op : Shift) (w : Width) (before after : UInt32) (carry : Bool) : Bool :=
  match op with
  | rol | rcl | shl | sal => top w after != carry
  | ror | rcr => top w after != (after &&& (w.signBit >>> 1) != 0)
  | shr => top w before
  | sar => false

/-- Rotates leave the flags of the result alone. -/
def isRotate : Shift → Bool
  | rol | ror | rcl | rcr => true
  | shl | shr | sal | sar => false

/-- The count is not reduced; a count of zero changes neither the operand nor a flag. -/
def apply (op : Shift) (w : Width) (v : UInt32) (count : UInt8) (f : Flags) : UInt32 × Flags :=
  let v := w.truncate v
  if count == 0 then (v, f)
  else
    let (result, carry) := Nat.repeat (op.place w) count.toNat (v, f.carry)
    let g := { f with carry := carry, overflow := op.overflow w v result carry }
    (result, if op.isRotate then g else Alu.flagResult w result g)

end Shift

end Pc8086.Cpu

import Pc8086.Cpu.Alu
import Pc8086.Cpu.Register

namespace Pc8086.Cpu.Registers

def wordPair (r : Registers) : UInt32 :=
  (r.word .dx).toUInt32 <<< 16 ||| (r.word .ax).toUInt32

def dwordPair (r : Registers) : UInt64 :=
  (r.dword .dx).toUInt64 <<< 32 ||| (r.dword .ax).toUInt64

/-- The double accumulator is AX, DX:AX or EDX:EAX. -/
def setDoubleAccumulator (r : Registers) (w : Width) (low high : UInt32) : Registers :=
  match w with
  | .byte => (r.setAl low.toUInt8).setAh high.toUInt8
  | .word => (r.setWord .ax low.toUInt16).setWord .dx high.toUInt16
  | .dword => (r.setDword .ax low).setDword .dx high

/-- Carry and overflow tell that significant bits were lost or moved to the upper half. -/
def setLost (r : Registers) (lost : Bool) : Registers :=
  { r with flags := { r.flags with carry := lost, overflow := lost } }

def multiply (r : Registers) (w : Width) (source : UInt32) : Registers :=
  match w with
  | .byte =>
    let product := r.al.toUInt16 * source.toUInt16
    (r.setWord .ax product).setLost (product >>> 8 != 0)
  | .word =>
    let product := (r.word .ax).toUInt32 * source
    let high := product >>> 16
    ((r.setWord .ax product.toUInt16).setWord .dx high.toUInt16).setLost (high != 0)
  | .dword =>
    let product := (r.dword .ax).toUInt64 * source.toUInt64
    let high := (product >>> 32).toUInt32
    ((r.setDword .ax product.toUInt32).setDword .dx high).setLost (high != 0)

def multiplySigned (r : Registers) (w : Width) (source : UInt32) : Registers :=
  match w with
  | .byte =>
    let product := r.al.toInt8.toInt16 * source.toUInt8.toInt8.toInt16
    (r.setWord .ax product.toUInt16).setLost (product != product.toInt8.toInt16)
  | .word =>
    let product := (r.word .ax).toInt16.toInt32 * source.toUInt16.toInt16.toInt32
    let high := (product >>> 16).toUInt32.toUInt16
    ((r.setWord .ax product.toUInt32.toUInt16).setWord .dx high).setLost
      (product != product.toInt16.toInt32)
  | .dword =>
    let product := (r.dword .ax).toInt32.toInt64 * source.toInt32.toInt64
    let high := (product >>> 32).toUInt64.toUInt32
    ((r.setDword .ax product.toUInt64.toUInt32).setDword .dx high).setLost
      (product != product.toInt32.toInt64)

def multiplyTruncated (r : Registers) (w : Width) (i : Reg) (a b : UInt32) : Registers :=
  let product := w.toInt a * w.toInt b
  let low := w.truncate (UInt32.ofInt product)
  (r.setLost (w.toInt low != product)).write w i low

/-- Unsigned division of the double accumulator; nothing if the quotient has no place. -/
def divide? (r : Registers) (w : Width) (source : UInt32) : Option Registers :=
  if source == 0 then none
  else
    match w with
    | .byte =>
      let dividend := (r.word .ax).toUInt32
      let quotient := dividend / source
      if quotient > 0xFF then none
      else some ((r.setAl quotient.toUInt8).setAh (dividend % source).toUInt8)
    | .word =>
      let dividend := r.wordPair
      let quotient := dividend / source
      if quotient > 0xFFFF then none
      else some ((r.setWord .ax quotient.toUInt16).setWord .dx (dividend % source).toUInt16)
    | .dword =>
      let dividend := r.dwordPair
      let quotient := dividend / source.toUInt64
      if quotient > 0xFFFFFFFF then none
      else
        some ((r.setDword .ax quotient.toUInt32).setDword .dx
          (dividend % source.toUInt64).toUInt32)

def signedDividend (r : Registers) : Width → Int
  | .byte => (r.word .ax).toInt16.toInt
  | .word => r.wordPair.toInt32.toInt
  | .dword => r.dwordPair.toInt64.toInt

def divideSigned? (r : Registers) (w : Width) (source : UInt32) : Option Registers :=
  if w.truncate source == 0 then none
  else
    let dividend := r.signedDividend w
    let divisor := w.toInt source
    let quotient := dividend.tdiv divisor
    let limit := Int.pow 2 (w.bits - 1)
    if quotient ≥ limit ∨ quotient < -limit then none
    else
      some (r.setDoubleAccumulator w (UInt32.ofInt quotient) (UInt32.ofInt (dividend.tmod divisor)))

def flagByte (r : Registers) (v : UInt8) : Registers :=
  { r with flags := Alu.flagResult .byte v.toUInt32 r.flags }

/-- Makes AL two decimal digits again after it was changed by `low` or `high` too little: `low` for
the lower digit and `high` for the upper one. -/
def adjustPacked (r : Registers) (low high : UInt8) : Registers :=
  let lower := r.al &&& 0x0F > 9 || r.flags.adjust
  let upper := r.al > 0x99 || r.flags.carry
  let v := r.al + (if upper then high else 0) + (if lower then low else 0)
  let r := { r with flags := { r.flags with carry := upper, adjust := lower } }
  (r.setAl v).flagByte v

def adjustAfterAdd (r : Registers) : Registers :=
  r.adjustPacked 0x06 0x60

def adjustAfterSub (r : Registers) : Registers :=
  r.adjustPacked (-0x06) (-0x60)

/-- Makes AL one decimal digit, carrying `high` into AH when it was not. -/
def adjustUnpacked (r : Registers) (low high : UInt8) : Registers :=
  let carry := r.flags.adjust || r.al &&& 0x0F > 9
  let v := if carry then r.al + low else r.al
  let r := if carry then r.setAh (r.ah + high) else r
  let r := { r with flags := { r.flags with carry := carry, adjust := carry } }
  r.setAl (v &&& 0x0F)

def adjustDigitAfterAdd (r : Registers) : Registers :=
  r.adjustUnpacked 6 1

def adjustDigitAfterSub (r : Registers) : Registers :=
  r.adjustUnpacked (-6) (-1)

def splitDigits? (r : Registers) (base : UInt8) : Option Registers :=
  if base == 0 then none
  else
    let digit := r.al % base
    some (((r.setAh (r.al / base)).setAl digit).flagByte digit)

def joinDigits (r : Registers) (base : UInt8) : Registers :=
  let v := r.al + r.ah * base
  (r.setWord .ax v.toUInt16).flagByte v

/-- AL to AX or AX to EAX, with sign. -/
def extendAccumulator (r : Registers) : Width → Registers
  | .dword => r.setDword .ax (Width.word.signExtend (r.dword .ax))
  | _ => r.setWord .ax (Width.byte.signExtend (r.dword .ax)).toUInt16

def extendDouble (r : Registers) : Width → Registers
  | .dword =>
    r.setDword .dx (if r.dword .ax &&& Width.dword.signBit != 0 then 0xFFFFFFFF else 0)
  | _ => r.setWord .dx (if r.dword .ax &&& Width.word.signBit != 0 then 0xFFFF else 0)

end Pc8086.Cpu.Registers

import Pc8086.Width
import Pc8086.Cpu.Flags

namespace Pc8086.Cpu.Alu

/-- The low byte has an even number of ones. -/
def parity (result : UInt32) : Bool :=
  ((List.range 8).countP fun i => result.toBitVec.getLsbD i) % 2 == 0

/-- A carry or borrow passed between bits 3 and 4. -/
def adjust (result a b : UInt32) : Bool :=
  (result ^^^ a ^^^ b) &&& 0x10 != 0

/-- Both addends differ in sign from the sum. -/
def overflowAdd (w : Width) (result a b : UInt32) : Bool :=
  (result ^^^ a) &&& (result ^^^ b) &&& w.signBit != 0

def overflowSub (w : Width) (result subtrahend minuend : UInt32) : Bool :=
  (minuend ^^^ subtrahend) &&& (minuend ^^^ result) &&& w.signBit != 0

def carry (w : Width) (wide : UInt64) : Bool :=
  wide &&& ~~~w.mask.toUInt64 != 0

def flagResult (w : Width) (result : UInt32) (f : Flags) : Flags :=
  { f with
    sign := result &&& w.signBit != 0
    zero := w.truncate result == 0
    parity := parity result }

def add (w : Width) (a b : UInt32) (carryIn : Bool) (f : Flags) : UInt32 × Flags :=
  let a := w.truncate a
  let b := w.truncate b
  let wide := a.toUInt64 + b.toUInt64 + carryIn.toUInt64
  let result := w.truncate wide.toUInt32
  (result, flagResult w result { f with
    carry := carry w wide
    overflow := overflowAdd w result a b
    adjust := adjust result a b })

def sub (w : Width) (minuend subtrahend : UInt32) (borrowIn : Bool) (f : Flags) :
    UInt32 × Flags :=
  let minuend := w.truncate minuend
  let subtrahend := w.truncate subtrahend
  let result := w.truncate (minuend - subtrahend - borrowIn.toUInt32)
  (result, flagResult w result { f with
    carry := decide (minuend.toUInt64 < subtrahend.toUInt64 + borrowIn.toUInt64)
    overflow := overflowSub w result subtrahend minuend
    adjust := adjust result subtrahend minuend })

/-- The flags of a bitwise result: no carry, overflow or adjust. -/
def logic (w : Width) (result : UInt32) (f : Flags) : UInt32 × Flags :=
  let result := w.truncate result
  (result, flagResult w result { f with carry := false, overflow := false, adjust := false })

/-- Adds one and keeps the carry. -/
def increment (w : Width) (a : UInt32) (f : Flags) : UInt32 × Flags :=
  let (result, g) := add w a 1 false f
  (result, { g with carry := f.carry })

def decrement (w : Width) (a : UInt32) (f : Flags) : UInt32 × Flags :=
  let (result, g) := sub w a 1 false f
  (result, { g with carry := f.carry })

def negate (w : Width) (a : UInt32) (f : Flags) : UInt32 × Flags :=
  sub w 0 a false f

inductive Operation where
  | add
  | or
  | adc
  | sbb
  | and
  | sub
  | xor
  | compare
  deriving DecidableEq, Inhabited

namespace Operation

def ofCode (code : UInt8) : Operation :=
  match code &&& 7 with
  | 0 => add
  | 1 => or
  | 2 => adc
  | 3 => sbb
  | 4 => and
  | 5 => sub
  | 6 => xor
  | _ => compare

def mnemonic : Operation → String
  | add => "add"
  | or => "or"
  | adc => "adc"
  | sbb => "sbb"
  | and => "and"
  | sub => "sub"
  | xor => "xor"
  | compare => "cmp"

/-- A comparison is a subtraction whose result is dropped. -/
def storesResult : Operation → Bool
  | compare => false
  | _ => true

def apply (op : Operation) (w : Width) (a b : UInt32) (f : Flags) : UInt32 × Flags :=
  match op with
  | add => Alu.add w a b false f
  | adc => Alu.add w a b f.carry f
  | sub | compare => Alu.sub w a b false f
  | sbb => Alu.sub w a b f.carry f
  | or => logic w (a ||| b) f
  | and => logic w (a &&& b) f
  | xor => logic w (a ^^^ b) f

end Operation

end Pc8086.Cpu.Alu

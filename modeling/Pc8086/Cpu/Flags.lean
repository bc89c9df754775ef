namespace Pc8086.Cpu

inductive Flag where
  | carry
  | parity
  | adjust
  | zero
  | sign
  | trap
  | interrupt
  | direction
  | overflow
  deriving DecidableEq, Inhabited

namespace Flag

def all : List Flag :=
  [carry, parity, adjust, zero, sign, trap, interrupt, direction, overflow]

def mask : Flag → UInt16
  | carry => 0x0001
  | parity => 0x0004
  | adjust => 0x0010
  | zero => 0x0040
  | sign => 0x0080
  | trap => 0x0100
  | interrupt => 0x0200
  | direction => 0x0400
  | overflow => 0x0800

def letter : Flag → Char
  | carry => 'C'
  | parity => 'P'
  | adjust => 'A'
  | zero => 'Z'
  | sign => 'S'
  | trap => 'T'
  | interrupt => 'I'
  | direction => 'D'
  | overflow => 'O'

def ofLetter? (c : Char) : Option Flag :=
  all.find? fun f => f.letter == c.toUpper

end Flag

structure Flags where
  carry : Bool := false
  parity : Bool := false
  adjust : Bool := false
  zero : Bool := false
  sign : Bool := false
  trap : Bool := false
  interrupt : Bool := false
  direction : Bool := false
  overflow : Bool := false
  deriving DecidableEq, Inhabited

namespace Flags

def get (f : Flags) : Flag → Bool
  | .carry => f.carry
  | .parity => f.parity
  | .adjust => f.adjust
  | .zero => f.zero
  | .sign => f.sign
  | .trap => f.trap
  | .interrupt => f.interrupt
  | .direction => f.direction
  | .overflow => f.overflow

def set (f : Flags) (flag : Flag) (v : Bool) : Flags :=
  match flag with
  | .carry => { f with carry := v }
  | .parity => { f with parity := v }
  | .adjust => { f with adjust := v }
  | .zero => { f with zero := v }
  | .sign => { f with sign := v }
  | .trap => { f with trap := v }
  | .interrupt => { f with interrupt := v }
  | .direction => { f with direction := v }
  | .overflow => { f with overflow := v }

/-- Bit 1 and bits 12 to 15 of the packed word are always set. -/
def fixedOnes : UInt16 := 0xF002

def toWord (f : Flags) : UInt16 :=
  Flag.all.foldl (fun w flag => if f.get flag then w ||| flag.mask else w) fixedOnes

def ofWord (w : UInt16) : Flags where
  carry := w &&& Flag.carry.mask != 0
  parity := w &&& Flag.parity.mask != 0
  adjust := w &&& Flag.adjust.mask != 0
  zero := w &&& Flag.zero.mask != 0
  sign := w &&& Flag.sign.mask != 0
  trap := w &&& Flag.trap.mask != 0
  interrupt := w &&& Flag.interrupt.mask != 0
  direction := w &&& Flag.direction.mask != 0
  overflow := w &&& Flag.overflow.mask != 0

end Flags

end Pc8086.Cpu

import Pc8086.Cpu.Register

namespace Pc8086.Cpu

/-- When a repeated string instruction goes on, besides the count being left. -/
inductive RepeatMode where
  | always
  | whileEqual
  | whileNotEqual
  deriving DecidableEq, Inhabited

namespace RepeatMode

/-- Asked after each element, with the count already lowered. -/
def continues (m : RepeatMode) (count : UInt16) (zero : Bool) : Bool :=
  count != 0 &&
    match m with
    | always => true
    | whileEqual => zero
    | whileNotEqual => !zero

end RepeatMode

namespace PrefixByte

def operandSize : UInt8 := 0x66

def lock : UInt8 := 0xF0

def repeatNotEqual : UInt8 := 0xF2

def repeatEqual : UInt8 := 0xF3

def isRepeat (b : UInt8) : Bool :=
  b == repeatNotEqual || b == repeatEqual

/-- Every other prefix byte: a segment override, the operand size or the lock. -/
def isSimple (b : UInt8) : Bool :=
  (Segment.ofOverride? b).isSome || b == operandSize || b == lock

/-- Only comparing string instructions look at the zero flag between elements. -/
def repeatMode (b : UInt8) (comparing : Bool) : RepeatMode :=
  if comparing then
    if b == repeatNotEqual then .whileNotEqual else .whileEqual
  else .always

end PrefixByte

inductive Progress where
  | idle
  /-- The byte was the last prefix so far. -/
  | pending (b : UInt8)
  /-- A string instruction repeats; `rewind` bytes lie between its first prefix and its end. -/
  | repeating (mode : RepeatMode) (rewind : UInt16)
  deriving DecidableEq, Inhabited

structure Prefixes where
  /-- The bytes so far, the latest one first. -/
  latestFirst : List UInt8 := []
  progress : Progress := .idle
  deriving DecidableEq, Inhabited

namespace Prefixes

def bytes (p : Prefixes) : List UInt8 :=
  p.latestFirst.reverse

/-- The latest override wins. -/
def segmentOverride (p : Prefixes) : Option Segment :=
  p.latestFirst.findSome? Segment.ofOverride?

def segmentOr (p : Prefixes) (s : Segment) : Segment :=
  p.segmentOverride.getD s

def operandWidth (p : Prefixes) : Width :=
  if p.latestFirst.contains PrefixByte.operandSize then .dword else .word

def isRepeating (p : Prefixes) : Bool :=
  match p.progress with
  | .repeating .. => true
  | _ => false

/-- A repetition under way stays under way. -/
def push (p : Prefixes) (b : UInt8) : Prefixes where
  latestFirst := b :: p.latestFirst
  progress := if p.isRepeating then p.progress else .pending b

def reset (_ : Prefixes) : Prefixes :=
  {}

def enterRepeat (p : Prefixes) (mode : RepeatMode) (rewind : UInt16) : Prefixes :=
  { p with progress := .repeating mode rewind }

/-- Ends a repetition and tells which one it was. -/
def leaveRepeat (p : Prefixes) : Option (RepeatMode × UInt16) × Prefixes :=
  match p.progress with
  | .repeating mode rewind => (some (mode, rewind), { p with progress := .idle })
  | _ => (none, p)

end Prefixes

end Pc8086.Cpu

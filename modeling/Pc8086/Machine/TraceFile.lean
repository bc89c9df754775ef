namespace Pc8086

structure TraceFile where
  /-- The lines written so far, those in the buffer included. -/
  lines : Array String := #[]
  /-- Bytes in the buffer. -/
  buffered : Nat := 0
  /-- Bytes that the medium still takes, if it is limited. -/
  room : Option Nat := none
  /-- The medium has refused bytes. -/
  failed : Bool := false
  deriving Inhabited

namespace TraceFile

def bufferSize : Nat := 8192

/-- Sends `n` bytes to the medium, which fails if they do not fit. -/
def send (f : TraceFile) (n : Nat) : TraceFile :=
  match f.room with
  | none => f
  | some room =>
    if n ≤ room then { f with room := some (room - n) } else { f with failed := true }

def flush (f : TraceFile) : TraceFile :=
  { f.send f.buffered with buffered := 0 }

/-- Puts `n` bytes into the buffer, which is emptied first if they do not fit; so many that they
never would go straight to the medium. -/
def put (f : TraceFile) (n : Nat) : TraceFile :=
  let f := if f.buffered + n > bufferSize then f.flush else f
  if n ≥ bufferSize then f.send n else { f with buffered := f.buffered + n }

def writeLine (f : TraceFile) (line : String) : TraceFile :=
  let f := (f.put line.utf8ByteSize).put 1
  if f.failed then f else { f with lines := f.lines.push line }

end TraceFile

end Pc8086

namespace Pc8086.Snapshot

abbrev Encoder := ByteArray → ByteArray

namespace Encoder

def byte (v : UInt8) : Encoder := fun out => out.push v

def bytes (v : ByteArray) : Encoder := fun out => out ++ v

def number (v : Nat) : Nat → Encoder
  | 0 => id
  | n + 1 => fun out => number (v / 256) n (out.push v.toUInt8)

def word (v : UInt16) : Encoder := number v.toNat 2

def dword (v : UInt32) : Encoder := number v.toNat 4

def length (n : Nat) : Encoder := number n 8

def alternative (n : Nat) : Encoder := number n 4

def bool (b : Bool) : Encoder := byte b.toUInt8

def option {α : Type} (f : α → Encoder) : Option α → Encoder
  | none => byte 0
  | some a => fun out => f a (byte 1 out)

def all (es : List Encoder) : Encoder := fun out =>
  es.foldl (fun out e => e out) out

def each {α : Type} (f : α → Encoder) (as : List α) : Encoder :=
  all (as.map f)

end Encoder

structure Cursor where
  data : ByteArray
  position : Nat

abbrev Decoder := StateT Cursor Option

namespace Decoder

def byte : Decoder UInt8 := fun c =>
  if h : c.position < c.data.size then
    some (c.data.get c.position h, { c with position := c.position + 1 })
  else none

def bytes (n : Nat) : Decoder ByteArray := fun c =>
  if c.position + n ≤ c.data.size then
    some (c.data.extract c.position (c.position + n), { c with position := c.position + n })
  else none

def number : Nat → Decoder Nat
  | 0 => return 0
  | n + 1 => do
    let low ← byte
    let rest ← number n
    return low.toNat + 256 * rest

def word : Decoder UInt16 := do
  return (← number 2).toUInt16

def dword : Decoder UInt32 := do
  return (← number 4).toUInt32

def length : Decoder Nat :=
  number 8

def alternative {α : Type} (as : List α) : Decoder α := do
  match as[← number 4]? with
  | some a => return a
  | none => failure

def bool : Decoder Bool := do
  match ← byte with
  | 0 => return false
  | 1 => return true
  | _ => failure

def option {α : Type} (d : Decoder α) : Decoder (Option α) := do
  if ← bool then return some (← d) else return none

/-- `n` more parts of one kind after those in `done`. -/
def more {α : Type} (d : Decoder α) (done : Array α) : Nat → Decoder (Array α)
  | 0 => fun c => some (done, c)
  | n + 1 => fun c =>
    match d c with
    | some (a, c) => more d (done.push a) n c
    | none => none

def text : Decoder String := do
  match String.fromUTF8? (← bytes (← length)) with
  | some s => return s
  | none => failure

end Decoder

end Pc8086.Snapshot

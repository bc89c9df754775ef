import Pc8086.Toml.Value

namespace Pc8086.Toml

structure Table where
  /-- The parts of the header; the table before the first header has none. -/
  header : List String
  /-- The header stands in double brackets and adds an element to an array. -/
  isElement : Bool
  pairs : Pairs

namespace Table

def readHeader : Reader Table := do
  Reader.expect .leftBracket
  let isElement ← Reader.eat .leftBracket
  Reader.skipSpace
  let header ← Reader.key
  Reader.expect .rightBracket
  if isElement then Reader.expect .rightBracket
  Reader.skipSpace
  Reader.lineEnd
  return { header := header, isElement := isElement, pairs := [] }

def readPair (t : Table) : Reader Table := do
  let k ← Reader.key
  Reader.skipSpace
  Reader.expect .equals
  Reader.skipSpace
  let n ← (fun ts => some (ts.length, ts) : Reader Nat)
  let v ← Value.read (2 * n + 1)
  let ps ← (Value.insert? v k t.pairs : Option Pairs)
  Reader.skipSpace
  Reader.lineEnd
  return { t with pairs := ps }

/-- The tables from `t` on, whose pairs are being read; `n` bounds the lines left. -/
def readAll (t : Table) : Nat → Reader (List Table)
  | 0 => failure
  | n + 1 => do
    Reader.skipSpace
    match ← Reader.peek with
    | none => return [t]
    | some .newline | some .comment =>
      Reader.lineEnd
      readAll t n
    | some .leftBracket => return t :: (← readAll (← readHeader) n)
    | some _ => readAll (← readPair t) n

/-- Each table with the number of elements that the arrays it lies in have so far, the outermost
array first. -/
def withScopes (before : List Table) : List Table → List (Table × List Nat)
  | [] => []
  | t :: ts =>
    let scope := (List.range t.header.length).map fun i =>
      before.countP fun u => u.isElement && u.header == t.header.take i
    (t, scope) :: withScopes (before ++ [t]) ts

/-- A table may follow others: among those within the same elements none has its header, except
elements of one array, and the first that lies at or within an array belongs to the array. -/
def mayFollow (before : List (Table × List Nat)) (t : Table × List Nat) : Bool :=
  let header := t.1.header
  let same := (before.filter fun u => u.2.take header.length == t.2).map Prod.fst
  let repeats (u : Table) : Bool := u.header == header && !(u.isElement && t.1.isElement)
  let inside := same.find? fun u => header.isPrefixOf u.header
  !same.any repeats && (!t.1.isElement || inside.all fun u => u.header == header)

def consistent (before : List (Table × List Nat)) : List (Table × List Nat) → Bool
  | [] => true
  | t :: ts => mayFollow before t && consistent (before ++ [t]) ts

end Table

def tables? (s : String) : Option (List Table) := do
  let ts ← Token.ofText? s
  let root : Table := { header := [], isElement := false, pairs := [] }
  let (tables, _) ← Table.readAll root (ts.length + 1) ts
  if Table.consistent [] (Table.withScopes [] tables) then some tables else none

end Pc8086.Toml

import Pc8086.Toml.Token

namespace Pc8086.Toml

inductive Value where
  | integer (i : Int)
  | boolean (b : Bool)
  | text (s : String)
  | float
  | date
  | array (items : List Value)
  /-- `dotted` if it arose from dotted keys, which may add to it. -/
  | table (dotted : Bool) (pairs : List (String × Value))

abbrev Pairs := List (String × Value)

abbrev Reader := StateT (List Token) Option

namespace Reader

def peek : Reader (Option Token) := fun ts => some (ts.head?, ts)

def next : Reader Token := fun ts =>
  match ts with
  | t :: ts => some (t, ts)
  | [] => none

def eat (t : Token) : Reader Bool := fun ts =>
  match ts with
  | u :: us => if u = t then some (true, us) else some (false, ts)
  | [] => some (false, [])

def expect (t : Token) : Reader Unit := do
  if !(← eat t) then failure

def skipSpace : Reader Unit := fun ts =>
  match ts with
  | .space _ :: ts => some ((), ts)
  | ts => some ((), ts)

def lineEnd : Reader Unit := do
  let _ ← eat .comment
  match ← peek with
  | none => return ()
  | some _ => expect .newline

def bareWord : Reader (List Char) := do
  match ← next with
  | .bare cs => return cs
  | _ => failure

def keyPart : Reader String := do
  match ← next with
  | .bare cs => return String.ofList cs
  | .quoted s false => return s
  | _ => failure

def keyRest : Nat → Reader (List String)
  | 0 => return []
  | n + 1 => do
    skipSpace
    if ← eat .period then
      skipSpace
      let k ← keyPart
      return k :: (← keyRest n)
    else return []

def key : Reader (List String) := do
  let k ← keyPart
  let n ← (fun ts => some (ts.length, ts) : Reader Nat)
  return k :: (← keyRest n)

end Reader

namespace Value

/-- The digits at the front of `cs`, with single underscores between them, and the rest. A leading
zero may have to stand alone. -/
def digits? (radix : Nat) (leadingZeros : Bool) (isFirst afterZero afterUnderscore : Bool) :
    List Char → Option (List Char × List Char)
  | [] => if isFirst || afterUnderscore then none else some ([], [])
  | c :: cs =>
    if c == '0' && isFirst then
      (digits? radix leadingZeros false true false cs).map fun (ds, rest) => (c :: ds, rest)
    else if (Text.digit? radix c).isSome then
      if !isFirst && afterZero && !leadingZeros then none
      else
        (digits? radix leadingZeros false afterZero false cs).map fun (ds, rest) => (c :: ds, rest)
    else if c == '_' && isFirst then none
    else if c == '_' && !afterUnderscore then digits? radix leadingZeros false afterZero true cs
    else if isFirst || afterUnderscore then none
    else some ([], c :: cs)

def number? (radix : Nat) (signed leadingZeros : Bool) (cs : List Char) :
    Option (Bool × List Char × List Char) :=
  match cs with
  | c :: cs' =>
    if signed && (c == '-' || c == '+') then
      (digits? radix leadingZeros true false false cs').map fun (ds, rest) => (c == '-', ds, rest)
    else (digits? radix leadingZeros true false false cs).map fun (ds, rest) => (false, ds, rest)
  | [] => none

def ofDigits (radix : Nat) (ds : List Char) : Nat :=
  (Text.natural? radix ds).getD 0

/-- A whole number of 64 bits and nothing else. Only decimal ones have a sign and no leading
zero. -/
def integer? (radix : Nat) (cs : List Char) : Option Value := do
  let (negative, ds, rest) ← number? radix (radix == 10) (radix != 10) cs
  let n : Int := ofDigits radix ds
  let i := if negative then -n else n
  if rest.isEmpty && -Int.pow 2 63 ≤ i && i < Int.pow 2 63 then some (integer i) else none

/-- Numbers from here on round to infinity. -/
def doubleLimit : Nat := Nat.pow 2 1024 - Nat.pow 2 970

def isFinite (ds : List Char) (exponent : Int) : Bool :=
  let n := ofDigits 10 ds
  if n == 0 then true
  else if exponent > 400 then false
  else if exponent ≥ 0 then n * Nat.pow 10 exponent.toNat < doubleLimit
  else if exponent < -100000 then true
  else n < doubleLimit * Nat.pow 10 (-exponent).toNat

/-- The exponent behind the letter; the letter may be the end of its word, and a sign a token of its
own. -/
def exponent? (rest : List Char) : Reader Int := do
  let word ←
    if rest.isEmpty then
      let _ ← Reader.eat .plus
      Reader.bareWord
    else pure rest
  match number? 10 (!rest.isEmpty) true word with
  | some (negative, ds, []) =>
    let n : Int := ofDigits 10 ds
    return if negative then -n else n
  | _ => failure

/-- A number with a fraction or an exponent. Its value does not matter, but it must be finite. -/
def float? (cs : List Char) (fraction : Option (List Char)) : Reader Value := do
  let some (_, whole, rest) := number? 10 true false cs | failure
  let (part, rest) ←
    match fraction with
    | none => pure ([], rest)
    | some cs =>
      if !rest.isEmpty then failure
      match number? 10 false true cs with
      | some (_, part, rest) => pure (part, rest)
      | none => failure
  let exponent ←
    match rest with
    | [] => pure 0
    | c :: rest => if c == 'e' || c == 'E' then exponent? rest else failure
  if isFinite (whole ++ part) (exponent - part.length) then return float else failure

def ofNumber (cs : List Char) : Reader Value := do
  match cs with
  | '0' :: 'x' :: cs => (integer? 16 cs : Option Value)
  | '0' :: 'o' :: cs => (integer? 8 cs : Option Value)
  | '0' :: 'b' :: cs => (integer? 2 cs : Option Value)
  | cs =>
    if cs.contains 'e' || cs.contains 'E' then float? cs none
    else if ← Reader.eat .period then float? cs (some (← Reader.bareWord))
    else if ["inf", "-inf", "nan", "-nan"].contains (String.ofList cs) then return float
    else (integer? 10 cs : Option Value)

/-- A date that begins with a word, or a time whose first colon was taken. Only the shape is
checked. -/
def ofDate (colonTaken : Bool) : Reader Value := do
  match ← get with
  | .space true :: .bare _ :: ts => set ts
  | _ => pure ()
  if colonTaken || (← Reader.eat .colon) then
    let _ ← Reader.bareWord
    Reader.expect .colon
    let _ ← Reader.bareWord
    if ← Reader.eat .period then
      let _ ← Reader.bareWord
    if ← Reader.eat .plus then
      let _ ← Reader.bareWord
    if ← Reader.eat .colon then
      let _ ← Reader.bareWord
  return date

def hasPair (a b : Char) : List Char → Bool
  | c :: d :: cs => (c == a && d == b) || hasPair a b (d :: cs)
  | _ => false

/-- A word behind its first character has a dash that is not the sign of an exponent. -/
def looksLikeDate (cs : List Char) : Bool :=
  cs.contains 'T' || cs.contains 't' ||
    cs.tail.contains '-' && !hasPair 'e' '-' cs && !hasPair 'E' '-' cs

def ofWord (cs : List Char) : Reader Value := do
  if cs == "true".toList then return boolean true
  else if cs == "false".toList then return boolean false
  else if cs != "inf".toList && cs != "nan".toList &&
      !cs.head?.any (fun c => c == '-' || c.isDigit) then failure
  else if looksLikeDate cs then ofDate false
  else if ← Reader.eat .colon then ofDate true
  else ofNumber cs

/-- Adds a value under a key of several parts. A part that names something other than a table of
dotted keys is refused. -/
def insert? (v : Value) : List String → Pairs → Option Pairs
  | [], _ => none
  | [k], ps => some (ps ++ [(k, v)])
  | k :: ks, ps =>
    match ps.lookup k with
    | none => (insert? v ks []).map fun inner => ps ++ [(k, table true inner)]
    | some (table true inner) =>
      (insert? v ks inner).map fun inner =>
        let before := ps.takeWhile fun p => p.1 != k
        before ++ (k, table true inner) :: ps.drop (before.length + 1)
    | some _ => none

def skipLines : Nat → Reader Unit
  | 0 => return ()
  | n + 1 => do
    Reader.skipSpace
    match ← Reader.peek with
    | some .newline | some .comment =>
      Reader.lineEnd
      skipLines n
    | _ => return ()

mutual

/-- A value; `n` bounds the depth and length of what is nested. -/
def read : Nat → Reader Value
  | 0 => failure
  | n + 1 => do
    match ← Reader.next with
    | .quoted s _ => return text s
    | .bare cs => ofWord cs
    | .plus => ofNumber (← Reader.bareWord)
    | .leftBrace =>
      Reader.skipSpace
      if ← Reader.eat .rightBrace then return table false []
      else return table false (← readPairs n [])
    | .leftBracket => return array (← readItems n)
    | _ => failure

def readItems : Nat → Reader (List Value)
  | 0 => failure
  | n + 1 => do
    skipLines n
    if ← Reader.eat .rightBracket then return []
    let v ← read n
    skipLines n
    if ← Reader.eat .comma then return v :: (← readItems n)
    Reader.expect .rightBracket
    return [v]

def readPairs : Nat → Pairs → Reader Pairs
  | 0, _ => failure
  | n + 1, ps => do
    let k ← Reader.key
    Reader.skipSpace
    Reader.expect .equals
    Reader.skipSpace
    let v ← read n
    let ps ← (insert? v k ps : Option Pairs)
    Reader.skipSpace
    if ← Reader.eat .rightBrace then return ps
    Reader.expect .comma
    Reader.skipSpace
    readPairs n ps

end

end Value

end Pc8086.Toml

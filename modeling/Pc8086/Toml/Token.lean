import Pc8086.Text.Digits

namespace Pc8086.Toml

inductive Token where
  /-- Blanks and tabs; `plain` if it is a single blank. -/
  | space (plain : Bool)
  | newline
  | comment
  | equals
  | period
  | comma
  | colon
  | plus
  | leftBrace
  | rightBrace
  | leftBracket
  | rightBracket
  /-- Letters, digits, dashes and underscores. -/
  | bare (chars : List Char)
  | quoted (text : String) (multiline : Bool)
  deriving DecidableEq, Inhabited

namespace Token

/-- A line feed stands for a carriage return before it, too. -/
def joinLineEnds : List Char → List Char
  | '\r' :: '\n' :: cs => '\n' :: joinLineEnds cs
  | c :: cs => c :: joinLineEnds cs
  | [] => []

def isBlank (c : Char) : Bool :=
  c == ' ' || c == '\t'

def isBare (c : Char) : Bool :=
  c.isAlphanum || c == '-' || c == '_'

def isCommentChar (c : Char) : Bool :=
  c == '\t' || ' ' ≤ c

def isTextChar (c : Char) : Bool :=
  isCommentChar c && c != '\x7f'

def codePoint? (digits : List Char) : Option Char := do
  let n ← Text.natural? 16 digits
  if n.isValidChar then some (Char.ofNat n) else none

def escape? : Char → Option Char
  | '"' => some '"'
  | '\\' => some '\\'
  | 'b' => some '\x08'
  | 'f' => some '\x0c'
  | 'n' => some '\n'
  | 'r' => some '\r'
  | 't' => some '\t'
  | _ => none

/-- The text behind a line end that is escaped: blanks and line ends are passed over. Blanks between
the backslash and the line end are allowed. -/
def continueLine? (cs : List Char) : Option (List Char) :=
  match cs.dropWhile isBlank with
  | '\n' :: cs => some (cs.dropWhile fun c => isBlank c || c == '\n')
  | _ => none

/-- An escape sequence after its backslash: a character or, across lines, nothing. -/
def escapeSequence? (multiline : Bool) : List Char → Option (List Char × List Char)
  | 'u' :: cs => do
    if cs.length < 4 then none
    else return ([← codePoint? (cs.take 4)], cs.drop 4)
  | 'U' :: cs => do
    if cs.length < 8 then none
    else return ([← codePoint? (cs.take 8)], cs.drop 8)
  | c :: cs =>
    match escape? c with
    | some e => some ([e], cs)
    | none => if multiline then (continueLine? (c :: cs)).map ([], ·) else none
  | [] => none

/-- The rest of a string up to its closing quotes, with what follows it. `done` holds what was read,
the latest first, and `n` bounds the characters left. -/
def stringBody? (quote : Char) (escapes multiline : Bool) (done : List Char) :
    Nat → List Char → Option (String × List Char)
  | 0, _ => none
  | _, [] => none
  | n + 1, c :: cs =>
    if c == quote then
      if multiline then
        let quotes := cs.takeWhile (· == quote)
        if quotes.length < 2 then stringBody? quote escapes multiline (c :: done) n cs
        else
          -- up to two more quotes belong to the text
          let extra := min 2 (quotes.length - 2)
          some (String.ofList (done.reverse ++ List.replicate extra quote), cs.drop (2 + extra))
      else some (String.ofList done.reverse, cs)
    else if c == '\n' then
      if multiline then stringBody? quote escapes multiline (c :: done) n cs else none
    else if escapes && c == '\\' then
      match escapeSequence? multiline cs with
      | some (e, cs) => stringBody? quote escapes multiline (e ++ done) n cs
      | none => none
    else if isTextChar c then stringBody? quote escapes multiline (c :: done) n cs
    else none

/-- A string after its first quote. A line end right after three quotes is passed over. -/
def string? (quote : Char) (escapes : Bool) (cs : List Char) : Option (Token × List Char) :=
  let body (multiline : Bool) (cs : List Char) : Option (Token × List Char) :=
    (stringBody? quote escapes multiline [] (cs.length + 1) cs).map fun (s, cs) =>
      (quoted s multiline, cs)
  match cs with
  | c :: d :: cs' =>
    if c == quote then
      if d == quote then
        match cs' with
        | '\n' :: cs' => body true cs'
        | cs' => body true cs'
      else some (quoted "" false, d :: cs')
    else body false cs
  | [c] => if c == quote then some (quoted "" false, []) else none
  | [] => none

def first? : List Char → Option (Token × List Char)
  | [] => none
  | '\n' :: cs => some (newline, cs)
  | '=' :: cs => some (equals, cs)
  | '.' :: cs => some (period, cs)
  | ',' :: cs => some (comma, cs)
  | ':' :: cs => some (colon, cs)
  | '+' :: cs => some (plus, cs)
  | '{' :: cs => some (leftBrace, cs)
  | '}' :: cs => some (rightBrace, cs)
  | '[' :: cs => some (leftBracket, cs)
  | ']' :: cs => some (rightBracket, cs)
  | '#' :: cs => some (comment, cs.dropWhile isCommentChar)
  | '"' :: cs => string? '"' true cs
  | '\x27' :: cs => string? '\x27' false cs
  | c :: cs =>
    if isBlank c then
      let rest := cs.dropWhile isBlank
      some (space (c == ' ' && rest.length == cs.length), rest)
    else if isBare c then some (bare (c :: cs.takeWhile isBare), cs.dropWhile isBare)
    else none

def upTo : Nat → List Char → Option (List Token)
  | _, [] => some []
  | 0, _ => none
  | n + 1, cs => do
    let (t, cs) ← first? cs
    return t :: (← upTo n cs)

def ofText? (s : String) : Option (List Token) :=
  let cs := joinLineEnds s.toList
  let cs := if cs.head? == some '\uFEFF' then cs.tail else cs
  upTo cs.length cs

end Token

end Pc8086.Toml

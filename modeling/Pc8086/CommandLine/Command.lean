import Pc8086.CommandLine.Parameter

namespace Pc8086.CommandLine

structure Arguments where
  image : String
  values : List (Parameter × String) := []
  deriving DecidableEq

def Arguments.value? (a : Arguments) (p : Parameter) : Option String :=
  a.values.lookup p

inductive Command where
  | help
  | version
  | run (a : Arguments)
  deriving DecidableEq

inductive UsageError where
  | unknownParameter (word : String)
  /-- An image was named before this word. -/
  | secondImage (word : String)
  | missingValue (p : Parameter)
  | repeated (p : Parameter)
  | missingImage
  deriving DecidableEq

def UsageError.message : UsageError → String
  | unknownParameter word => "unknown parameter " ++ word
  | secondImage word => "unexpected argument " ++ word
  | missingValue p => "--" ++ p.name ++ " needs a value"
  | repeated p => "--" ++ p.name ++ " is given more than once"
  | missingImage => "no image is named"

inductive Word where
  | plain
  | help
  | version
  | parameter (p : Parameter) (attached : Option String)
  | unknown
  deriving DecidableEq

namespace Word

/-- A value written in the same word, without the equals signs before it. -/
def attached (cs : List Char) : String :=
  String.ofList (cs.dropWhile (· == '='))

/-- A long form, its dashes removed: a name and, behind an equals sign, a value. -/
def ofLong (cs : List Char) : Word :=
  let name := String.ofList (cs.takeWhile (· != '='))
  let rest := cs.dropWhile (· != '=')
  if name == "help" then help
  else if name == "version" then version
  else
    match Parameter.ofName? name with
    | some p => parameter p (if rest.isEmpty then none else some (attached rest))
    | none => unknown

/-- A one-letter form, its dash removed; a value may follow at once. -/
def ofShort : List Char → Word
  | 'h' :: _ => help
  | 'V' :: _ => version
  | c :: rest =>
    match Parameter.ofLetter? c with
    | some p => parameter p (if rest.isEmpty then none else some (attached rest))
    | none => unknown
  | [] => unknown

def ofText (s : String) : Word :=
  match s.toList with
  | '-' :: '-' :: cs => ofLong (cs.dropWhile (· == '-'))
  | ['-'] => plain
  | '-' :: cs => ofShort cs
  | _ => plain

end Word

structure Gathered where
  image : Option String := none
  /-- Parameters with their values, where they have one. -/
  values : List (Parameter × Option String) := []

namespace Gathered

def addImage (g : Gathered) (s : String) : Except UsageError Gathered :=
  if g.image.isSome then .error (.secondImage s) else .ok { g with image := some s }

def addValue (g : Gathered) (p : Parameter) (v : Option String) : Gathered :=
  { g with values := g.values ++ [(p, v)] }

def repeated? : List Parameter → Option Parameter
  | [] => none
  | p :: ps => if ps.contains p then some p else repeated? ps

def finish (g : Gathered) : Except UsageError Command := do
  let values ← g.values.mapM fun
    | (p, some v) => .ok (p, v)
    | (p, none) => .error (UsageError.missingValue p)
  match repeated? (values.map Prod.fst), g.image with
  | some p, _ => .error (.repeated p)
  | none, none => .error .missingImage
  | none, some image => .ok (.run { image := image, values := values })

end Gathered

/-- Words in order; `awaiting` has been named and takes its value from the next word, unless that
begins with a dash. After two dashes every word names an image. Help and version are given as soon
as they are asked for, and errors of the whole line are found at its end. -/
def Command.scan (g : Gathered) (awaiting : Option Parameter) :
    List String → Except UsageError Command
  | [] => (awaiting.elim g (g.addValue · none)).finish
  | w :: ws =>
    match Word.ofText w, awaiting with
    | .plain, some p => scan (g.addValue p (some w)) none ws
    | .plain, none =>
      match g.addImage w with
      | .ok g => scan g none ws
      | .error e => .error e
    | word, _ =>
      let g := awaiting.elim g (g.addValue · none)
      if w == "--" then ws.foldlM Gathered.addImage g >>= Gathered.finish
      else
        match word with
        | .help => .ok .help
        | .version => .ok .version
        | .parameter p (some v) => scan (g.addValue p (some v)) none ws
        | .parameter p none => scan g (some p) ws
        | _ => .error (.unknownParameter w)

def Command.ofWords (words : List String) : Except UsageError Command :=
  scan {} none words

end Pc8086.CommandLine

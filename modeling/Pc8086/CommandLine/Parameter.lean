import Pc8086.Text.Hex

namespace Pc8086.CommandLine

inductive Parameter where
  | config
  | count
  | offset
  | segment
  | trace
  | traceCount
  deriving DecidableEq

namespace Parameter

def all : List Parameter := [config, count, offset, segment, trace, traceCount]

def name : Parameter → String
  | config => "config"
  | count => "count"
  | offset => "offset"
  | segment => "segment"
  | trace => "trace"
  | traceCount => "tracecount"

def letter? : Parameter → Option Char
  | config => some 'c'
  | _ => none

def description : Parameter → String
  | config => "Reads machine configuration from a TOML file"
  | count => "Stops after N instructions"
  | offset => "Load offset and entry point"
  | segment => "Load segment (decimal or 0x-prefixed hex)"
  | trace => "Writes an instruction trace to file"
  | traceCount => "Limits the trace to the first N instructions"

def ofName? (s : String) : Option Parameter :=
  all.find? fun p => p.name == s

def ofLetter? (c : Char) : Option Parameter :=
  all.find? fun p => p.letter? == some c

end Parameter

/-- An entry of the help: what is typed, in two columns, and what it does. -/
structure HelpEntry where
  /-- The one-letter form before the longer one. -/
  short : String := ""
  long : String
  description : String

def HelpEntry.lines (es : List HelpEntry) : List String :=
  let longest := (es.map fun e => e.long.length).foldl max 0
  es.map fun e => "    " ++ e.short ++ Text.padRight (longest + 4) e.long ++ e.description

def Parameter.helpEntry (p : Parameter) : HelpEntry where
  short :=
    match p.letter? with
    | some c => "-" ++ c.toString ++ ", "
    | none => "    "
  long := "--" ++ p.name ++ " <" ++ p.name ++ ">"
  description := p.description

def versionText : String := "relicpc-frontend 0.1"

def helpLines : List String :=
  [versionText, "", "USAGE:", "    relicpc-frontend [OPTIONS] <INPUT>", "", "FLAGS:"] ++
    HelpEntry.lines
      [{ short := "-h, ", long := "--help", description := "Prints help information" },
       { short := "-V, ", long := "--version", description := "Prints version information" }] ++
    ["", "OPTIONS:"] ++ HelpEntry.lines (Parameter.all.map Parameter.helpEntry) ++
    ["", "ARGS:"] ++
    HelpEntry.lines [{ long := "<INPUT>", description := "Sets the raw binary image to load" }]

end Pc8086.CommandLine

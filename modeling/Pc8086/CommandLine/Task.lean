import Pc8086.Board.ScratchCard
import Pc8086.CommandLine.Command
import Pc8086.Config.Settings
import Pc8086.Machine.Basic
import Pc8086.Text.Digits

namespace Pc8086.CommandLine

inductive Failure where
  | config (e : ConfigError)
  /-- No number, or too large a one. -/
  | number (text : String)
  | unreadable (path : String)
  | notWritable (path : String)
  | fault (f : Fault)
  deriving DecidableEq

namespace Failure

def message : Failure → String
  | config .unreadable => "the configuration cannot be read"
  | config .malformed => "the configuration is malformed"
  | config e => (e.message?).getD ""
  | number text => text ++ " is not a number in range"
  | unreadable path => path ++ " cannot be read"
  | notWritable path => path ++ " cannot be written"
  | fault f => f.message

end Failure

/-- A number of at most 64 bits: decimal, or hexadecimal behind `0x`. A plus sign may stand before
the digits. -/
def number? (s : String) : Option Nat :=
  let unsigned : List Char → List Char
    | '+' :: ds => ds
    | ds => ds
  let n :=
    match s.toList with
    | '0' :: 'x' :: ds | '0' :: 'X' :: ds => Text.natural? 16 (unsigned ds)
    | ds => Text.natural? 10 (unsigned ds)
  n.filter (· < UInt64.size)

namespace Arguments

def number (a : Arguments) (p : Parameter) (limit : Nat) : Except Failure (Option Nat) :=
  match a.value? p with
  | none => .ok none
  | some s =>
    match (number? s).filter (· < limit) with
    | some n => .ok (some n)
    | none => .error (.number s)

def inputFiles (a : Arguments) : List String :=
  (a.value? .config).toList ++ [a.image]

def config (a : Arguments) (file : String → Option ByteArray) : Except Failure Config := do
  let c ←
    match a.value? .config with
    | some path => (Config.ofFile (file path)).mapError .config
    | none => .ok {}
  let segment ← a.number .segment UInt16.size
  let offset ← a.number .offset UInt16.size
  let count ← a.number .count UInt64.size
  return { c with
    program :=
      ⟨(segment.map Nat.toUInt16).getD c.program.segment,
        (offset.map Nat.toUInt16).getD c.program.offset⟩
    maxInstructions := count <|> c.maxInstructions }

def machine (a : Arguments) (file : String → Option ByteArray) :
    Except Failure (Machine ExpansionCard) := do
  let c ← a.config file
  let some image := file a.image | .error (.unreadable a.image)
  match (Machine.ofConfig c).loadProgram image with
  | (.ok (), m) => .ok m
  | (.error f, _) => .error (.fault f)

def limitTrace {δ : Type} (a : Arguments) (m : Machine δ) : Except Failure (Machine δ) := do
  match ← a.number .traceCount UInt64.size with
  | some n => return m.modifyTrace fun t => { t with remaining := some n }
  | none => return m

end Arguments

def report (c : Cpu) : List String :=
  let r := c.registers
  let field (name : String) (v : UInt16) : String := name ++ ":" ++ Text.hexPadded 4 v.toNat
  let flag (f : Cpu.Flag) : String := f.letter.toString ++ Trace.bit (r.flags.get f)
  [" ".intercalate
    [field "AX" (r.word .ax), field "BX" (r.word .bx), field "CX" (r.word .cx),
     field "DX" (r.word .dx), field "SI" (r.word .si), field "DI" (r.word .di),
     field "BP" (r.word .bp), field "SP" (r.word .sp)],
   " ".intercalate
    [field "CS" r.cs, field "DS" r.ds, field "ES" r.es, field "SS" r.ss, field "IP" r.ip,
     field "FLAGS" r.flags.toWord],
   " ".intercalate ([.carry, .zero, .sign, .overflow, .interrupt, .direction].map flag) ++
    "  " ++ toString c.instructionCount ++ " instructions, halted: " ++ toString c.halted]

def exitCode : Except Fault Unit → UInt32
  | .ok () => 0
  | .error _ => 1

end Pc8086.CommandLine

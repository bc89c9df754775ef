import Pc8086.Config.Basic
import Pc8086.Toml.Document

namespace Pc8086.Config

open Toml (Pairs Table Value)

/-- The pairs of a section that is given as a value. An array gives the settings in their order, and
a date holds none of them. -/
def sectionOfValue? (fields : List String) : Value → Option Pairs
  | .table _ ps => some ps
  | .array vs => if vs.length ≤ fields.length then some (fields.zip vs) else none
  | .date => some []
  | _ => none

/-- The pairs of a section that is given by tables: those under its own header, and one for each
table further inside. -/
def sectionOfTables? (name : String) (ts : List Table) : Option Pairs :=
  if (ts.head?).any fun t => t.isElement && t.header == [name] then none
  else
    some (ts.flatMap fun t =>
      match t.header with
      | _ :: inner :: _ => [(inner, .table false [])]
      | _ => t.pairs)

def section? (tables : List Table) (name : String) (fields : List String) : Option Pairs :=
  let values :=
    (tables.filter (·.header.isEmpty)).flatMap fun t => t.pairs.filter (·.1 == name)
  let own := tables.filter fun t => t.header.head? == some name
  match values, own with
  | [], [] => some []
  | [(_, v)], [] => sectionOfValue? fields v
  | [], ts => sectionOfTables? name ts
  | _, _ => none

def setting? {α : Type} (ps : Pairs) (name : String) (convert : Value → Option α) (default : α) :
    Option α :=
  match ps.filter (·.1 == name) with
  | [] => some default
  | [(_, v)] => convert v
  | _ => none

def boolean? : Value → Option Bool
  | .boolean b => some b
  | _ => none

def natural? (limit : Nat) : Value → Option Nat
  | .integer i => if 0 ≤ i ∧ i < limit then some i.toNat else none
  | _ => none

/-- The settings of a text, not yet checked. -/
def ofTables? (tables : List Table) : Option Config := do
  let d : Config := {}
  let memory ← section? tables "memory" ["size"]
  let cpu ← section? tables "cpu" ["max_instructions", "divide_error_interrupt"]
  let pic ← section? tables "pic" ["master_offset", "slave_offset"]
  let pit ← section? tables "pit" ["enabled", "divisor"]
  let program ← section? tables "program" ["segment", "offset"]
  let io ← section? tables "io" ["ignore_unknown_ports"]
  let word (ps : Pairs) (name : String) (default : UInt16) : Option UInt16 :=
    setting? ps name (fun v => (natural? 0x10000 v).map Nat.toUInt16) default
  let byte (ps : Pairs) (name : String) (default : UInt8) : Option UInt8 :=
    setting? ps name (fun v => (natural? 0x100 v).map Nat.toUInt8) default
  return {
    memorySize := ← setting? memory "size" (natural? UInt64.size) d.memorySize
    maxInstructions := ← setting? cpu "max_instructions"
      (fun v => (natural? UInt64.size v).map some) d.maxInstructions
    divideErrorInterrupt := ← setting? cpu "divide_error_interrupt" boolean? d.divideErrorInterrupt
    masterBase := ← byte pic "master_offset" d.masterBase
    slaveBase := ← byte pic "slave_offset" d.slaveBase
    timerEnabled := ← setting? pit "enabled" boolean? d.timerEnabled
    timerDivisor := ← setting? pit "divisor"
      (fun v => (natural? UInt32.size v).map Nat.toUInt32) d.timerDivisor
    program :=
      ⟨← word program "segment" d.program.segment, ← word program "offset" d.program.offset⟩
    ignoreUnknownPorts := ← setting? io "ignore_unknown_ports" boolean? d.ignoreUnknownPorts }

def ofText (s : String) : Except ConfigError Config :=
  match (Toml.tables? s).bind ofTables? with
  | some c => c.validate
  | none => .error .malformed

def ofFile (contents : Option ByteArray) : Except ConfigError Config :=
  match contents.bind String.fromUTF8? with
  | some s => ofText s
  | none => .error .unreadable

end Pc8086.Config

import Pc8086.Cpu.Opcode
import Pc8086.Cpu.State
import Pc8086.Machine.TraceFile
import Pc8086.Memory.Flat

namespace Pc8086

structure Trace where
  active : Bool := false
  /-- The file that lines go to; without one they go to the log. -/
  file : Option TraceFile := none
  /-- Lines left until the trace ends. -/
  remaining : Option Nat := none
  log : Array String := #[]
  /-- Files that are no longer written, in the order they were given up. -/
  closed : Array TraceFile := #[]
  deriving Inhabited

namespace Trace

def bit (b : Bool) : String :=
  if b then "1" else "0"

/-- The address and opcode of the next instruction and the registers before it. A byte that cannot
be read shows as zero. -/
def line (c : Cpu) (m : Memory) : String :=
  let r := c.registers
  let op := (m.byte? c.codeAddress.linear).getD 0
  let dword (name : String) (i : Cpu.Reg) : String :=
    " " ++ name ++ ":" ++ Text.hexPadded 8 (r.dword i).toNat
  let word (name : String) (v : UInt16) : String :=
    " " ++ name ++ ":" ++ Text.hexPadded 4 v.toNat
  c.codeAddress.render ++ "  " ++ Text.hexPadded 2 op.toNat ++ " " ++
    Text.padRight 10 (Cpu.Opcode.ofByte op).mnemonic ++
    dword "EAX" .ax ++ dword "EBX" .bx ++ dword "ECX" .cx ++ dword "EDX" .dx ++
    dword "ESI" .si ++ dword "EDI" .di ++ dword "EBP" .bp ++ dword "ESP" .sp ++
    word "DS" r.ds ++ word "ES" r.es ++ word "SS" r.ss ++
    " C" ++ bit r.flags.carry ++ " Z" ++ bit r.flags.zero ++ " S" ++ bit r.flags.sign ++
    " O" ++ bit r.flags.overflow ++ " I" ++ bit r.flags.interrupt

def close (t : Trace) : Trace :=
  match t.file with
  | some f => { t with file := none, closed := t.closed.push f }
  | none => t

def openFile (t : Trace) (f : TraceFile) : Trace :=
  { t.close with file := some f, active := true }

/-- The first failed write ends the trace. -/
def fail (t : Trace) : Trace :=
  { t.close with active := false }

def withFile (t : Trace) (f : TraceFile) : Trace :=
  let failed := f.failed
  let t := { t with file := some f }
  if failed then t.fail else t

def write (t : Trace) (line : String) : Trace :=
  match t with
  | { file := some f, active, remaining, log, closed } =>
    Trace.withFile { file := none, active, remaining, log, closed } (f.writeLine line)
  | { file := none, active, remaining, log, closed } =>
    { file := none, active, remaining, log := log.push line, closed }

/-- The end of the lines that were asked for: what is buffered goes to the file. -/
def finish (t : Trace) : Trace :=
  match t with
  | { file := some f, remaining, log, closed, .. } =>
    Trace.withFile { file := none, active := false, remaining, log, closed } f.flush
  | { file := none, remaining, log, closed, .. } =>
    { file := none, active := false, remaining, log, closed }

def record (t : Trace) (line : String) : Trace :=
  match t.remaining with
  | some 0 => t.finish
  | some (n + 1) => { t with remaining := some n }.write line
  | none => t.write line

end Trace

end Pc8086

import Pc8086.Cpu.Decode
import Pc8086.Cpu.Execute

namespace Pc8086.Cpu

namespace Exec

variable {β : Type} [Bus β]

def finish (bytes : List UInt8) (op : Opcode) : Exec β Unit := do
  execute (← decode bytes op)

def runOpcode (b : UInt8) : Exec β Unit := do
  match Opcode.ofByte b with
  | .escape =>
    let e ← fetchByte
    finish [b, e] (Opcode.ofEscaped e)
  | op => finish [b] op

/-- Completes an instruction with the opcode `b` behind the repeat prefix `rep`, if there was one.
Only string instructions are repeated; with a count of zero nothing is done. -/
def runPrefixed (rep : Option UInt8) (b : UInt8) : Exec β Unit := do
  match rep, Opcode.ofByte b with
  | some rep, .string op _ =>
    let r ← registers
    if r.word .cx != 0 then
      modifyCpu fun c =>
        let rewind := c.registers.ip - c.instructionStart
        let mode := PrefixByte.repeatMode rep op.comparing
        { c with prefixes := c.prefixes.enterRepeat mode rewind }
      runOpcode b
  | _, _ => runOpcode b

/-- The number of bytes in a code segment. After as many prefixes none but prefixes follow. -/
def segmentSize : Nat := 0x10000

/-- Fetches prefixes up to the opcode, of which the last repeat prefix counts, and completes the
instruction. At most `n` bytes are looked at. -/
def runInstruction (rep : Option UInt8) : Nat → Exec β Unit
  | 0 => do throw (.endlessPrefixes (← cpu).instructionAddress)
  | n + 1 => do
    let b ← fetchByte
    if PrefixByte.isSimple b then
      modifyCpu fun c => { c with prefixes := c.prefixes.push b }
      runInstruction rep n
    else if PrefixByte.isRepeat b then
      modifyCpu fun c => { c with prefixes := c.prefixes.push b }
      runInstruction (some b) n
    else runPrefixed rep b

/-- Carries out the opcode `b` as if it had just been fetched. -/
def dispatch (b : UInt8) : Exec β OpcodeKind := do
  let op := Opcode.ofByte b
  match op with
  | .modifier _ => modifyCpu fun c => { c with prefixes := c.prefixes.push b }
  | .repeatNext =>
    modifyCpu fun c => { c with prefixes := c.prefixes.push b }
    runInstruction (some b) segmentSize
  | _ => runOpcode b
  return op.kind

def dispatchEscaped (b : UInt8) : Exec β OpcodeKind := do
  let op := Opcode.ofEscaped b
  finish [0x0F, b] op
  return op.kind

def serviceInterrupt : Exec β Unit := do
  let line := Bus.interruptRequested (← get).bus
  let (ready, latch) := (← cpu).latch.sample line
  modifyCpu fun c => { c with latch := latch }
  if ready && (← registers).flags.interrupt then
    let vector ← onBus (modifyGet Bus.acknowledgeInterrupt)
    modifyCpu fun c =>
      { c with latch := c.latch.delivered, halted := false, prefixes := c.prefixes.reset }
    enterVector vector

/-- A fresh instruction starts here; only a repetition keeps its prefixes. -/
def beginInstruction : Exec β Unit :=
  modifyCpu fun c =>
    { c with
      prefixes := if c.prefixes.isRepeating then c.prefixes else c.prefixes.reset
      instructionStart := c.registers.ip }

/-- Takes a waiting interrupt and runs an instruction, unless halted. The trap flag is looked at
before the instruction. -/
def iteration : Exec β Unit := do
  serviceInterrupt
  if !(← cpu).halted then
    beginInstruction
    let trap := (← registers).flags.trap
    runInstruction none segmentSize
    if trap then enterVector 1

/-- What follows a fault: a fatal one is recorded and reported, a divide error is vectored or passed
over. -/
def recover (f : Fault) : Exec β Unit :=
  if f.isFatal then do
    modifyCpu fun c => { c with fatalError := true }
    throw f
  else do
    modifyCpu fun c => { c with prefixes := c.prefixes.reset }
    if (← cpu).divideErrorInterrupt then enterVector 0

end Exec

variable {β : Type} [Bus β]

/-- The end of an iteration, whatever its outcome. -/
def retire : System β → System β
  | ⟨cpu, bus⟩ =>
    ⟨{ cpu with latch := cpu.latch.retire, instructionCount := cpu.instructionCount + 1 },
      Bus.clockPulse bus⟩

/-- One iteration. While the bus is held only the clock goes on. -/
def step : Exec β Unit := fun s =>
  if Bus.holdRequested s.bus then
    match s with
    | ⟨cpu, bus⟩ => .ok () ⟨cpu, Bus.clockPulse (Bus.acknowledgeHold bus)⟩
  else
    match Exec.iteration s with
    | .ok () s => .ok () (retire s)
    | .error f s => Exec.recover f (retire s)

end Pc8086.Cpu

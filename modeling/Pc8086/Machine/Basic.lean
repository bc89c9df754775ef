import Pc8086.Board.Basic
import Pc8086.Cpu.Step
import Pc8086.Machine.Trace

namespace Pc8086

structure Session where
  config : Config
  /-- A run is under way. -/
  running : Bool := false
  /-- Where the program was loaded, and its length. -/
  programBase : SegmentedAddress
  programLength : Nat := 0
  trace : Trace := {}

structure Machine (δ : Type) where
  system : System (Board δ)
  session : Session

namespace Machine

variable {δ : Type}

def cpu (m : Machine δ) : Cpu :=
  m.system.cpu

def board (m : Machine δ) : Board δ :=
  m.system.bus

def modifyCpu (m : Machine δ) (f : Cpu → Cpu) : Machine δ :=
  match m with
  | ⟨⟨cpu, bus⟩, session⟩ => ⟨⟨f cpu, bus⟩, session⟩

def modifyBoard (m : Machine δ) (f : Board δ → Board δ) : Machine δ :=
  match m with
  | ⟨⟨cpu, bus⟩, session⟩ => ⟨⟨cpu, f bus⟩, session⟩

def modifyTrace (m : Machine δ) (f : Trace → Trace) : Machine δ :=
  match m with
  | ⟨system, session⟩ => ⟨system, { session with trace := f session.trace }⟩

/-- Asks for the run to end at its next instruction boundary. -/
def stop (m : Machine δ) : Machine δ :=
  m.modifyBoard fun b => { b with stopRequested := true }

/-- The processor as after power-up. Memory and devices stay as they are. -/
def reset (m : Machine δ) : Machine δ :=
  match m with
  | ⟨⟨_, bus⟩, session⟩ =>
    ⟨⟨{ divideErrorInterrupt := session.config.divideErrorInterrupt }, bus⟩,
      { session with running := false }⟩

def loadImage (m : Machine δ) (data : ByteArray) (a : SegmentedAddress) :
    Except Fault Unit × Machine δ :=
  match m with
  | ⟨⟨cpu, bus⟩, session⟩ =>
    let (result, memory) := bus.memory.write a.linear data
    (result, ⟨⟨cpu, { bus with memory := memory }⟩, session⟩)

/-- Loads a program at the configured address and points the processor at it: all segments are the
program's, and the stack begins at the end of the segment. -/
def loadProgram (m : Machine δ) (data : ByteArray) : Except Fault Unit × Machine δ :=
  let a := m.session.config.program
  match m.loadImage data a with
  | (.error f, m) => (.error f, m)
  | (.ok (), m) =>
    let m := m.modifyCpu fun c =>
      let r := { c.registers with
        cs := a.segment, ds := a.segment, es := a.segment, ss := a.segment, ip := a.offset }
      { c with registers := r.setWord .sp 0xFFFE }
    (.ok (), { m with
      session := { m.session with programBase := a, programLength := data.size } })

variable [Peripheral δ]

def ofConfig (config : Config) : Machine δ where
  system :=
    { cpu := { divideErrorInterrupt := config.divideErrorInterrupt }
      bus := Board.ofConfig config }
  session := { config := config, programBase := config.program }

def exec {α : Type} (x : Cpu.Exec (Board δ) α) (m : Machine δ) : Except Fault α × Machine δ :=
  match m with
  | ⟨system, session⟩ =>
    match x system with
    | .ok a system => (.ok a, ⟨system, session⟩)
    | .error f system => (.error f, ⟨system, session⟩)

/-- Writes the next instruction to the trace, unless it is off or the processor is halted. -/
def traceInstruction (m : Machine δ) : Machine δ :=
  if m.session.trace.active && !m.cpu.halted then
    let line := Trace.line m.cpu m.board.memory
    m.modifyTrace fun t => t.record line
  else m

def step (m : Machine δ) : Except Fault Unit × Machine δ :=
  m.traceInstruction.exec Cpu.step

/-- Up to `n` iterations; the first fault ends them. -/
def steps (m : Machine δ) : Nat → Except Fault Unit × Machine δ
  | 0 => (.ok (), m)
  | n + 1 =>
    match m.step with
    | (.ok (), m) => m.steps n
    | (.error f, m) => (.error f, m)

inductive Exit where
  | stopped
  | limitReached
  /-- Halted with interrupts off, so that nothing can wake the processor. -/
  | halted
  deriving DecidableEq

/-- The reason to end a run here, the first that applies. -/
def exit? (limit : Option Nat) (m : Machine δ) : Option Exit :=
  if m.board.stopRequested then some .stopped
  else if limit.any fun n => n ≤ m.cpu.instructionCount then some .limitReached
  else if m.cpu.halted && !m.cpu.registers.flags.interrupt && m.board.holdPulses == 0 then
    some .halted
  else none

inductive Progress (δ : Type) where
  | finished (result : Except Fault Unit) (m : Machine δ)
  | unfinished (m : Machine δ)

/-- A run ends: the machine is at rest and a stop request has served its purpose. -/
def settle (m : Machine δ) : Machine δ :=
  match m with
  | ⟨⟨cpu, bus⟩, session⟩ =>
    ⟨⟨cpu, { bus with stopRequested := false }⟩, { session with running := false }⟩

def continueRun (limit : Option Nat) (m : Machine δ) : Nat → Progress δ
  | 0 =>
    match m.exit? limit with
    | some _ => .finished (.ok ()) m.settle
    | none => .unfinished m
  | n + 1 =>
    match m.exit? limit with
    | some _ => .finished (.ok ()) m.settle
    | none =>
      match m.step with
      | (.ok (), m) => m.continueRun limit n
      | (.error f, m) => .finished (.error f) m.settle

def begin (m : Machine δ) : Machine δ :=
  { m with session := { m.session with running := true } }

/-- At most `fuel` iterations of a run up to the configured limit. -/
def run (m : Machine δ) (fuel : Nat) : Progress δ :=
  let limit := m.session.config.maxInstructions
  m.begin.continueRun limit fuel

/-- Runs at most `n` more instructions, within the configured limit. Every iteration executes an
instruction or uses up a pulse of the hold, so the run is over after as many. -/
def runFor (m : Machine δ) (n : Nat) : Progress δ :=
  let limit := m.cpu.instructionCount + n
  let limit := (m.session.config.maxInstructions.map fun most => min most limit).getD limit
  let fuel := n + m.board.holdPulses
  m.begin.continueRun (some limit) fuel

end Machine

end Pc8086

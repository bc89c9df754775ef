import Pc8086.Machine.Basic
import Pc8086.Snapshot.Bytes

namespace Pc8086

open Interrupt (Assignment Chip Controller Device Initialization LineSet Registry)
open Timer (ByteAccess CountMode Counter IntervalTimer)
open Cpu (Flag Flags Reg Registers RequestLatch Segment)

/-- A state at an instruction boundary. Prefixes, hold and stop requests are not part of it. -/
structure Snapshot where
  registers : Registers
  instructionCount : Nat
  halted : Bool
  latch : RequestLatch
  controller : Controller
  timer : Option IntervalTimer
  memory : Memory

namespace Snapshot

def capture {δ : Type} (m : Machine δ) : Snapshot where
  registers := m.cpu.registers
  instructionCount := m.cpu.instructionCount
  halted := m.cpu.halted
  latch := m.cpu.latch
  controller := m.board.controller
  timer := m.board.timer?
  memory := m.board.memory

/-- The timer is kept only if both the stored and the running machine have one. -/
def restore {δ : Type} (s : Snapshot) (m : Machine δ) : Machine δ :=
  let m := m.modifyCpu fun c =>
    { c with
      registers := s.registers
      instructionCount := s.instructionCount
      halted := s.halted
      latch := s.latch
      fatalError := false
      prefixes := c.prefixes.reset }
  m.modifyBoard fun b =>
    let b := { b with controller := s.controller, memory := s.memory }
    match s.timer, b.timer? with
    | some t, some _ => b.setTimer t
    | _, _ => b

section

open Encoder

def putFlags (f : Flags) : Encoder :=
  each (fun flag => bool (f.get flag)) Flag.all

def putRegisters (r : Registers) : Encoder :=
  all
    [each (fun i => word (r.word i)) Reg.all,
     each (fun i => word (r.dword i >>> 16).toUInt16) Reg.all,
     each (fun s => word (r.segment s)) Segment.all,
     word r.ip,
     putFlags r.flags]

def putLatch : RequestLatch → Encoder
  | .idle => alternative 0
  | .pending => alternative 1
  | .waited => alternative 2

def putInitialization (i : Initialization) : Encoder :=
  all [bool i.active, byte i.wordsExpected, byte i.nextWord, bool i.single, bool i.needsFourth]

def putChip (c : Chip) : Encoder :=
  all
    [bool c.isMaster, byte c.vectorBase, byte c.irr.byte, byte c.isr.byte, byte c.imr.byte,
     byte c.levels.byte, byte c.lowestPriority, byte c.signalled, bool c.output, bool c.autoEoi,
     bool c.rotateOnAutoEoi, bool c.specialMask, bool c.polled, bool c.readsInService,
     bool c.levelTriggered, putInitialization c.initialization]

def putDevice : Device → Encoder
  | .timer => alternative 0
  | .keyboard => alternative 1
  | .cascade => alternative 2
  | .serial => alternative 3
  | .floppy => alternative 4
  | .clock => alternative 5
  | .mouse => alternative 6
  | .disk channel => all [alternative 7, byte channel]
  | .other name => all [alternative 8, length name.utf8ByteSize, bytes name.toUTF8]

def putAssignment (a : Assignment) : Encoder :=
  all [putDevice a.owner, bool a.enabled]

def putRegistry (r : Registry) : Encoder :=
  all [length r.lines.size, each (option putAssignment) r.lines.toList]

def putController (c : Controller) : Encoder :=
  all [putChip c.master, putChip c.slave, putRegistry c.registry, bool c.intr]

def putAccess : ByteAccess → Encoder
  | .low => alternative 0
  | .high => alternative 1
  | .lowThenHigh => alternative 2

def putMode : CountMode → Encoder
  | .terminalCount => alternative 0
  | .oneShot => alternative 1
  | .rateGenerator => alternative 2
  | .squareWave => alternative 3
  | .softwareStrobe => alternative 4
  | .hardwareStrobe => alternative 5

def putCounter (c : Counter) : Encoder :=
  all
    [dword c.count, word c.reload, bool c.output, option word c.latched, bool c.highNext,
     byte c.channel, putAccess c.access, putMode c.mode]

def putTimer (t : IntervalTimer) : Encoder :=
  all [putCounter t.counter0, putCounter t.counter1, putCounter t.counter2, option byte t.line]

/-- Everything but the contents of memory, whose length comes last. -/
def putHeader (s : Snapshot) : Encoder :=
  all
    [putRegisters s.registers, length s.instructionCount, bool s.halted, putLatch s.latch,
     putController s.controller, option putTimer s.timer, length s.memory.size]

end

def header (s : Snapshot) : ByteArray :=
  putHeader s ByteArray.empty

def encode (s : Snapshot) : ByteArray :=
  s.header ++ s.memory.bytes

section

open Decoder

def getFlags : Decoder Flags := do
  return {
    carry := ← bool
    parity := ← bool
    adjust := ← bool
    zero := ← bool
    sign := ← bool
    trap := ← bool
    interrupt := ← bool
    direction := ← bool
    overflow := ← bool }

/-- Reads a word for each register in turn and stores it as `f` says. -/
def getWords {ι : Type} (f : Registers → ι → UInt16 → Registers) (r : Registers) :
    List ι → Decoder Registers
  | [] => return r
  | i :: is => do getWords f (f r i (← word)) is

def getRegisters : Decoder Registers := do
  let r ← getWords (fun r i v => r.setDword i v.toUInt32) {} Reg.all
  let r ← getWords (fun r i v => r.setDword i (v.toUInt32 <<< 16 ||| r.dword i)) r Reg.all
  let r ← getWords (fun r s v => r.setSegment s v) r Segment.all
  let ip ← word
  return { r with ip := ip, flags := ← getFlags }

def getInitialization : Decoder Initialization := do
  return {
    active := ← bool
    wordsExpected := ← byte
    nextWord := ← byte
    single := ← bool
    needsFourth := ← bool }

def getLineSet : Decoder LineSet := do
  return ⟨← byte⟩

def getChip : Decoder Chip := do
  return {
    isMaster := ← bool
    vectorBase := ← byte
    irr := ← getLineSet
    isr := ← getLineSet
    imr := ← getLineSet
    levels := ← getLineSet
    lowestPriority := ← byte
    signalled := ← byte
    output := ← bool
    autoEoi := ← bool
    rotateOnAutoEoi := ← bool
    specialMask := ← bool
    polled := ← bool
    readsInService := ← bool
    levelTriggered := ← bool
    initialization := ← getInitialization }

def getDevice : Decoder Device := do
  match ← number 4 with
  | 0 => return .timer
  | 1 => return .keyboard
  | 2 => return .cascade
  | 3 => return .serial
  | 4 => return .floppy
  | 5 => return .clock
  | 6 => return .mouse
  | 7 => return .disk (← byte)
  | 8 => return .other (← text)
  | _ => failure

def getAssignment : Decoder Assignment := do
  return { owner := ← getDevice, enabled := ← bool }

def getRegistry : Decoder Registry := do
  let n ← length
  return ⟨← more (option getAssignment) #[] n⟩

def getController : Decoder Controller := do
  return {
    master := ← getChip
    slave := ← getChip
    registry := ← getRegistry
    intr := ← bool }

def getCounter : Decoder Counter := do
  return {
    count := ← dword
    reload := ← word
    output := ← bool
    latched := ← option word
    highNext := ← bool
    channel := ← byte
    access := ← alternative [.low, .high, .lowThenHigh]
    mode := ← alternative
      [.terminalCount, .oneShot, .rateGenerator, .squareWave, .softwareStrobe, .hardwareStrobe] }

def getTimer : Decoder IntervalTimer := do
  return {
    counter0 := ← getCounter
    counter1 := ← getCounter
    counter2 := ← getCounter
    line := ← option byte }

def getSnapshot : Decoder Snapshot := do
  return {
    registers := ← getRegisters
    instructionCount := ← length
    halted := ← bool
    latch := ← alternative [.idle, .pending, .waited]
    controller := ← getController
    timer := ← option getTimer
    memory := ⟨← bytes (← length)⟩ }

end

/-- A stored form that was read; bytes after its end do not matter. -/
def decode? (data : ByteArray) : Option Snapshot :=
  (getSnapshot { data := data, position := 0 }).map Prod.fst

end Snapshot

end Pc8086

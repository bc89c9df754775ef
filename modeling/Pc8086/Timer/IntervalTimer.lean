import Pc8086.Interrupt.Controller
import Pc8086.Timer.Counter

namespace Pc8086.Timer

open Interrupt (Controller Device)

structure IntervalTimer where
  counter0 : Counter
  counter1 : Counter := { channel := 1 }
  counter2 : Counter := { channel := 2 }
  /-- The line of the first counter. -/
  line : Option UInt8 := none
  deriving DecidableEq, Inhabited

namespace IntervalTimer

/-- The first counter starts as a square wave of `divisor` pulses, at most the longest period. -/
def withDivisor (divisor : UInt32) : IntervalTimer where
  counter0 :=
    let reload := if divisor ≥ longestPeriod then 0 else divisor.toUInt16
    ((Counter.program { channel := 0 } 3 3).load reload)

def initial : IntervalTimer :=
  withDivisor longestPeriod

def name : String := "pit"

def ports : List UInt16 := [0x40, 0x41, 0x42, 0x43]

def device : Device := .timer

def attachIrq (t : IntervalTimer) (line : UInt8) : IntervalTimer :=
  { t with line := some line }

/-- The control word: channel, bytes to transfer, mode. The read-back command is ignored. -/
def control (t : IntervalTimer) (v : UInt8) : IntervalTimer :=
  let access := (v >>> 4) &&& 3
  let mode := (v >>> 1) &&& 7
  match v >>> 6 with
  | 0 => { t with counter0 := t.counter0.program access mode }
  | 1 => { t with counter1 := t.counter1.program access mode }
  | 2 => { t with counter2 := t.counter2.program access mode }
  | _ => t

/-- A byte from a port, if it is one of the timer's; the control port can only be written. -/
def readPort (t : IntervalTimer) (port : UInt16) : Option UInt8 × IntervalTimer :=
  match port with
  | 0x40 => let (v, c) := t.counter0.readByte; (some v, { t with counter0 := c })
  | 0x41 => let (v, c) := t.counter1.readByte; (some v, { t with counter1 := c })
  | 0x42 => let (v, c) := t.counter2.readByte; (some v, { t with counter2 := c })
  | 0x43 => (some 0xFF, t)
  | _ => (none, t)

def writePort (t : IntervalTimer) (port : UInt16) (v : UInt8) : Bool × IntervalTimer :=
  match port with
  | 0x40 => (true, { t with counter0 := t.counter0.writeByte v })
  | 0x41 => (true, { t with counter1 := t.counter1.writeByte v })
  | 0x42 => (true, { t with counter2 := t.counter2.writeByte v })
  | 0x43 => (true, t.control v)
  | _ => (false, t)

/-- One pulse for all counters. A change of the first one's output goes to its line. -/
def clock (t : IntervalTimer) (c : Controller) : IntervalTimer × Controller :=
  let (changed, counter0) := t.counter0.tick
  let t :=
    { t with
      counter0 := counter0
      counter1 := t.counter1.next
      counter2 := t.counter2.next }
  if !changed then (t, c)
  else
    match t.line with
    | some line => if t.counter0.output then (t, c.setIrq line) else (t, c.clearIrq line)
    | none => (t, c)

end IntervalTimer

end Pc8086.Timer

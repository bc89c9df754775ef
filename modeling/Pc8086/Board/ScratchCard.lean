import Pc8086.Board.Peripheral

namespace Pc8086

open Interrupt (Controller Device)

structure ScratchCard where
  name : String
  ports : List UInt16
  kind : Option Device := none
  /-- Ports that refuse byte accesses. -/
  denied : List UInt16 := []
  /-- Word accesses go to words of their own. -/
  wide : Bool := false
  /-- The pulses, counted from one, at which the line is raised or lowered or a stop is asked. -/
  fireAt : Option Nat := none
  clearAt : Option Nat := none
  stopAt : Option Nat := none
  line : Option UInt8 := none
  pulses : Nat := 0
  /-- What was written, the latest first. -/
  bytes : List (UInt16 × UInt8) := []
  words : List (UInt16 × UInt16) := []

namespace ScratchCard

def readByte (port : UInt16) (c : ScratchCard) : Option UInt8 :=
  if c.denied.contains port then none else some ((c.bytes.lookup port).getD 0)

def readWord (port : UInt16) (c : ScratchCard) : Option UInt16 :=
  if c.wide then some ((c.words.lookup port).getD 0) else none

def writeByte (port : UInt16) (v : UInt8) (c : ScratchCard) : Bool × ScratchCard :=
  if c.denied.contains port then (false, c) else (true, { c with bytes := (port, v) :: c.bytes })

def writeWord (port : UInt16) (v : UInt16) (c : ScratchCard) : Bool × ScratchCard :=
  if c.wide then (true, { c with words := (port, v) :: c.words }) else (false, c)

def clock (card : ScratchCard) (c : Controller) : Clocked ScratchCard :=
  let k := some (card.pulses + 1)
  let c :=
    match card.line with
    | some line =>
      let c := if card.fireAt = k then c.setIrq line else c
      if card.clearAt = k then c.clearIrq line else c
    | none => c
  { device := { card with pulses := card.pulses + 1 }
    controller := c
    stop := card.stopAt == k }

end ScratchCard

inductive ExpansionCard where
  /-- Claims ports and does nothing else. -/
  | passive (name : String) (ports : List UInt16)
  | scratch (card : ScratchCard)

instance : Peripheral ExpansionCard where
  name
    | .passive name _ => name
    | .scratch card => card.name
  ports
    | .passive _ ports => ports
    | .scratch card => card.ports
  kind
    | .passive .. => none
    | .scratch card => card.kind
  attachIrq line
    | .passive name ports => .passive name ports
    | .scratch card => .scratch { card with line := some line }
  readByte port
    | .passive name ports => (none, .passive name ports)
    | .scratch card => (card.readByte port, .scratch card)
  writeByte port v
    | .passive name ports => (false, .passive name ports)
    | .scratch card =>
      let (handled, card) := card.writeByte port v
      (handled, .scratch card)
  readWord port
    | .passive name ports => (none, .passive name ports)
    | .scratch card => (card.readWord port, .scratch card)
  writeWord port v
    | .passive name ports => (false, .passive name ports)
    | .scratch card =>
      let (handled, card) := card.writeWord port v
      (handled, .scratch card)
  clock
    | .passive name ports, c => { device := .passive name ports, controller := c }
    | .scratch card, c =>
      let r := card.clock c
      { device := .scratch r.device, controller := r.controller, stop := r.stop }

end Pc8086

import Pc8086.Board.Peripheral
import Pc8086.Bus
import Pc8086.Config.Basic

namespace Pc8086

open Interrupt (Controller Device LineError)
open Timer (IntervalTimer)

inductive PortOwner where
  | controller
  /-- The component at this place among the installed ones. -/
  | component (index : Nat)
  deriving DecidableEq

structure Board (δ : Type) where
  memory : Memory
  controller : Controller
  components : List (Component δ)
  owners : List (UInt16 × PortOwner)
  /-- Clock pulses for which another master keeps the processor off the bus. -/
  holdPulses : Nat := 0
  ignoreUnknownPorts : Bool
  /-- A device or a user asks for the run to end. -/
  stopRequested : Bool := false

inductive AttachError where
  | portOwned (port : UInt16) (owner : String)
  | noLine (e : LineError)
  deriving DecidableEq

def AttachError.message : AttachError → String
  | .portOwned port owner =>
    "port " ++ Text.hexPadded 4 port.toNat ++ " is already owned by " ++ owner
  | .noLine e => e.message

namespace Board

variable {δ α : Type}

def ownerOf (b : Board δ) (port : UInt16) : Option PortOwner :=
  b.owners.lookup port

def timer? (b : Board δ) : Option IntervalTimer :=
  b.components.findSome? Component.timer?

def replaceTimer (t : IntervalTimer) : List (Component δ) → List (Component δ)
  | [] => []
  | .timer _ :: cs => .timer t :: cs
  | c :: cs => c :: replaceTimer t cs

def setTimer (b : Board δ) (t : IntervalTimer) : Board δ :=
  { b with components := replaceTimer t b.components }

/-- Keeps the processor off the bus for the next `n` clock pulses. -/
def requestHold (b : Board δ) (n : Nat) : Board δ :=
  { b with holdPulses := n }

def atComponent (b : Board δ) (i : Nat) (f : Component δ → α × Component δ) (absent : α) :
    α × Board δ :=
  match b.components[i]? with
  | some c =>
    let (a, c) := f c
    (a, { b with components := b.components.set i c })
  | none => (absent, b)

variable [Peripheral δ]

def ownerName (b : Board δ) : PortOwner → String
  | .controller => "pic"
  | .component i => ((b.components[i]?).map Peripheral.name).getD ""

def portOwnerName (b : Board δ) (port : UInt16) : Option String :=
  (b.ownerOf port).map b.ownerName

/-- Installs a device: its ports become its own and it gets an interrupt line if it needs one. A
device that fails changes nothing. -/
def install (b : Board δ) (c : Component δ) : Except AttachError (Option UInt8) × Board δ :=
  let ports := Peripheral.ports c
  let place (c : Component δ) (controller : Controller) : Board δ :=
    { b with
      controller := controller
      components := b.components ++ [c]
      owners := ports.map (fun p => (p, .component b.components.length)) ++ b.owners }
  match ports.find? fun p => (b.ownerOf p).isSome with
  | some p => (.error (.portOwned p ((b.portOwnerName p).getD "")), b)
  | none =>
    match Peripheral.kind c with
    | none => (.ok none, place c b.controller)
    | some device =>
      match b.controller.requestIrq device with
      | (.ok line, controller) => (.ok (some line), place (Peripheral.attachIrq line c) controller)
      | (.error e, controller) => (.error (.noLine e), { b with controller := controller })

def attach (b : Board δ) (d : δ) : Except AttachError (Option UInt8) × Board δ :=
  b.install (.card d)

def ofConfig (config : Config) : Board δ :=
  let b : Board δ :=
    { memory := .zeroed config.memorySize
      controller := .withBases config.masterBase config.slaveBase
      components := []
      owners := Controller.ports.map fun p => (p, .controller)
      ignoreUnknownPorts := config.ignoreUnknownPorts }
  if config.timerEnabled then (b.install (.timer (.withDivisor config.timerDivisor))).2 else b

/-- An access that nothing handles: all ones where unknown ports are ignored. -/
def unknownPort (port : UInt16) (w : Width) : EStateM Fault (Board δ) UInt32 := fun b =>
  if b.ignoreUnknownPorts then .ok w.mask b else .error (.unknownPort port w) b

def readOwned (port : UInt16) (b : Board δ) : Option UInt8 × Board δ :=
  match b.ownerOf port with
  | some .controller =>
    let (v, c) := b.controller.readPort port
    (v, { b with controller := c })
  | some (.component i) => b.atComponent i (Peripheral.readByte port) none
  | none => (none, b)

def writeOwned (port : UInt16) (v : UInt8) (b : Board δ) : Bool × Board δ :=
  match b.ownerOf port with
  | some .controller =>
    let (handled, c) := b.controller.writePort port v
    (handled, { b with controller := c })
  | some (.component i) => b.atComponent i (Peripheral.writeByte port v) false
  | none => (false, b)

def inputByte (port : UInt16) : EStateM Fault (Board δ) UInt32 := do
  match ← modifyGet (readOwned port) with
  | some v => return v.toUInt32
  | none => unknownPort port .byte

def outputByte (port : UInt16) (v : UInt8) : EStateM Fault (Board δ) Unit := do
  if !(← modifyGet (writeOwned port v)) then
    let _ ← unknownPort port .byte

/-- A device that does not handle words is read byte by byte at this port and the next. -/
def inputWord (port : UInt16) : EStateM Fault (Board δ) UInt32 := do
  match (← get).ownerOf port with
  | some .controller => return (Controller.readWord port).toUInt32
  | some (.component i) =>
    match ← modifyGet fun b => b.atComponent i (Peripheral.readWord port) none with
    | some v => return v.toUInt32
    | none =>
      let low ← inputByte port
      let high ← inputByte (port + 1)
      return high <<< 8 ||| low
  | none => unknownPort port .word

def outputWord (port : UInt16) (v : UInt16) : EStateM Fault (Board δ) Unit := do
  match (← get).ownerOf port with
  | some .controller =>
    modify fun b => { b with controller := b.controller.writeWord port v }
  | some (.component i) =>
    if !(← modifyGet fun b => b.atComponent i (Peripheral.writeWord port v) false) then
      outputByte port v.toUInt8
      outputByte (port + 1) (v >>> 8).toUInt8
  | none =>
    let _ ← unknownPort port .word

def inputDword (port : UInt16) : EStateM Fault (Board δ) UInt32 := do
  match (← get).ownerOf port with
  | some .controller => return Controller.readDword port
  | some (.component _) =>
    let low ← inputWord port
    let high ← inputWord (port + 2)
    return high <<< 16 ||| low
  | none => unknownPort port .dword

def outputDword (port : UInt16) (v : UInt32) : EStateM Fault (Board δ) Unit := do
  match (← get).ownerOf port with
  | some .controller =>
    modify fun b => { b with controller := b.controller.writeDword port v }
  | some (.component _) =>
    outputWord port v.toUInt16
    outputWord (port + 2) (v >>> 16).toUInt16
  | none =>
    let _ ← unknownPort port .dword

def input (w : Width) (port : UInt16) : EStateM Fault (Board δ) UInt32 :=
  match w with
  | .byte => inputByte port
  | .word => inputWord port
  | .dword => inputDword port

def output (w : Width) (port : UInt16) (v : UInt32) : EStateM Fault (Board δ) Unit :=
  match w with
  | .byte => outputByte port v.toUInt8
  | .word => outputWord port v.toUInt16
  | .dword => outputDword port v

def clockComponents : List (Component δ) → Controller → Clocked (List (Component δ))
  | [], c => { device := [], controller := c }
  | x :: xs, c =>
    let r := Peripheral.clock x c
    let rest := clockComponents xs r.controller
    { device := r.device :: rest.device
      controller := rest.controller
      stop := r.stop || rest.stop }

def clockPulse (b : Board δ) : Board δ :=
  let r := clockComponents b.components b.controller
  { b with
    components := r.device
    controller := r.controller
    stopRequested := b.stopRequested || r.stop }

end Board

instance {δ : Type} [Peripheral δ] : Bus (Board δ) where
  readByte a := fun b =>
    match b.memory.readByte a with
    | .ok v => .ok v b
    | .error f => .error f b
  writeByte a v := fun b =>
    match b.memory.writeByte a v with
    | (.ok (), m) => .ok () { b with memory := m }
    | (.error f, m) => .error f { b with memory := m }
  input := Board.input
  output := Board.output
  interruptRequested b := b.controller.intr
  acknowledgeInterrupt b :=
    let (v, c) := b.controller.acknowledge
    (v, { b with controller := c })
  holdRequested b := b.holdPulses > 0
  acknowledgeHold b := { b with holdPulses := b.holdPulses - 1 }
  clockPulse := Board.clockPulse

end Pc8086

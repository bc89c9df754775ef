import Pc8086.Timer.IntervalTimer

namespace Pc8086

open Interrupt (Controller Device)

/-- A device after one clock pulse, with the interrupt controller it may have used and whether it
asks for the run to end. -/
structure Clocked (δ : Type) where
  device : δ
  controller : Controller
  stop : Bool := false

/-- What a device does when the machine uses it. A device that leaves an access unhandled answers
`none` or `false`; unhandled words are split into bytes. -/
class Peripheral (δ : Type) where
  name : δ → String
  /-- The ports it claims. -/
  ports : δ → List UInt16
  /-- What it is, if it needs an interrupt line. -/
  kind : δ → Option Device := fun _ => none
  attachIrq : UInt8 → δ → δ := fun _ d => d
  readByte : UInt16 → δ → Option UInt8 × δ := fun _ d => (none, d)
  writeByte : UInt16 → UInt8 → δ → Bool × δ := fun _ _ d => (false, d)
  readWord : UInt16 → δ → Option UInt16 × δ := fun _ d => (none, d)
  writeWord : UInt16 → UInt16 → δ → Bool × δ := fun _ _ d => (false, d)
  clock : δ → Controller → Clocked δ := fun d c => { device := d, controller := c }

instance : Peripheral Timer.IntervalTimer where
  name _ := Timer.IntervalTimer.name
  ports _ := Timer.IntervalTimer.ports
  kind _ := some Timer.IntervalTimer.device
  attachIrq line t := t.attachIrq line
  readByte port t := t.readPort port
  writeByte port v t := t.writePort port v
  clock t c :=
    let (t, c) := t.clock c
    { device := t, controller := c }

inductive Component (δ : Type) where
  | timer (t : Timer.IntervalTimer)
  | card (d : δ)

namespace Component

variable {δ α : Type}

def timer? : Component δ → Option Timer.IntervalTimer
  | timer t => some t
  | card _ => none

def wrap {σ : Type} (f : σ → Component δ) : α × σ → α × Component δ
  | (a, s) => (a, f s)

end Component

open Component in
instance {δ : Type} [Peripheral δ] : Peripheral (Component δ) where
  name
    | .timer t => Peripheral.name t
    | .card d => Peripheral.name d
  ports
    | .timer t => Peripheral.ports t
    | .card d => Peripheral.ports d
  kind
    | .timer t => Peripheral.kind t
    | .card d => Peripheral.kind d
  attachIrq line
    | .timer t => .timer (Peripheral.attachIrq line t)
    | .card d => .card (Peripheral.attachIrq line d)
  readByte port
    | .timer t => wrap .timer (Peripheral.readByte port t)
    | .card d => wrap .card (Peripheral.readByte port d)
  writeByte port v
    | .timer t => wrap .timer (Peripheral.writeByte port v t)
    | .card d => wrap .card (Peripheral.writeByte port v d)
  readWord port
    | .timer t => wrap .timer (Peripheral.readWord port t)
    | .card d => wrap .card (Peripheral.readWord port d)
  writeWord port v
    | .timer t => wrap .timer (Peripheral.writeWord port v t)
    | .card d => wrap .card (Peripheral.writeWord port v d)
  clock
    | .timer t, c =>
      let r := Peripheral.clock t c
      { device := .timer r.device, controller := r.controller, stop := r.stop }
    | .card d, c =>
      let r := Peripheral.clock d c
      { device := .card r.device, controller := r.controller, stop := r.stop }

end Pc8086

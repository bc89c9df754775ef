import Pc8086.Text.Quoted

namespace Pc8086.Interrupt

inductive Device where
  | timer
  | keyboard
  | cascade
  | serial
  | floppy
  | clock
  | mouse
  /-- A disk channel. -/
  | disk (channel : UInt8)
  | other (name : String)
  deriving DecidableEq, Inhabited

namespace Device

def label : Device → String
  | timer => "Pit"
  | keyboard => "Keyboard"
  | cascade => "Cascade"
  | serial => "Serial"
  | floppy => "Floppy"
  | clock => "Rtc"
  | mouse => "Mouse"
  | disk channel => "Ata(" ++ toString channel.toNat ++ ")"
  | other name => "Other(" ++ Text.quote name ++ ")"

def fixedLine : Device → Option UInt8
  | timer => some 0
  | keyboard => some 1
  | cascade => some 2
  | serial => some 4
  | floppy => some 6
  | clock => some 8
  | mouse => some 12
  | disk 0 => some 14
  | disk 1 => some 15
  | disk 2 => some 11
  | disk 3 => some 9
  | _ => none

end Device

structure Assignment where
  owner : Device
  enabled : Bool := true
  deriving DecidableEq, Inhabited

inductive LineError where
  /-- The device's line, or every free one, is owned. -/
  | unavailable (device : Device)
  /-- There is no such line, or it is not owned. -/
  | invalid (line : UInt8)
  deriving DecidableEq

def LineError.message : LineError → String
  | .unavailable device => "no free IRQ line for " ++ device.label
  | .invalid line => "IRQ line " ++ toString line.toNat ++ " is out of range"

structure Registry where
  lines : Array (Option Assignment)
  deriving DecidableEq, Inhabited

namespace Registry

/-- The lines for devices without a wired one, in the order they are handed out. -/
def freeLines : List UInt8 := [3, 5, 7, 10]

def initial : Registry :=
  ⟨(Array.replicate 16 none).set! 2 (some { owner := .cascade })⟩

def assignment (r : Registry) (line : UInt8) : Option Assignment :=
  (r.lines[line.toNat]?).join

def owner (r : Registry) (line : UInt8) : Option Device :=
  (r.assignment line).map Assignment.owner

def isActive (r : Registry) (line : UInt8) : Bool :=
  (r.assignment line).any Assignment.enabled

def isVacant (r : Registry) (line : UInt8) : Bool :=
  r.lines[line.toNat]? == some none

/-- The line a device would get now: its wired one, else the first vacant free line. -/
def vacantLine (r : Registry) (device : Device) : Option UInt8 :=
  match device.fixedLine with
  | some line => if r.isVacant line then some line else none
  | none => freeLines.find? r.isVacant

def request (r : Registry) (device : Device) : Except LineError UInt8 × Registry :=
  match r.vacantLine device with
  | some line => (.ok line, ⟨r.lines.set! line.toNat (some { owner := device })⟩)
  | none => (.error (.unavailable device), r)

def release (r : Registry) (line : UInt8) : Except LineError Unit × Registry :=
  if line.toNat < r.lines.size then (.ok (), ⟨r.lines.set! line.toNat none⟩)
  else (.error (.invalid line), r)

def setEnabled (r : Registry) (line : UInt8) (on : Bool) : Except LineError Unit × Registry :=
  match r.assignment line with
  | some a => (.ok (), ⟨r.lines.set! line.toNat (some { a with enabled := on })⟩)
  | none => (.error (.invalid line), r)

end Registry

end Pc8086.Interrupt

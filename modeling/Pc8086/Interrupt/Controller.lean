import Pc8086.Interrupt.Chip
import Pc8086.Interrupt.Registry

/-!
The two chips and the registry of their lines. The slave's output drives line 2 of the master, whose
output drives the processor's request line.
-/

namespace Pc8086.Interrupt

inductive Role where
  | master
  | slave
  deriving DecidableEq, Inhabited

structure Controller where
  master : Chip
  slave : Chip
  registry : Registry
  /-- The request line to the processor. -/
  intr : Bool
  deriving DecidableEq, Inhabited

namespace Controller

def cascadeLine : Line := 2

def withBases (master slave : UInt8) : Controller where
  master := { isMaster := true, vectorBase := master }
  slave := { isMaster := false, vectorBase := slave }
  registry := .initial
  intr := false

def initial : Controller :=
  withBases 0x08 0x70

def chip (c : Controller) : Role → Chip
  | .master => c.master
  | .slave => c.slave

def setChip (c : Controller) (r : Role) (chip : Chip) : Controller :=
  match r with
  | .master => { c with master := chip }
  | .slave => { c with slave := chip }

def modifyChip (c : Controller) (r : Role) (f : Chip → Chip) : Controller :=
  c.setChip r (f (c.chip r))

/-- The chip of a line from 0 to 15 and its number there; lines from 8 on are the slave's. -/
def locate (line : UInt8) : Role × Line :=
  (if line < 8 then .master else .slave, Fin.ofNat 8 line.toNat)

def serviceMaster (c : Controller) : Controller :=
  match c.master.resolve with
  | some l => { c with master := c.master.signal l, intr := true }
  | none => c

def raiseMaster (c : Controller) (l : Line) : Controller :=
  if c.master.levels.contains l then c
  else serviceMaster { c with master := c.master.raise l }

def serviceSlave (c : Controller) : Controller :=
  match c.slave.resolve with
  | some l => raiseMaster { c with slave := c.slave.signal l } cascadeLine
  | none => c

def raiseSlave (c : Controller) (l : Line) : Controller :=
  if c.slave.levels.contains l then c
  else serviceSlave { c with slave := c.slave.raise l }

def service (c : Controller) : Role → Controller
  | .master => c.serviceMaster
  | .slave => c.serviceSlave

def raise (c : Controller) (r : Role) (l : Line) : Controller :=
  match r with
  | .master => c.raiseMaster l
  | .slave => c.raiseSlave l

/-- Raises a line; without an owner or disabled it is ignored. -/
def setIrq (c : Controller) (line : UInt8) : Controller :=
  if c.registry.isActive line then
    let (r, l) := locate line
    c.raise r l
  else c

def clearIrq (c : Controller) (line : UInt8) : Controller :=
  if line < 16 then
    let (r, l) := locate line
    c.modifyChip r fun chip => chip.lower l
  else c

def requestIrq (c : Controller) (device : Device) : Except LineError UInt8 × Controller :=
  let (result, registry) := c.registry.request device
  (result, { c with registry := registry })

def releaseIrq (c : Controller) (line : UInt8) : Except LineError Unit × Controller :=
  if line < 16 then
    let c := c.clearIrq line
    let (result, registry) := c.registry.release line
    (result, { c with registry := registry })
  else (.error (.invalid line), c)

def releaseLine (c : Controller) (line : UInt8) : Except LineError Unit × Controller :=
  let (result, registry) := c.registry.release line
  (result, { c with registry := registry })

def setEnabled (c : Controller) (line : UInt8) (on : Bool) : Except LineError Unit × Controller :=
  let (result, registry) := c.registry.setEnabled line on
  (result, { c with registry := registry })

def acknowledgeSlave (c : Controller) : UInt8 × Controller :=
  let c := c.modifyChip .slave fun chip => { chip with output := false }
  match c.slave.resolve with
  | some l =>
    let c := { c with slave := c.slave.accept l }
    (c.slave.vector l, c.serviceSlave.serviceMaster)
  | none => (c.slave.spuriousVector, c)

/-- An acknowledge cycle: priority is resolved again, the winner goes from request to service and
its vector is given, or the spurious vector if no line qualifies any more. -/
def acknowledge (c : Controller) : UInt8 × Controller :=
  let c := { c with intr := false, master := { c.master with output := false } }
  match c.master.resolve with
  | none => (c.master.spuriousVector, c)
  | some l =>
    let c := { c with master := c.master.accept l }
    if l = cascadeLine then
      acknowledgeSlave
        { c with master := { c.master with levels := c.master.levels.erase cascadeLine } }
    else (c.master.vector l, c.serviceMaster)

/-- Drops the signal of a chip: for the slave, the master's input and its request. -/
def dropSignal (c : Controller) : Role → Controller
  | .master => { c with intr := false }
  | .slave => { c with master := c.master.lower cascadeLine }

/-- A poll read: an acknowledge of one chip alone. The line with the top bit set, or zero. -/
def poll (c : Controller) (r : Role) : UInt8 × Controller :=
  let c := (c.dropSignal r).modifyChip r fun chip => { chip with polled := false, output := false }
  match (c.chip r).resolve with
  | some l => (0x80 ||| UInt8.ofNat l.val, (c.modifyChip r fun chip => chip.accept l).service r)
  | none => (0, c)

def readCommand (c : Controller) (r : Role) : UInt8 × Controller :=
  let chip := c.chip r
  if chip.polled then c.poll r
  else if chip.readsInService then (chip.isr.byte, c)
  else (chip.irr.byte, c)

def beginInitialization (c : Controller) (r : Role) (v : UInt8) : Controller :=
  (c.modifyChip r fun chip => chip.beginInitialization v).dropSignal r

def modeCommand (c : Controller) (r : Role) (v : UInt8) : Controller :=
  let c := c.modifyChip r fun chip => chip.setModes v
  if v &&& 0x04 != 0 then c.modifyChip r fun chip => { chip with polled := true }
  else
    let c :=
      if v &&& 0x02 != 0 then
        c.modifyChip r fun chip => { chip with readsInService := v &&& 0x01 != 0 }
      else c
    c.service r

def endHighest (c : Controller) (r : Role) (rotating : Bool) : Controller :=
  match (c.chip r).highestInService with
  | some l =>
    c.modifyChip r fun chip =>
      let chip := chip.endService l
      if rotating then chip.rotateTo l else chip
  | none => c

/-- OCW2: end of interrupt and rotation. A value that is no command changes nothing. -/
def serviceCommand (c : Controller) (r : Role) (v : UInt8) : Controller :=
  let l : Line := Fin.ofNat 8 v.toNat
  if v == 0x00 || v == 0x80 then
    c.modifyChip r fun chip => { chip with rotateOnAutoEoi := v != 0 }
  else if v == 0x20 || v == 0xA0 then (c.endHighest r (v == 0xA0)).service r
  else
    match v &&& 0xF8 with
    | 0x60 => (c.modifyChip r fun chip => chip.endService l).service r
    | 0xC0 => (c.modifyChip r fun chip => chip.rotateTo l).service r
    | 0xE0 => (c.modifyChip r fun chip => (chip.endService l).rotateTo l).service r
    | _ => c

def writeCommand (c : Controller) (r : Role) (v : UInt8) : Controller :=
  if v &&& 0x10 != 0 then c.beginInitialization r v
  else if v &&& 0x18 == 0x08 then c.modeCommand r v
  else c.serviceCommand r v

def writeData (c : Controller) (r : Role) (v : UInt8) : Controller :=
  if (c.chip r).initialization.active then c.modifyChip r fun chip => chip.initializationWord v
  else (c.modifyChip r fun chip => { chip with imr := ⟨v⟩ }).service r

def ports : List UInt16 := [0x20, 0x21, 0xA0, 0xA1]

def readPort (c : Controller) (port : UInt16) : Option UInt8 × Controller :=
  match port with
  | 0x20 => let (v, c) := c.readCommand .master; (some v, c)
  | 0x21 => (some c.master.imr.byte, c)
  | 0xA0 => let (v, c) := c.readCommand .slave; (some v, c)
  | 0xA1 => (some c.slave.imr.byte, c)
  | _ => (none, c)

def writePort (c : Controller) (port : UInt16) (v : UInt8) : Bool × Controller :=
  match port with
  | 0x20 => (true, c.writeCommand .master v)
  | 0x21 => (true, c.writeData .master v)
  | 0xA0 => (true, c.writeCommand .slave v)
  | 0xA1 => (true, c.writeData .slave v)
  | _ => (false, c)

/-- There are no words: a read gives all ones. -/
def readWord (_port : UInt16) : UInt16 :=
  0xFFFF

def readDword (_port : UInt16) : UInt32 :=
  0xFFFFFFFF

def writeWord (c : Controller) (_port _v : UInt16) : Controller :=
  c

def writeDword (c : Controller) (_port : UInt16) (_v : UInt32) : Controller :=
  c

end Controller

end Pc8086.Interrupt

import Pc8086.Interrupt.LineSet

namespace Pc8086.Interrupt

structure Initialization where
  active : Bool := false
  /-- Words in this sequence, ICW1 included. -/
  wordsExpected : UInt8 := 0
  /-- The number of the next word, or zero. -/
  nextWord : UInt8 := 0
  /-- There is no second chip, hence no ICW3. -/
  single : Bool := false
  needsFourth : Bool := false
  deriving DecidableEq, Inhabited

structure Chip where
  isMaster : Bool
  /-- The vector of line 0. -/
  vectorBase : UInt8
  /-- Requests that have not been acknowledged. -/
  irr : LineSet := .empty
  /-- Acknowledged lines without an end of interrupt. -/
  isr : LineSet := .empty
  /-- Lines that are not signalled. -/
  imr : LineSet := .full
  /-- The levels of the input lines. -/
  levels : LineSet := .empty
  /-- The line after this one comes first. -/
  lowestPriority : UInt8 := 7
  /-- The line that was last signalled. -/
  signalled : UInt8 := 0
  /-- The output, held until it is acknowledged. -/
  output : Bool := false
  autoEoi : Bool := false
  rotateOnAutoEoi : Bool := false
  specialMask : Bool := false
  /-- The next command read is a poll. -/
  polled : Bool := false
  /-- Command reads show the lines in service and not the requests. -/
  readsInService : Bool := false
  /-- Recorded only; every line stays edge triggered. -/
  levelTriggered : Bool := false
  initialization : Initialization := {}
  deriving DecidableEq, Inhabited

namespace Chip

/-- The lines from the highest priority to the lowest. -/
def order (c : Chip) : List Line :=
  (List.range 8).map fun i => Fin.ofNat 8 (c.lowestPriority.toNat + 1 + i)

def highestInService (c : Chip) : Option Line :=
  c.order.find? c.isr.contains

def first (c : Chip) : Line :=
  Fin.ofNat 8 (c.lowestPriority.toNat + 1)

def unmasked (c : Chip) : LineSet :=
  ⟨c.irr.byte &&& ~~~c.imr.byte⟩

/-- An unmasked request; in special mask mode lines in service are passed over. -/
def isReady (c : Chip) (l : Line) : Bool :=
  !(c.specialMask && c.isr.contains l) && c.unmasked.contains l

/-- Goes round from `l` to the first line that is ready, until the next one is `stop`. -/
def scan (ready : Line → Bool) (stop : Line) : Nat → Line → Option Line
  | 0, _ => none
  | n + 1, l =>
    if ready l then some l
    else if l + 1 = stop then none
    else scan ready stop n (l + 1)

/-- The line to signal next, if any; none while the output is still held. The scan ends where it
began or, outside special mask mode, at the line in service that comes first. -/
def resolve (c : Chip) : Option Line :=
  let served := if c.specialMask then none else c.highestInService
  if c.output then none
  else if served = some c.first then none
  else if c.unmasked = .empty then none
  else scan c.isReady (served.getD c.first) 8 c.first

/-- Puts an acknowledged line into service, or passes over service with automatic end of
interrupt. -/
def accept (c : Chip) (l : Line) : Chip :=
  let c := { c with irr := c.irr.erase l }
  if !c.autoEoi then { c with isr := c.isr.insert l }
  else if c.rotateOnAutoEoi then { c with lowestPriority := UInt8.ofNat l.val }
  else c

def vector (c : Chip) (l : Line) : UInt8 :=
  c.vectorBase + UInt8.ofNat l.val

/-- The vector given when no line qualifies any more. -/
def spuriousVector (c : Chip) : UInt8 :=
  c.vector 7

def signal (c : Chip) (l : Line) : Chip :=
  { c with output := true, signalled := UInt8.ofNat l.val }

/-- Raises an input; only a low one makes a request. -/
def raise (c : Chip) (l : Line) : Chip :=
  { c with levels := c.levels.insert l, irr := c.irr.insert l }

def lower (c : Chip) (l : Line) : Chip :=
  { c with levels := c.levels.erase l, irr := c.irr.erase l }

/-- ICW1: forgets requests, service, mask, rotation and modes, and awaits the further words. -/
def beginInitialization (c : Chip) (v : UInt8) : Chip :=
  let single := v &&& 0x02 != 0
  let needsFourth := v &&& 0x01 != 0
  { c with
    initialization :=
      { active := true
        wordsExpected := 2 + (!single).toUInt8 + needsFourth.toUInt8
        nextWord := 2
        single := single
        needsFourth := needsFourth }
    levelTriggered := v &&& 0x08 != 0
    imr := .empty
    isr := .empty
    irr := .empty
    lowestPriority := 7
    output := false
    autoEoi := false
    rotateOnAutoEoi := false
    specialMask := false
    polled := false
    readsInService := false }

/-- Sets the number of the next initialization word; zero ends the sequence. -/
def awaitWord (c : Chip) (n : UInt8) : Chip :=
  { c with
    initialization :=
      { c.initialization with
        nextWord := n
        active := c.initialization.active && n != 0 } }

def afterThird (i : Initialization) : UInt8 :=
  if i.needsFourth then 4 else 0

/-- ICW2 sets the vector base, ICW3 changes nothing because the wiring is fixed, ICW4 selects the
automatic end of interrupt. -/
def initializationWord (c : Chip) (v : UInt8) : Chip :=
  let i := c.initialization
  match i.nextWord with
  | 2 => ({ c with vectorBase := v &&& 0xF8 }).awaitWord (if i.single then afterThird i else 3)
  | 3 => c.awaitWord (afterThird i)
  | _ => ({ c with autoEoi := v &&& 0x02 != 0 }).awaitWord 0

def setModes (c : Chip) (v : UInt8) : Chip :=
  match (v >>> 5) &&& 3 with
  | 2 => { c with specialMask := false }
  | 3 => { c with specialMask := true }
  | _ => c

def endService (c : Chip) (l : Line) : Chip :=
  { c with isr := c.isr.erase l }

def rotateTo (c : Chip) (l : Line) : Chip :=
  { c with lowestPriority := UInt8.ofNat l.val }

end Chip

end Pc8086.Interrupt

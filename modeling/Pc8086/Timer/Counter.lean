namespace Pc8086.Timer

inductive ByteAccess where
  | low
  | high
  | lowThenHigh
  deriving DecidableEq, Inhabited

inductive CountMode where
  | terminalCount
  | oneShot
  | rateGenerator
  | squareWave
  | softwareStrobe
  | hardwareStrobe
  deriving DecidableEq, Inhabited

namespace CountMode

/-- Codes 6 and 7 repeat 2 and 3. -/
def ofCode : UInt8 → CountMode
  | 0 => terminalCount
  | 1 => oneShot
  | 2 | 6 => rateGenerator
  | 3 | 7 => squareWave
  | 4 => softwareStrobe
  | _ => hardwareStrobe

def restingOutput (m : CountMode) : Bool :=
  m != .terminalCount

end CountMode

/-- The longest period, selected by a reload value of zero. -/
def longestPeriod : UInt32 := 0x10000

structure Counter where
  channel : UInt8
  count : UInt32 := longestPeriod
  reload : UInt16 := 0
  output : Bool := false
  /-- A count kept for reading until it is read out. -/
  latched : Option UInt16 := none
  /-- The next byte transferred is the high one. -/
  highNext : Bool := false
  access : ByteAccess := .lowThenHigh
  mode : CountMode := .terminalCount
  deriving DecidableEq, Inhabited

namespace Counter

def period (c : Counter) : UInt32 :=
  if c.reload == 0 then longestPeriod else c.reload.toUInt32

def load (c : Counter) (reload : UInt16) : Counter :=
  let c := { c with reload := reload }
  { c with count := c.period, output := c.mode.restingOutput }

/-- One pulse, and whether it changes the output. -/
def tick (c : Counter) : Bool × Counter :=
  let terminal := c.count ≤ 1
  let count := if terminal then c.period else c.count - 1
  let output :=
    match c.mode with
    | .terminalCount => c.output || terminal
    | .rateGenerator => count != 1
    | .squareWave => decide (count > c.period / 2)
    | .softwareStrobe => !terminal
    -- these wait for a gate, and there is none
    | .oneShot | .hardwareStrobe => c.output
  (output != c.output, { c with count := count, output := output })

def next (c : Counter) : Counter :=
  c.tick.2

/-- The next byte of the count, or of a latched count, which its last byte releases. -/
def readByte (c : Counter) : UInt8 × Counter :=
  let v := c.latched.getD c.count.toUInt16
  let high :=
    match c.access with
    | .low => false
    | .high => true
    | .lowThenHigh => c.highNext
  let last := high || c.access == .low
  (if high then (v >>> 8).toUInt8 else v.toUInt8,
    { c with
      highNext := if c.access == .lowThenHigh then !c.highNext else c.highNext
      latched := if last then none else c.latched })

/-- One byte of a new reload value; the last one loads it. -/
def writeByte (c : Counter) (v : UInt8) : Counter :=
  let v := v.toUInt16
  match c.access with
  | .lowThenHigh =>
    if c.highNext then
      let high := v <<< 8
      ({ c with highNext := false }).load ((c.reload &&& 0x00FF) ||| high)
    else { c with highNext := true, reload := (c.reload &&& 0xFF00) ||| v }
  | .low => c.load v
  | .high => c.load (v <<< 8)

/-- Sets the bytes to transfer and the mode; an access code of zero only latches the count. -/
def program (c : Counter) (access mode : UInt8) : Counter :=
  if access == 0 then { c with latched := some c.count.toUInt16 }
  else
    let mode := CountMode.ofCode mode
    { c with
      access :=
        match access with
        | 1 => .low
        | 2 => .high
        | _ => .lowThenHigh
      highNext := false
      mode := mode
      output := mode.restingOutput }

end Counter

end Pc8086.Timer

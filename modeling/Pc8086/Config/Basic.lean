import Pc8086.Memory.Flat
import Pc8086.Timer.Counter

namespace Pc8086

structure Config where
  memorySize : Nat := Memory.defaultSize
  /-- Runs stop when this many instructions have been executed. -/
  maxInstructions : Option Nat := none
  /-- Divide errors enter vector 0. -/
  divideErrorInterrupt : Bool := true
  masterBase : UInt8 := 0x08
  slaveBase : UInt8 := 0x70
  timerEnabled : Bool := true
  /-- Clock pulses between timer interrupts. -/
  timerDivisor : UInt32 := Timer.longestPeriod
  /-- Where programs are loaded and start. -/
  program : SegmentedAddress := ⟨0x085F, 0x0100⟩
  /-- Reads of ports without an owner give all ones and writes are dropped. -/
  ignoreUnknownPorts : Bool := false
  deriving DecidableEq, Inhabited

inductive ConfigError where
  /-- The file cannot be read. -/
  | unreadable
  /-- The text is not a settings file, or a setting has the wrong type or no place. -/
  | malformed
  | divisorOutOfRange (divisor : UInt32)
  deriving DecidableEq

namespace ConfigError

/-- The text for a setting outside its range; the other errors have none of their own. -/
def message? : ConfigError → Option String
  | divisorOutOfRange d =>
    some ("invalid config: pit.divisor 0x" ++ Text.hex d.toNat ++ " is outside 1..=0x10000")
  | _ => none

end ConfigError

namespace Config

/-- Refuses a divisor that no counter can hold. -/
def validate (c : Config) : Except ConfigError Config :=
  if c.timerDivisor == 0 || c.timerDivisor > Timer.longestPeriod then
    .error (.divisorOutOfRange c.timerDivisor)
  else .ok c

end Config

end Pc8086

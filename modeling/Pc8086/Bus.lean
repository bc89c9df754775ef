import Pc8086.Fault

namespace Pc8086

/-- The bus `β`: memory, ports, the interrupt request line, the hold line and the clock. A failed
access may still have changed the bus. -/
class Bus (β : Type) where
  readByte : UInt32 → EStateM Fault β UInt8
  writeByte : UInt32 → UInt8 → EStateM Fault β Unit
  input : Width → UInt16 → EStateM Fault β UInt32
  output : Width → UInt16 → UInt32 → EStateM Fault β Unit
  /-- The level of the interrupt request line. -/
  interruptRequested : β → Bool
  /-- Runs an acknowledge cycle and yields the vector. -/
  acknowledgeInterrupt : β → UInt8 × β
  /-- Another master wants the processor off the bus. -/
  holdRequested : β → Bool
  acknowledgeHold : β → β
  /-- Lets the devices' time pass. -/
  clockPulse : β → β

namespace Bus

variable {β : Type} [Bus β]

/-- The low byte, then the high byte at the next address, each within the address bus. -/
def readWord (a : UInt32) : EStateM Fault β UInt16 := do
  let low ← readByte (a &&& addressMask)
  let high ← readByte ((a + 1) &&& addressMask)
  return high.toUInt16 <<< 8 ||| low.toUInt16

def writeWord (a : UInt32) (v : UInt16) : EStateM Fault β Unit := do
  writeByte (a &&& addressMask) v.toUInt8
  writeByte ((a + 1) &&& addressMask) (v >>> 8).toUInt8

end Bus

end Pc8086

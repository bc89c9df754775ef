import Pc8086.Cpu.Access
import Pc8086.Cpu.Accumulator

namespace Pc8086.Cpu.Exec

variable {β : Type}

/-- Moves SI or DI past one element, downwards if the direction flag is set. -/
def advance (i : Reg) (w : Width) : Exec β Unit :=
  modifyRegisters fun r =>
    let n := w.bytes.toUInt16
    r.setWord i (if r.flags.direction then r.word i - n else r.word i + n)

variable [Bus β]

def readElement (w : Width) : Exec β UInt32 := do
  let c ← cpu
  readMemory ⟨c.prefixes.segmentOr .ds, c.registers.word .si⟩ w

def readTarget (w : Width) : Exec β UInt32 := do
  readMemory ⟨.es, (← registers).word .di⟩ w

def writeTarget (w : Width) (v : UInt32) : Exec β Unit := do
  writeMemory ⟨.es, (← registers).word .di⟩ w v

/-- The effect of one element without its repetition. -/
def element (w : Width) : StringOperation → Exec β Unit
  | .input => do
    let v ← onBus (Bus.input w ((← registers).word .dx))
    writeTarget w v
    advance .di w
  | .output => do
    let v ← readElement w
    onBus (Bus.output w ((← registers).word .dx) v)
    advance .si w
  | .move => do
    let v ← readElement w
    writeTarget w v
    advance .si w
    advance .di w
  | .compare => do
    let a ← readElement w
    let b ← readTarget w
    let _ ← withFlags (Alu.sub w a b false)
    advance .si w
    advance .di w
  | .store => do
    writeTarget w ((← registers).read w .ax)
    advance .di w
  | .load => do
    let v ← readElement w
    modifyRegisters fun r => r.write w .ax v
    advance .si w
  | .scan => do
    let b ← readTarget w
    let a := (← registers).read w .ax
    let _ ← withFlags (Alu.sub w a b false)
    advance .di w

end Pc8086.Cpu.Exec

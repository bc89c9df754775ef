import Pc8086.Cpu.Strings

namespace Pc8086.Cpu.Exec

variable {β : Type} [Bus β]

def unary (op : UnaryOperation) (w : Width) (target : Place) : Exec β Unit := do
  let v ← readPlace w target
  let result ←
    match op with
    | .increment => withFlags (Alu.increment w v)
    | .decrement => withFlags (Alu.decrement w v)
    | .complement => pure (w.truncate (~~~v))
    | .negate => withFlags (Alu.negate w v)
  writePlace w result target

/-- Multiplies or divides the accumulator; a quotient without a place is a divide error. -/
def accumulator (op : AccumulatorOperation) (w : Width) (source : Place) : Exec β Unit := do
  let v ← readPlace w source
  let r ← registers
  let result :=
    match op with
    | .multiply => some (r.multiply w v)
    | .multiplySigned => some (r.multiplySigned w v)
    | .divide => r.divide? w v
    | .divideSigned => r.divideSigned? w v
  match result with
  | some r => modifyRegisters fun _ => r
  | none => divideError

/-- Pushes the general registers in the order of their numbers, the stack pointer as it was. -/
def pushAll (w : Width) : Exec β Unit := do
  let sp := (← registers).read w .sp
  Reg.all.forM fun i => do
    let r ← registers
    push w (if i = .sp then sp else r.read w i)

/-- Pops the general registers in the contrary order; the stack pointer's value is dropped. -/
def popAll (w : Width) : Exec β Unit :=
  Reg.all.reverse.forM fun i => do
    let v ← pop w
    if i ≠ .sp then modifyRegisters fun r => r.write w i v

def copyFrame (frame : UInt16) : Nat → Exec β Unit
  | 0 => return ()
  | n + 1 => do
    let v ← readMemory ⟨.ss, frame - 2⟩ .word
    push .word v
    copyFrame (frame - 2) n

/-- Builds a stack frame: the old frame pointer, the frames around this one and its own address,
then `size` bytes of room. -/
def enter (size : UInt16) (level : UInt8) : Exec β Unit := do
  let outer := (← registers).word .bp
  pushWord outer
  let frame := (← registers).word .sp
  if level > 0 then
    copyFrame outer (level.toNat - 1)
    pushWord frame
  modifyRegisters fun r => r.setWord .bp frame
  modifyRegisters fun r => r.setWord .sp (r.word .sp - size)

def leave : Exec β Unit := do
  modifyRegisters fun r => r.setWord .sp (r.word .bp)
  let frame ← popWord
  modifyRegisters fun r => r.setWord .bp frame

def callFar (a : SegmentedAddress) : Exec β Unit := do
  pushWord (← registers).cs
  pushWord (← registers).ip
  jumpFarTo a

def releaseStack (n : UInt16) : Exec β Unit :=
  modifyRegisters fun r => r.setWord .sp (r.word .sp + n)

def loopTaken (condition : LoopCondition) : Exec β Bool := do
  modifyRegisters fun r => r.setWord .cx (r.word .cx - 1)
  let r ← registers
  let holds :=
    match condition with
    | .notZero => !r.flags.zero
    | .zero => r.flags.zero
    | .always => true
  return r.word .cx != 0 && holds

/-- Changes one flag. Where interrupts were off, a request waits anew when they are turned on, so
that the next instruction always runs first. -/
def changeFlag (change : FlagChange) : Exec β Unit :=
  modifyCpu fun c =>
    let f := c.registers.flags
    let set (f : Flags) : Cpu := { c with registers := { c.registers with flags := f } }
    match change with
    | .complementCarry => set { f with carry := !f.carry }
    | .clearCarry => set { f with carry := false }
    | .setCarry => set { f with carry := true }
    | .disableInterrupts => set { f with interrupt := false }
    | .enableInterrupts =>
      let on := set { f with interrupt := true }
      if f.interrupt then on else { on with latch := .idle }
    | .clearDirection => set { f with direction := false }
    | .setDirection => set { f with direction := true }

def execute : Instruction → Exec β Unit
  | .skip => return ()
  | .undefined bytes => illegal bytes
  | .arithmetic op w target source => do
    let a ← readPlace w target
    let b ← readSource w source
    let result ← withFlags (op.apply w a b)
    if op.storesResult then writePlace w result target
  | .test w a b => do
    let a ← readPlace w a
    let b ← readSource w b
    let _ ← withFlags (Alu.logic w (a &&& b))
  | .unary op w target => unary op w target
  | .accumulator op w source => accumulator op w source
  | .multiplyTruncated w target a b => do
    let a ← readSource w a
    let b ← readSource w b
    modifyRegisters fun r => r.multiplyTruncated w target a b
  | .shift op w target count => do
    let v ← readPlace w target
    let result ← withFlags (op.apply w v count)
    if count != 0 then writePlace w result target
  | .move w target source => do
    writePlace w (← readSource w source) target
  | .moveExtended signed w target sourceWidth source => do
    let v ← readPlace sourceWidth source
    let v := if signed then sourceWidth.signExtend v else v
    modifyRegisters fun r => r.write w target v
  | .exchange w a b => do
    let v ← readPlace w a
    let u := (← registers).read w b
    writePlace w u a
    modifyRegisters fun r => r.write w b v
  | .storeSegment target s => do
    writePlace .word ((← registers).segment s).toUInt32 target
  | .loadSegment s source => do
    let v ← readPlace .word source
    modifyRegisters fun r => r.setSegment s v.toUInt16
  | .loadFarPointer s target l => do
    let a ← readFarPointer l
    modifyRegisters fun r => (r.setWord target a.offset).setSegment s a.segment
  | .tableLookup s => do
    let r ← registers
    let v ← readMemory ⟨s, r.word .bx + r.al.toUInt16⟩ .byte
    modifyRegisters fun r => r.setAl v.toUInt8
  | .extendAccumulator w => modifyRegisters fun r => r.extendAccumulator w
  | .extendDouble w => modifyRegisters fun r => r.extendDouble w
  | .adjustAfterAdd => modifyRegisters Registers.adjustAfterAdd
  | .adjustAfterSub => modifyRegisters Registers.adjustAfterSub
  | .adjustDigitAfterAdd => modifyRegisters Registers.adjustDigitAfterAdd
  | .adjustDigitAfterSub => modifyRegisters Registers.adjustDigitAfterSub
  | .splitDigits base => do
    match (← registers).splitDigits? base with
    | some r => modifyRegisters fun _ => r
    | none => divideError
  | .joinDigits base => modifyRegisters fun r => r.joinDigits base
  | .push w source => do
    push w (← readSource w source)
  | .pushRegister w i => do
    let r ← registers
    -- a word push of the stack pointer stores its lowered value
    if w = .word ∧ i = .sp then pushWord (r.word .sp - 2) else push w (r.read w i)
  | .pop w target => do
    writePlace w (← pop w) target
  | .pushAll w => pushAll w
  | .popAll w => popAll w
  | .pushSegment s => do
    pushWord ((← registers).segment s)
  | .popSegment s => do
    let v ← popWord
    modifyRegisters fun r => r.setSegment s v
  | .pushFlags => do
    pushWord (← registers).flags.toWord
  | .popFlags => do
    let v ← popWord
    modifyRegisters fun r => { r with flags := Flags.ofWord v }
  | .storeFlags =>
    modifyRegisters fun r =>
      { r with flags := Flags.ofWord ((r.flags.toWord &&& 0xFF00) ||| r.ah.toUInt16) }
  | .loadFlags => modifyRegisters fun r => r.setAh r.flags.toWord.toUInt8
  | .enter size level => enter size level
  | .leave => leave
  | .jumpRelative distance => jumpBy distance
  | .jumpIf code distance => do
    if condition code (← registers).flags then jumpBy distance
  | .jumpIfCountZero distance => do
    if (← registers).word .cx == 0 then jumpBy distance
  | .loop condition distance => do
    if ← loopTaken condition then jumpBy distance
  | .jump target => do
    jumpTo (← readPlace .word target).toUInt16
  | .jumpFar a => jumpFarTo a
  | .jumpFarIndirect l => do
    jumpFarTo (← readFarPointer l)
  | .callRelative distance => do
    pushWord (← registers).ip
    jumpBy distance
  | .call target => do
    let v ← readPlace .word target
    pushWord (← registers).ip
    jumpTo v.toUInt16
  | .callFar a => callFar a
  | .callFarIndirect l => do
    callFar (← readFarPointer l)
  | .returnNear release => do
    jumpTo (← popWord)
    releaseStack release
  | .returnFar release => do
    jumpTo (← popWord)
    let cs ← popWord
    modifyRegisters fun r => { r with cs := cs }
    releaseStack release
  | .interrupt vector => enterVector vector
  | .interruptOnOverflow => do
    if (← registers).flags.overflow then enterVector 4
  | .returnInterrupt => do
    jumpTo (← popWord)
    let cs ← popWord
    modifyRegisters fun r => { r with cs := cs }
    let flags ← popWord
    modifyRegisters fun r => { r with flags := Flags.ofWord flags }
  | .input w port => do
    let v ← onBus (Bus.input w port)
    modifyRegisters fun r => r.write w .ax v
  | .output w port => do
    onBus (Bus.output w port ((← registers).read w .ax))
  | .string op w => do
    element w op
    modifyCpu finishElement
  | .setIf code target => do
    writePlace .byte (condition code (← registers).flags).toUInt32 target
  | .changeFlag change => changeFlag change
  | .halt => modifyCpu fun c => { c with halted := true }

end Pc8086.Cpu.Exec

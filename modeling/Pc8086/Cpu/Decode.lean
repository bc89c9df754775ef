import Pc8086.Cpu.Access

namespace Pc8086.Cpu.Exec

variable {β : Type} [Bus β]

/-- The operand of an addressing byte's last field, past its displacement. -/
def decodePlace (m : ModRM) : Exec β Place := do
  if m.mode == 3 then return .register (Reg.ofCode m.rm)
  let (base, segment) ←
    if m.mode == 0 && m.rm == 6 then pure (← fetchWord, Segment.ds)
    else
      let b := BaseIndex.ofCode m.rm
      pure (b.offset (← registers), b.defaultSegment)
  let displacement ←
    match m.mode with
    | 1 => (·.toUInt16) <$> fetchSignedByte
    | 2 => fetchWord
    | _ => pure 0
  return .memory ⟨(← cpu).prefixes.segmentOr segment, base + displacement⟩

def decodeModRM : Exec β (ModRM × Place) := do
  let m := ModRM.ofByte (← fetchByte)
  return (m, ← decodePlace m)

def fetchImmediate (form : ImmediateForm) (w : Width) : Exec β UInt32 :=
  match form with
  | .full => fetch w
  | .signedByte => fetchSignedByte
  | .byte => fetch .byte

def fetchShortDistance : Exec β UInt16 := do
  return (← fetchSignedByte).toUInt16

def fetchFarAddress : Exec β SegmentedAddress := do
  let offset ← fetchWord
  let segment ← fetchWord
  return ⟨segment, offset⟩

def currentWidth : Exec β Width := do
  return (← cpu).prefixes.operandWidth

def widthOf (size : OperandSize) : Exec β Width := do
  return size.width (← cpu).prefixes

def directLocation : Exec β Location := do
  let offset ← fetchWord
  return ⟨(← cpu).prefixes.segmentOr .ds, offset⟩

/-- The operations on one operand: two codes test, the others replace it or use the accumulator. -/
def decodeUnary (w : Width) (code : UInt8) (p : Place) : Exec β Instruction :=
  match code with
  | 0 | 1 => do return .test w p (.immediate (← fetch w))
  | 2 => return .unary .complement w p
  | 3 => return .unary .negate w p
  | 4 => return .accumulator .multiply w p
  | 5 => return .accumulator .multiplySigned w p
  | 6 => return .accumulator .divide w p
  | _ => return .accumulator .divideSigned w p

/-- Increment, decrement, calls, jumps and push. A far transfer needs a place in memory. -/
def decodeIndirect (w : Width) (code : UInt8) (p : Place) (bytes : List UInt8) : Instruction :=
  match code with
  | 0 => .unary .increment w p
  | 1 => .unary .decrement w p
  | 2 => .call p
  | 3 =>
    match p with
    | .memory l => .callFarIndirect l
    | .register _ => .undefined bytes
  | 4 => .jump p
  | 5 =>
    match p with
    | .memory l => .jumpFarIndirect l
    | .register _ => .undefined bytes
  | 6 => .push w (.place p)
  | _ => .undefined bytes

/-- The rest of an instruction whose opcode was the last of `bytes`. -/
def decode (bytes : List UInt8) : Opcode → Exec β Instruction
  | .arithmetic op .memoryRegister size => do
    let w ← widthOf size
    let (m, p) ← decodeModRM
    return .arithmetic op w p (.register (Reg.ofCode m.reg))
  | .arithmetic op .registerMemory size => do
    let w ← widthOf size
    let (m, p) ← decodeModRM
    return .arithmetic op w (.register (Reg.ofCode m.reg)) (.place p)
  | .arithmetic op .accumulatorImmediate size => do
    let w ← widthOf size
    return .arithmetic op w (.register .ax) (.immediate (← fetch w))
  | .pushSegment s => return .pushSegment s
  | .popSegment s => return .popSegment s
  | .adjustAfterAdd => return .adjustAfterAdd
  | .adjustAfterSub => return .adjustAfterSub
  | .adjustDigitAfterAdd => return .adjustDigitAfterAdd
  | .adjustDigitAfterSub => return .adjustDigitAfterSub
  | .increment r => return .unary .increment (← currentWidth) (.register r)
  | .decrement r => return .unary .decrement (← currentWidth) (.register r)
  | .push r => return .pushRegister (← currentWidth) r
  | .pop r => return .pop (← currentWidth) (.register r)
  | .pushAll => return .pushAll (← currentWidth)
  | .popAll => return .popAll (← currentWidth)
  | .pushImmediate form => do
    let w ← currentWidth
    return .push w (.immediate (← fetchImmediate form w))
  | .multiplyImmediate form => do
    let w ← currentWidth
    let (m, p) ← decodeModRM
    -- the operand is read before the immediate is fetched
    let a ← readPlace w p
    let b ← fetchImmediate form w
    return .multiplyTruncated w (Reg.ofCode m.reg) (.immediate a) (.immediate b)
  | .string op size => return .string op (← widthOf size)
  | .jumpIf condition => return .jumpIf condition (← fetchShortDistance)
  | .arithmeticImmediate form size => do
    let w ← widthOf size
    let (m, p) ← decodeModRM
    let v ← fetchImmediate form w
    return .arithmetic (Alu.Operation.ofCode m.reg) w p (.immediate v)
  | .test size => do
    let w ← widthOf size
    let (m, p) ← decodeModRM
    return .test w p (.register (Reg.ofCode m.reg))
  | .exchange size => do
    let w ← widthOf size
    let (m, p) ← decodeModRM
    return .exchange w p (Reg.ofCode m.reg)
  | .store size => do
    let w ← widthOf size
    let (m, p) ← decodeModRM
    return .move w p (.register (Reg.ofCode m.reg))
  | .load size => do
    let w ← widthOf size
    let (m, p) ← decodeModRM
    return .move w (.register (Reg.ofCode m.reg)) (.place p)
  | .storeSegment => do
    let (m, p) ← decodeModRM
    return .storeSegment p (Segment.ofCode m.reg)
  | .loadAddress => do
    let (m, p) ← decodeModRM
    match p with
    | .memory l =>
      return .move (← currentWidth) (.register (Reg.ofCode m.reg)) (.immediate l.offset.toUInt32)
    | .register _ => return .undefined (bytes ++ [m.toByte])
  | .loadSegment => do
    let (m, p) ← decodeModRM
    return .loadSegment (Segment.ofCode m.reg) p
  | .popMemory => do
    let w ← currentWidth
    let (_, p) ← decodeModRM
    return .pop w p
  | .exchangeAccumulator r => return .exchange (← currentWidth) (.register .ax) r
  | .extendAccumulator => return .extendAccumulator (← currentWidth)
  | .extendDouble => return .extendDouble (← currentWidth)
  | .callFar => return .callFar (← fetchFarAddress)
  | .pushFlags => return .pushFlags
  | .popFlags => return .popFlags
  | .storeFlags => return .storeFlags
  | .loadFlags => return .loadFlags
  | .loadDirect size => do
    let w ← widthOf size
    return .move w (.register .ax) (.place (.memory (← directLocation)))
  | .storeDirect size => do
    let w ← widthOf size
    return .move w (.memory (← directLocation)) (.register .ax)
  | .testImmediate size => do
    let w ← widthOf size
    return .test w (.register .ax) (.immediate (← fetch w))
  | .loadImmediate r size => do
    let w ← widthOf size
    return .move w (.register r) (.immediate (← fetch w))
  | .shift count size => do
    let w ← widthOf size
    let (m, p) ← decodeModRM
    let n ←
      match count with
      | .one => pure 1
      | .cl => (·.lowByte .cx) <$> registers
      | .immediate => fetchByte
    return .shift (Shift.ofCode m.reg) w p n
  | .returnNear releases => return .returnNear (← if releases then fetchWord else pure 0)
  | .loadFarPointer s => do
    let (m, p) ← decodeModRM
    match p with
    | .memory l => return .loadFarPointer s (Reg.ofCode m.reg) l
    | .register _ => return .undefined (bytes ++ [m.toByte])
  | .storeImmediate size => do
    let w ← widthOf size
    let (_, p) ← decodeModRM
    return .move w p (.immediate (← fetch w))
  | .enter => do
    let size ← fetchWord
    let level ← fetchByte
    return .enter size (level &&& 0x1F)
  | .leave => return .leave
  | .returnFar releases => return .returnFar (← if releases then fetchWord else pure 0)
  | .breakpoint => return .interrupt 3
  | .interrupt => return .interrupt (← fetchByte)
  | .interruptOnOverflow => return .interruptOnOverflow
  | .returnInterrupt => return .returnInterrupt
  | .splitDigits => return .splitDigits (← fetchByte)
  | .joinDigits => return .joinDigits (← fetchByte)
  | .tableLookup => return .tableLookup ((← cpu).prefixes.segmentOr .ds)
  | .coprocessor => do
    -- the operand is passed over, nothing executes
    let _ ← decodeModRM
    return .skip
  | .loop condition => return .loop condition (← fetchShortDistance)
  | .jumpIfCountZero => return .jumpIfCountZero (← fetchShortDistance)
  | .inputImmediate size => return .input (← widthOf size) (← fetchByte).toUInt16
  | .outputImmediate size => return .output (← widthOf size) (← fetchByte).toUInt16
  | .inputIndirect size => return .input (← widthOf size) ((← registers).word .dx)
  | .outputIndirect size => return .output (← widthOf size) ((← registers).word .dx)
  | .callNear => return .callRelative (← fetchWord)
  | .jumpNear => return .jumpRelative (← fetchWord)
  | .jumpFar => return .jumpFar (← fetchFarAddress)
  | .jumpShort => return .jumpRelative (← fetchShortDistance)
  | .halt => return .halt
  | .changeFlag change => return .changeFlag change
  | .unary size => do
    let w ← widthOf size
    let (m, p) ← decodeModRM
    decodeUnary w m.reg p
  | .step => do
    let (m, p) ← decodeModRM
    match m.reg with
    | 0 => return .unary .increment .byte p
    | 1 => return .unary .decrement .byte p
    | _ =>
      -- the operand is read before the code is refused
      let _ ← readPlace .byte p
      return .undefined (bytes ++ [m.toByte])
  | .indirect => do
    let w ← currentWidth
    let (m, p) ← decodeModRM
    return decodeIndirect w m.reg p (bytes ++ [m.toByte])
  | .jumpIfNear condition => return .jumpIf condition (← fetchWord)
  | .setIf condition => do
    let (_, p) ← decodeModRM
    return .setIf condition p
  | .multiplyRegister => do
    let w ← currentWidth
    let (m, p) ← decodeModRM
    let r := Reg.ofCode m.reg
    return .multiplyTruncated w r (.register r) (.place p)
  | .moveZeroExtended source => do
    let w ← currentWidth
    let (m, p) ← decodeModRM
    return .moveExtended false w (Reg.ofCode m.reg) source p
  | .moveSignExtended source => do
    let w ← currentWidth
    let (m, p) ← decodeModRM
    return .moveExtended true w (Reg.ofCode m.reg) source p
  | .undefined => return .undefined bytes
  | .noOperation | .wait | .unassigned | .escape | .modifier _ | .repeatNext => return .skip

end Pc8086.Cpu.Exec

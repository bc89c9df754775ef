import Pc8086.Proofs.Cpu.Fetch
import Pc8086.Proofs.Cpu.Parts

namespace Pc8086.Cpu

def Exec.Unstepped (f : Registers → Registers) : Prop :=
  ∀ r, (f r).word .cx = r.word .cx ∧ (f r).ip = r.ip

inductive Instruction.Divides : Instruction → Prop
  | accumulator (op : AccumulatorOperation) (w : Width) (source : Place) :
    Divides (.accumulator op w source)
  | splitDigits (base : UInt8) : Divides (.splitDigits base)

namespace Exec

section Properties

variable {β γ : Type} [Bus β] [Bus γ] (P : (α : Type) → Exec β α → Exec γ α → Prop)

structure Prefixing : Prop extends Decoding P, Reading P where
  record (f : Cpu → Prefixes) :
    P Unit (modifyCpu fun c => { c with prefixes := f c })
      (modifyCpu fun c => { c with prefixes := f c })

structure Fetching : Prop extends Prefixing P where
  endless :
    P Instruction (do throw (.endlessPrefixes (← Exec.cpu).instructionAddress))
      (do throw (.endlessPrefixes (← Exec.cpu).instructionAddress))

structure Performing (i : Instruction) : Prop extends Working P where
  undefined (bytes : List UInt8) (h : i = .undefined bytes) :
    P Unit (illegal bytes) (illegal bytes)
  divide (h : i.Divides) : P Unit divideError divideError
  string (op : StringOperation) (w : Width) (h : i = .string op w) :
    P Segment (operandSegment .ds) (operandSegment .ds) ∧
      P Unit (modifyCpu finishElement) (modifyCpu finishElement)
  enable (h : i = .changeFlag .enableInterrupts) :
    P Unit (changeFlag .enableInterrupts) (changeFlag .enableInterrupts)
  halt (h : i = .halt) :
    P Unit (modifyCpu fun c => { c with halted := true })
      (modifyCpu fun c => { c with halted := true })

end Properties

variable {β γ : Type} [Bus β] [Bus γ] {P : (α : Type) → Exec β α → Exec γ α → Prop}

section Decoding

variable (h : Decoding P)
include h

theorem Decoding.withSegment (i : Segment) (f : Segment → α) :
    P α (do return f ((← cpu).prefixes.segmentOr i))
      (do return f ((← cpu).prefixes.segmentOr i)) := by
  have hs := h.bind (h.operandSegment i) fun s => h.pure (f s)
  exact hs

theorem Decoding.placeAt (i : Segment) (offset : UInt16) :
    P Place (do return .memory ⟨(← cpu).prefixes.segmentOr i, offset⟩)
      (do return .memory ⟨(← cpu).prefixes.segmentOr i, offset⟩) :=
  h.withSegment i fun s => Place.memory ⟨s, offset⟩

theorem Decoding.widthOf (size : OperandSize) : P Width (widthOf size) (widthOf size) := by
  cases size with
  | byte =>
    have hb := h.pure Width.byte
    exact hb
  | current => exact h.currentWidth

theorem Decoding.decodePlace (m : ModRM) : P Place (decodePlace m) (decodePlace m) := by
  unfold Exec.decodePlace
  repeat' with_reducible first
    | exact h.pure _
    | exact h.placeAt _ _
    | exact h.registers
    | exact h.fetchWord
    | exact h.map _ h.fetchSignedByte
    | refine h.bind ?_ fun _ => ?_
    | split

theorem Decoding.decodeModRM : P (ModRM × Place) decodeModRM decodeModRM :=
  h.bind h.fetchByte fun _ => h.bind (h.decodePlace _) fun _ => h.pure _

theorem Decoding.fetchImmediate (form : ImmediateForm) (w : Width) :
    P UInt32 (fetchImmediate form w) (fetchImmediate form w) := by
  cases form with
  | full => exact h.fetch w
  | signedByte => exact h.fetchSignedByte
  | byte => exact h.fetch .byte

theorem Decoding.fetchShortDistance : P UInt16 fetchShortDistance fetchShortDistance :=
  h.bind h.fetchSignedByte fun _ => h.pure _

theorem Decoding.fetchFarAddress : P SegmentedAddress fetchFarAddress fetchFarAddress :=
  h.bind h.fetchWord fun _ => h.bind h.fetchWord fun _ => h.pure _

theorem Decoding.directLocation : P Location directLocation directLocation :=
  h.bind h.fetchWord fun offset => h.withSegment .ds fun s => Location.mk s offset

theorem Decoding.decodeUnary (w : Width) (code : UInt8) (p : Place) :
    P Instruction (decodeUnary w code p) (decodeUnary w code p) := by
  unfold Exec.decodeUnary
  split
  all_goals first
    | exact h.pure _
    | exact h.bind (h.fetch w) fun _ => h.pure _

theorem Decoding.decode (hr : Reading P) (bytes : List UInt8) (op : Opcode) :
    P Instruction (decode bytes op) (decode bytes op) := by
  unfold Exec.decode
  repeat' with_reducible first
    | exact h.pure _
    | exact h.decodeModRM
    | exact h.widthOf _
    | exact h.currentWidth
    | exact h.fetch _
    | exact h.fetchByte
    | exact h.fetchWord
    | exact h.fetchImmediate _ _
    | exact h.fetchShortDistance
    | exact h.fetchFarAddress
    | exact h.directLocation
    | exact hr.readPlace _ _
    | exact h.registers
    | exact h.withSegment _ Instruction.tableLookup
    | exact h.map _ h.registers
    | exact h.decodeUnary _ _ _
    | refine h.bind ?_ fun _ => ?_
    | split

theorem Decoding.decodeOpcode (hr : Reading P) (b : UInt8) :
    P Instruction (decodeOpcode b) (decodeOpcode b) := by
  unfold Exec.decodeOpcode
  split
  · exact h.bind h.fetchByte fun _ => h.decode hr _ _
  · exact h.decode hr _ _

end Decoding

theorem Prefixing.decodePrefixed (h : Prefixing P) (rep : Option UInt8) (b : UInt8) :
    P Instruction (decodePrefixed rep b) (decodePrefixed rep b) := by
  unfold Exec.decodePrefixed
  split
  · refine h.bind h.registers fun _ => ?_
    split
    · exact h.bind (h.record _) fun _ => h.decodeOpcode h.toReading b
    · exact h.pure _
  · exact h.decodeOpcode h.toReading b

theorem Fetching.decodeInstruction (h : Fetching P) (rep : Option UInt8) (n : Nat) :
    P Instruction (decodeInstruction rep n) (decodeInstruction rep n) := by
  induction n generalizing rep with
  | zero => exact h.endless
  | succ n ih =>
    refine h.bind h.fetchByte fun b => ?_
    split
    · exact h.bind (h.record _) fun _ => ih rep
    · split
      · exact h.bind (h.record _) fun _ => ih (some b)
      · exact h.decodePrefixed rep b

section Elements

variable (h : Accessing P)
include h

theorem Accessing.element (hs : P Segment (operandSegment .ds) (operandSegment .ds))
    (hm : ∀ f, Unstepped f → P Unit (modifyRegisters f) (modifyRegisters f)) (w : Width)
    (op : StringOperation) : P Unit (element w op) (element w op) := by
  have hsource : P UInt32 (readElement w) (readElement w) :=
    have hread := h.bind hs fun i => h.bind h.registers fun r =>
      h.readMemory ⟨i, r.word .si⟩ w
    hread
  have htarget : P UInt32 (readTarget w) (readTarget w) :=
    h.bind h.registers fun _ => h.readMemory _ _
  have hstore : ∀ v, P Unit (writeTarget w v) (writeTarget w v) :=
    fun _ => h.bind h.registers fun _ => h.writeMemory _ _ _
  have hindex : ∀ i, i = .si ∨ i = .di → P Unit (advance i w) (advance i w) := by
    rintro i (rfl | rfl)
    · exact hm _ fun _ => ⟨rfl, rfl⟩
    · exact hm _ fun _ => ⟨rfl, rfl⟩
  have hflags : ∀ f : Flags → UInt32 × Flags, P UInt32 (withFlags f) (withFlags f) :=
    fun _ => h.bind h.registers fun _ => h.bind (hm _ fun _ => ⟨rfl, rfl⟩) fun _ => h.pure _
  have hload : ∀ v, P Unit (modifyRegisters fun r => r.write w .ax v)
      (modifyRegisters fun r => r.write w .ax v) := by
    intro v
    refine hm _ fun _ => ?_
    cases w <;> exact ⟨rfl, rfl⟩
  unfold Exec.element
  repeat' with_reducible first
    | exact h.registers
    | exact hindex _ (.inl rfl)
    | exact hindex _ (.inr rfl)
    | exact hsource
    | exact htarget
    | exact hstore _
    | exact hflags _
    | exact hload _
    | exact h.input _ _
    | exact h.output _ _ _
    | refine h.bind ?_ fun _ => ?_
    | split

end Elements

section Instructions

variable (h : Working P)
include h

theorem Working.unary (op : UnaryOperation) (w : Width) (target : Place) :
    P Unit (unary op w target) (unary op w target) := by
  refine h.bind (h.readPlace _ _) fun v => ?_
  cases op with
  | increment => exact h.bind (h.withFlags _) fun _ => h.writePlace _ _ _
  | decrement => exact h.bind (h.withFlags _) fun _ => h.writePlace _ _ _
  | complement => exact h.bind (h.pure _) fun _ => h.writePlace _ _ _
  | negate => exact h.bind (h.withFlags _) fun _ => h.writePlace _ _ _

theorem Working.accumulator (hd : P Unit divideError divideError) (op : AccumulatorOperation)
    (w : Width) (source : Place) : P Unit (accumulator op w source) (accumulator op w source) := by
  refine h.bind (h.readPlace _ _) fun v => h.bind h.registers fun r => ?_
  dsimp only
  split
  · exact h.modify _
  · exact hd

theorem Working.jumpTo (ip : UInt16) : P Unit (jumpTo ip) (jumpTo ip) :=
  h.modify _

theorem Working.jumpBy (distance : UInt16) : P Unit (jumpBy distance) (jumpBy distance) :=
  h.modify _

theorem Working.jumpFarTo (a : SegmentedAddress) : P Unit (jumpFarTo a) (jumpFarTo a) :=
  h.modify _

theorem Working.releaseStack (n : UInt16) : P Unit (releaseStack n) (releaseStack n) :=
  h.modify _

theorem Working.pushAll (w : Width) : P Unit (pushAll w) (pushAll w) :=
  h.bind h.registers fun _ => h.forM (fun _ => h.bind h.registers fun _ => h.push _ _) _

theorem Working.popAll (w : Width) : P Unit (popAll w) (popAll w) := by
  refine h.forM (fun i => h.bind (h.pop w) fun v => ?_) _
  split
  · exact h.modify _
  · exact h.pure ()

theorem Working.copyFrame (frame : UInt16) (n : Nat) :
    P Unit (copyFrame frame n) (copyFrame frame n) := by
  induction n generalizing frame with
  | zero => exact h.pure ()
  | succ n ih =>
    exact h.bind (h.readMemory _ _) fun _ => h.bind (h.push _ _) fun _ => ih (frame - 2)

theorem Working.enter (size : UInt16) (level : UInt8) :
    P Unit (enter size level) (enter size level) := by
  have hroom : ∀ frame, P Unit
      (do
        modifyRegisters fun r => r.setWord .bp frame
        modifyRegisters fun r => r.setWord .sp (r.word .sp - size))
      (do
        modifyRegisters fun r => r.setWord .bp frame
        modifyRegisters fun r => r.setWord .sp (r.word .sp - size)) :=
    fun _ => h.bind (h.modify _) fun _ => h.modify _
  refine h.bind h.registers fun _ => h.bind (h.pushWord _) fun _ => ?_
  refine h.bind h.registers fun _ => ?_
  dsimp only
  split
  · exact h.bind (h.copyFrame _ _) fun _ => h.bind (h.pushWord _) fun _ => hroom _
  · exact hroom _

theorem Working.leave : P Unit leave leave :=
  h.bind (h.modify _) fun _ => h.bind h.popWord fun _ => h.modify _

theorem Working.callFar (a : SegmentedAddress) : P Unit (callFar a) (callFar a) :=
  h.bind h.registers fun _ => h.bind (h.pushWord _) fun _ =>
    h.bind h.registers fun _ => h.bind (h.pushWord _) fun _ => h.modify _

theorem Working.loopTaken (condition : LoopCondition) :
    P Bool (loopTaken condition) (loopTaken condition) :=
  h.bind (h.modify _) fun _ => h.bind h.registers fun _ => h.pure _

theorem Working.changeFlag {change : FlagChange}
    (he : change = .enableInterrupts →
      P Unit (changeFlag .enableInterrupts) (changeFlag .enableInterrupts)) :
    P Unit (changeFlag change) (changeFlag change) := by
  have hflags : ∀ f : Flags → Flags,
      P Unit (modifyRegisters fun r => { r with flags := f r.flags })
        (modifyRegisters fun r => { r with flags := f r.flags }) := fun _ => h.modify _
  cases change with
  | complementCarry => exact hflags fun f => { f with carry := !f.carry }
  | clearCarry => exact hflags fun f => { f with carry := false }
  | setCarry => exact hflags fun f => { f with carry := true }
  | disableInterrupts => exact hflags fun f => { f with interrupt := false }
  | enableInterrupts => exact he rfl
  | clearDirection => exact hflags fun f => { f with direction := false }
  | setDirection => exact hflags fun f => { f with direction := true }

end Instructions

theorem Performing.execute {i : Instruction} (h : Performing P i) :
    P Unit (execute i) (execute i) := by
  unfold Exec.execute
  repeat' with_reducible first
    | exact h.pure _
    | exact h.registers
    | exact h.modify _
    | exact h.jumpBy _
    | exact h.jumpTo _
    | exact h.jumpFarTo _
    | exact h.releaseStack _
    | exact h.withFlags _
    | exact h.readPlace _ _
    | exact h.writePlace _ _ _
    | exact h.readSource _ _
    | exact h.readMemory _ _
    | exact h.readFarPointer _
    | exact h.undefined _ rfl
    | exact h.divide (.splitDigits _)
    | exact h.unary _ _ _
    | exact h.accumulator (h.divide (.accumulator ..)) _ _ _
    | exact h.push _ _
    | exact h.pop _
    | exact h.pushWord _
    | exact h.popWord
    | exact h.pushAll _
    | exact h.popAll _
    | exact h.enter _ _
    | exact h.leave
    | exact h.loopTaken _
    | exact h.callFar _
    | exact h.enterVector _
    | exact h.changeFlag fun he => h.enable (congrArg _ he)
    | exact h.input _ _
    | exact h.output _ _ _
    | exact h.halt rfl
    | exact h.element (h.string _ _ rfl).1 (fun _ _ => h.modify _) _ _
    | exact (h.string _ _ rfl).2
    | refine h.bind ?_ fun _ => ?_
    | split

theorem Fetching.runInstruction (h : Fetching P) (hi : ∀ i, Performing P i) (rep : Option UInt8)
    (n : Nat) : P Unit (runInstruction rep n) (runInstruction rep n) := by
  rw [runInstruction_eq, runInstruction_eq]
  exact h.bind (h.decodeInstruction rep n) fun i => (hi i).execute

end Exec

end Pc8086.Cpu

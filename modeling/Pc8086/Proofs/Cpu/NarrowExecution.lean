import Pc8086.Proofs.Cpu.PrefixOrder
import Pc8086.Proofs.Cpu.UpperHalves

namespace Pc8086.Cpu

open Exec

section Computations

variable {β α α' : Type}

/-- With the upper halves of `q` in place of its own. -/
def withUpper (q : Registers) (c : Cpu) : Cpu :=
  { c with registers := c.registers.withUpper q }

def systemWithUpper (q : Registers) (s : System β) : System β :=
  ⟨s.cpu.withUpper q, s.bus⟩

def outcomeWithUpper (q : Registers) :
    EStateM.Result Fault (System β) α → EStateM.Result Fault (System β) α
  | .ok a s => .ok a (systemWithUpper q s)
  | .error f s => .error f (systemWithUpper q s)

def Unsized (c : Cpu) : Prop :=
  PrefixByte.operandSize ∉ c.prefixes.latestFirst

inductive Leaves (I : Cpu → Prop) (Q : α → Prop) :
    EStateM.Result Fault (System β) α → Prop where
  | ok {a : α} {s : System β} (hq : Q a) (h : I s.cpu) : Leaves I Q (.ok a s)
  | error {f : Fault} {s : System β} (h : I s.cpu) : Leaves I Q (.error f s)

/-- From here on the computation neither looks at the upper halves nor changes them. -/
structure IgnoresUpper (I : Cpu → Prop) (Q : α → Prop) (x : Exec β α) (s : System β) : Prop where
  commutes : ∀ q, x (systemWithUpper q s) = outcomeWithUpper q (x s)
  leaves : Leaves I Q (x s)

/-- Where no operand-size prefix is on record, the computation has nothing to do with the upper
halves, and it records no such prefix. -/
def Unaware (Q : α → Prop) (x : Exec β α) : Prop :=
  ∀ s, Unsized s.cpu → IgnoresUpper Unsized Q x s

abbrev Oblivious (x : Exec β α) : Prop :=
  Unaware (fun _ => True) x

variable {I J : Cpu → Prop} {Q : α → Prop} {Q' : α' → Prop} {s : System β}

theorem IgnoresUpper.bind {x : Exec β α} {f : α → Exec β α'} (hx : IgnoresUpper I Q x s)
    (hf : ∀ a t, x s = .ok a t → Q a → I t.cpu → IgnoresUpper I Q' (f a) t) :
    IgnoresUpper I Q' (x >>= f) s := by
  obtain ⟨hcommutes, hleaves⟩ := hx
  cases hr : x s with
  | ok a t =>
    rw [hr] at hleaves
    cases hleaves with
    | ok hq h =>
      obtain ⟨hrest, hend⟩ := hf a t hr hq h
      refine ⟨fun q => ?_, by rwa [bind_ok f hr]⟩
      rw [bind_eq_resume, hcommutes, bind_ok f hr, hr]
      exact hrest q
  | error e t =>
    rw [hr] at hleaves
    cases hleaves with
    | error h =>
      refine ⟨fun q => ?_, by rw [bind_error f hr]; exact .error h⟩
      rw [bind_eq_resume, hcommutes, bind_error f hr, hr]
      rfl

theorem IgnoresUpper.mono {x : Exec β α} (hx : IgnoresUpper I Q x s) (hi : ∀ c, I c → J c) :
    IgnoresUpper J (fun _ => True) x s := by
  obtain ⟨hcommutes, hleaves⟩ := hx
  refine ⟨hcommutes, ?_⟩
  generalize x s = p at hleaves ⊢
  cases hleaves with
  | ok _ h => exact .ok trivial (hi _ h)
  | error h => exact .error (hi _ h)

theorem unaware_pure {a : α} (h : Q a) : Unaware Q (pure a : Exec β α) :=
  fun _ hs => ⟨fun _ => rfl, .ok h hs⟩

theorem oblivious_pure (a : α) : Oblivious (pure a : Exec β α) :=
  unaware_pure trivial

theorem Unaware.bind {x : Exec β α} {f : α → Exec β α'} (hx : Unaware Q x)
    (hf : ∀ a, Q a → Unaware Q' (f a)) : Unaware Q' (x >>= f) :=
  fun s hs => (hx s hs).bind fun a t _ hq h => hf a hq t h

theorem Unaware.then {x : Exec β α} {f : α → Exec β α'} (hx : Oblivious x)
    (hf : ∀ a, Unaware Q' (f a)) : Unaware Q' (x >>= f) :=
  hx.bind fun a _ => hf a

/-- What is computed from the registers may not depend on the upper halves. -/
theorem unaware_registers {f : Registers → Exec β α} (hf : ∀ r, Unaware Q (f r))
    (hs : ∀ r q, f (Registers.withUpper r q) = f r) : Unaware Q (Exec.registers >>= f) := by
  intro s h
  refine ⟨fun q => ?_, (hf _ s h).leaves⟩
  change f (s.cpu.registers.withUpper q) (systemWithUpper q s) = _
  rw [hs]
  exact (hf _ s h).commutes q

theorem unaware_cpu {f : Cpu → Exec β α} (hf : ∀ c, Unsized c → Unaware Q (f c))
    (hs : ∀ c q, f (c.withUpper q) = f c) : Unaware Q (Exec.cpu >>= f) := by
  intro s h
  refine ⟨fun q => ?_, (hf _ h s h).leaves⟩
  change f (s.cpu.withUpper q) (systemWithUpper q s) = _
  rw [hs]
  exact (hf _ h s h).commutes q

theorem oblivious_modifyCpu {f : Cpu → Cpu} (hf : ∀ c q, f (c.withUpper q) = (f c).withUpper q)
    (hp : ∀ c, Unsized c → Unsized (f c)) : Oblivious (modifyCpu f : Exec β Unit) := by
  intro s h
  refine ⟨fun q => ?_, .ok trivial (hp _ h)⟩
  change EStateM.Result.ok () (System.mk (f (s.cpu.withUpper q)) s.bus) = _
  rw [hf]
  rfl

theorem oblivious_modify {f : Registers → Registers} (hf : Registers.SparesUpper f) :
    Oblivious (modifyRegisters f : Exec β Unit) :=
  oblivious_modifyCpu (fun c q => congrArg (fun r => { c with registers := r }) (hf c.registers q))
    fun _ h => h

theorem oblivious_onBus (x : EStateM Fault β α) : Oblivious (onBus x) := by
  intro s h
  unfold onBus
  constructor
  · intro q
    dsimp only [systemWithUpper]
    cases x s.bus <;> rfl
  · dsimp only
    cases x s.bus with
    | ok a b => exact .ok trivial h
    | error e b => exact .error h

theorem unaware_throw {f : Cpu → Fault} (hf : ∀ c q, f (c.withUpper q) = f c) :
    Unaware Q (do throw (f (← Exec.cpu)) : Exec β α) := by
  intro s h
  refine ⟨fun q => ?_, .error h⟩
  change EStateM.Result.error (f (s.cpu.withUpper q)) _ = _
  rw [hf]
  rfl

theorem oblivious_withFlags (f : Flags → α × Flags) : Oblivious (withFlags f : Exec β α) :=
  unaware_registers
    (fun r => (oblivious_modify (Registers.sparesUpper_flags fun _ => (f r.flags).2)).then
      fun _ => oblivious_pure _)
    fun _ _ => rfl

theorem oblivious_forM {ι : Type} {f : ι → Exec β Unit} (hf : ∀ i, Oblivious (f i))
    (is : List ι) : Oblivious (is.forM f : Exec β PUnit) := by
  induction is with
  | nil => exact oblivious_pure ()
  | cons i is ih => exact (hf i).then fun _ => ih

theorem oblivious_when {p : Prop} [Decidable p] {x : Exec β Unit} (hx : Oblivious x) :
    Oblivious (if p then x else pure ()) := by
  split
  · exact hx
  · exact oblivious_pure ()

theorem oblivious_jumpTo (ip : UInt16) : Oblivious (jumpTo ip : Exec β Unit) :=
  oblivious_modify fun _ _ => rfl

theorem oblivious_jumpBy (distance : UInt16) : Oblivious (jumpBy distance : Exec β Unit) :=
  oblivious_modify fun _ _ => rfl

theorem oblivious_jumpFarTo (a : SegmentedAddress) : Oblivious (jumpFarTo a : Exec β Unit) :=
  oblivious_modify fun _ _ => rfl

theorem oblivious_setWord (i : Reg) (f : Registers → UInt16)
    (hf : ∀ r q, f (Registers.withUpper r q) = f r) :
    Oblivious (modifyRegisters fun r => r.setWord i (f r) : Exec β Unit) :=
  oblivious_modify fun r q => by rw [hf, Registers.setWord_withUpper]

theorem oblivious_writeRegister {w : Width} (hw : w ≠ .dword) (i : Reg) (v : UInt32) :
    Oblivious (modifyRegisters fun r => r.write w i v : Exec β Unit) :=
  oblivious_modify fun r q => r.write_withUpper q hw i v

end Computations

section Accesses

variable {β : Type} [Bus β] {w : Width}

theorem oblivious_readBytes (i : Segment) (offset : UInt16) (n : Nat) :
    Oblivious (readBytes i offset n : Exec β UInt32) := by
  induction n generalizing offset with
  | zero => exact oblivious_pure 0
  | succ n ih =>
    unfold readBytes
    rw [busAddress_bind]
    refine unaware_registers (fun _ => ?_) fun r q => by simp only [Registers.segment_withUpper]
    exact (oblivious_onBus _).then fun _ => (ih (offset + 1)).then fun _ => oblivious_pure _

theorem oblivious_writeBytes (i : Segment) (offset : UInt16) (v : UInt32) (n : Nat) :
    Oblivious (writeBytes i offset v n : Exec β Unit) := by
  induction n generalizing offset v with
  | zero => exact oblivious_pure ()
  | succ n ih =>
    unfold writeBytes
    rw [busAddress_bind]
    refine unaware_registers (fun _ => ?_) fun r q => by simp only [Registers.segment_withUpper]
    exact (oblivious_onBus _).then fun _ => ih (offset + 1) (v >>> 8)

theorem oblivious_readMemory (l : Location) (w : Width) :
    Oblivious (readMemory l w : Exec β UInt32) :=
  oblivious_readBytes _ _ _

theorem oblivious_writeMemory (l : Location) (w : Width) (v : UInt32) :
    Oblivious (writeMemory l w v : Exec β Unit) :=
  oblivious_writeBytes _ _ _ _

theorem oblivious_readFarPointer (l : Location) :
    Oblivious (readFarPointer l : Exec β SegmentedAddress) :=
  (oblivious_readMemory _ _).then fun _ => (oblivious_readMemory _ _).then fun _ => oblivious_pure _

theorem oblivious_readPlace (hw : w ≠ .dword) (p : Place) :
    Oblivious (readPlace w p : Exec β UInt32) := by
  cases p with
  | register i =>
    exact unaware_registers (fun _ => oblivious_pure _) fun r q => by
      rw [Registers.read_withUpper r q hw]
  | memory l => exact oblivious_readMemory l w

theorem oblivious_writePlace (hw : w ≠ .dword) (v : UInt32) (p : Place) :
    Oblivious (writePlace w v p : Exec β Unit) := by
  cases p with
  | register i => exact oblivious_writeRegister hw i v
  | memory l => exact oblivious_writeMemory l w v

theorem oblivious_readSource (hw : w ≠ .dword) (p : Source) :
    Oblivious (readSource w p : Exec β UInt32) := by
  cases p with
  | place p => exact oblivious_readPlace hw p
  | immediate v => exact oblivious_pure _

/-- A doubleword is pushed below SP as well as a word. -/
theorem oblivious_push (w : Width) (v : UInt32) : Oblivious (push w v : Exec β Unit) := by
  refine unaware_registers (fun r => ?_) fun r q => by simp only [Registers.word_withUpper]
  refine (oblivious_setWord .sp (fun _ => _) fun _ _ => rfl).then fun _ => ?_
  exact oblivious_writeMemory _ _ _

theorem oblivious_pop (w : Width) : Oblivious (pop w : Exec β UInt32) := by
  refine unaware_registers (fun r => ?_) fun r q => by simp only [Registers.word_withUpper]
  refine (oblivious_readMemory _ _).then fun v => ?_
  exact (oblivious_setWord .sp (fun _ => _) fun _ _ => rfl).then fun _ => oblivious_pure v

theorem oblivious_pushWord (v : UInt16) : Oblivious (pushWord v : Exec β Unit) :=
  oblivious_push _ _

theorem oblivious_popWord : Oblivious (popWord : Exec β UInt16) :=
  (oblivious_pop .word).then fun _ => oblivious_pure _

theorem oblivious_enterVector (vector : UInt8) :
    Oblivious (enterVector vector : Exec β Unit) := by
  refine unaware_registers (fun _ => ?_) fun _ _ => rfl
  refine (oblivious_pushWord _).then fun _ => ?_
  refine (oblivious_modify fun _ _ => rfl).then fun _ => ?_
  refine unaware_registers (fun _ => ?_) fun _ _ => rfl
  refine (oblivious_pushWord _).then fun _ => ?_
  refine unaware_registers (fun _ => ?_) fun _ _ => rfl
  refine (oblivious_pushWord _).then fun _ => ?_
  refine (oblivious_onBus _).then fun _ => (oblivious_onBus _).then fun _ => ?_
  exact oblivious_jumpFarTo _

theorem oblivious_enterVectorIf (on : Bool) (vector : UInt8) :
    Oblivious (if on then enterVector vector else pure () : Exec β Unit) :=
  oblivious_when (oblivious_enterVector vector)

end Accesses

def Instruction.Narrow : Instruction → Prop
  | .arithmetic _ w _ _ | .test w _ _ | .unary _ w _ | .accumulator _ w _
  | .multiplyTruncated w _ _ _ | .shift _ w _ _ | .move w _ _ | .exchange w _ _
  | .extendAccumulator w | .extendDouble w | .push w _ | .pushRegister w _ | .pop w _ | .pushAll w
  | .popAll w | .input w _ | .output w _ | .string _ w => w ≠ .dword
  | .moveExtended _ w _ sourceWidth _ => w ≠ .dword ∧ sourceWidth ≠ .dword
  | _ => True

section Instructions

variable {β : Type} {w : Width}

theorem oblivious_replace {f : Registers → Option Registers}
    (hf : ∀ r q, f (Registers.withUpper r q) = (f r).map (·.withUpper q)) :
    Oblivious (Exec.registers >>= fun r =>
      match f r with
      | some r => modifyRegisters fun _ => r
      | none => divideError : Exec β Unit) := by
  intro s hs
  constructor
  · intro q
    have hq : f (systemWithUpper q s).cpu.registers =
        (f s.cpu.registers).map (·.withUpper q) := hf _ q
    rw [run_registers, run_registers, hq]
    cases f s.cpu.registers <;> rfl
  · rw [run_registers]
    cases f s.cpu.registers with
    | some r => exact .ok trivial hs
    | none => exact .error hs

theorem oblivious_releaseStack (n : UInt16) : Oblivious (releaseStack n : Exec β Unit) :=
  oblivious_setWord .sp (fun r => r.word .sp + n) fun r q => by rw [r.word_withUpper]

theorem oblivious_loopTaken (condition : LoopCondition) :
    Oblivious (loopTaken condition : Exec β Bool) := by
  refine (oblivious_setWord .cx (fun r => r.word .cx - 1) fun r q => by
    rw [r.word_withUpper]).then fun _ => ?_
  exact unaware_registers (fun _ => oblivious_pure _) fun r q => by
    rw [r.word_withUpper, r.flags_withUpper]

theorem oblivious_changeFlag (change : FlagChange) :
    Oblivious (changeFlag change : Exec β Unit) := by
  refine oblivious_modifyCpu (fun c q => ?_) fun c h => ?_
  · cases change with
    | enableInterrupts =>
      dsimp only [withUpper, Registers.flags_withUpper]
      split <;> rfl
    | _ => rfl
  · cases change with
    | enableInterrupts =>
      dsimp only
      split <;> exact h
    | _ => exact h

theorem oblivious_advance (i : Reg) (w : Width) : Oblivious (advance i w : Exec β Unit) :=
  oblivious_modify fun r q => by
    simp only [Registers.flags_withUpper, Registers.word_withUpper, Registers.setWord_withUpper]

theorem finishElement_withUpper (c : Cpu) (q : Registers) :
    finishElement (c.withUpper q) = (finishElement c).withUpper q := by
  have hp : (c.withUpper q).prefixes = c.prefixes := rfl
  rw [finishElement_eq, finishElement_eq, hp]
  rcases c.prefixes.leaveRepeat.1 with _ | ⟨mode, rewind⟩
  · rfl
  · dsimp only [withUpper]
    rw [Registers.word_withUpper, Registers.setWord_withUpper, Registers.flags_withUpper,
      apply_ite (Registers.withUpper · q)]
    rfl

theorem finishElement_unsized {c : Cpu} (h : Unsized c) : Unsized (finishElement c) := by
  rw [finishElement_eq]
  rcases c.prefixes.leaveRepeat.1 with _ | ⟨mode, rewind⟩
  · exact h
  · change _ ∉ c.prefixes.leaveRepeat.2.latestFirst
    rwa [Prefixes.leaveRepeat_latestFirst]

theorem oblivious_finishElement : Oblivious (modifyCpu finishElement : Exec β Unit) :=
  oblivious_modifyCpu finishElement_withUpper fun _ => finishElement_unsized

variable [Bus β]

theorem oblivious_unary (hw : w ≠ .dword) (op : UnaryOperation) (target : Place) :
    Oblivious (unary op w target : Exec β Unit) := by
  refine (oblivious_readPlace hw _).then fun v => ?_
  have hwrite : ∀ v, Oblivious (writePlace w v target : Exec β Unit) := fun v =>
    oblivious_writePlace hw v target
  cases op with
  | increment => exact (oblivious_withFlags _).then hwrite
  | decrement => exact (oblivious_withFlags _).then hwrite
  | complement => exact (oblivious_pure _).then hwrite
  | negate => exact (oblivious_withFlags _).then hwrite

theorem oblivious_accumulator (hw : w ≠ .dword) (op : AccumulatorOperation) (source : Place) :
    Oblivious (accumulator op w source : Exec β Unit) := by
  refine (oblivious_readPlace hw _).then fun v => ?_
  cases op with
  | multiply =>
    exact oblivious_replace (f := fun r => some (r.multiply w v)) fun r q =>
      congrArg some (r.multiply_withUpper hw q v)
  | multiplySigned =>
    exact oblivious_replace (f := fun r => some (r.multiplySigned w v)) fun r q =>
      congrArg some (r.multiplySigned_withUpper hw q v)
  | divide => exact oblivious_replace fun r q => r.divide?_withUpper hw q v
  | divideSigned => exact oblivious_replace fun r q => r.divideSigned?_withUpper hw q v

theorem oblivious_pushAll (hw : w ≠ .dword) : Oblivious (pushAll w : Exec β Unit) := by
  refine unaware_registers (fun r => ?_) fun r q => by rw [Registers.read_withUpper r q hw]
  refine oblivious_forM (fun i => ?_) _
  refine unaware_registers (fun _ => oblivious_push _ _) fun r q => by
    rw [Registers.read_withUpper r q hw]

theorem oblivious_popAll (hw : w ≠ .dword) : Oblivious (popAll w : Exec β Unit) := by
  refine oblivious_forM (fun i => (oblivious_pop w).then fun v => ?_) _
  exact oblivious_when (oblivious_writeRegister hw i v)

theorem oblivious_copyFrame (frame : UInt16) (n : Nat) :
    Oblivious (copyFrame frame n : Exec β Unit) := by
  induction n generalizing frame with
  | zero => exact oblivious_pure ()
  | succ n ih =>
    exact (oblivious_readMemory _ _).then fun _ => (oblivious_push _ _).then fun _ => ih (frame - 2)

theorem oblivious_enter (size : UInt16) (level : UInt8) :
    Oblivious (enter size level : Exec β Unit) := by
  have hroom : ∀ frame, Oblivious
      (do
        modifyRegisters fun r => r.setWord .bp frame
        modifyRegisters fun r => r.setWord .sp (r.word .sp - size) : Exec β Unit) := fun frame =>
    (oblivious_setWord .bp (fun _ => frame) fun _ _ => rfl).then fun _ =>
      oblivious_setWord .sp (fun r => r.word .sp - size) fun r q => by rw [r.word_withUpper]
  refine unaware_registers (fun r => ?_) fun r q => by rw [r.word_withUpper]
  refine (oblivious_pushWord _).then fun _ => ?_
  refine unaware_registers (fun r => ?_) fun r q => by rw [r.word_withUpper]
  dsimp only
  split
  · exact (oblivious_copyFrame _ _).then fun _ => (oblivious_pushWord _).then fun _ => hroom _
  · exact hroom _

theorem oblivious_leave : Oblivious (leave : Exec β Unit) := by
  refine (oblivious_setWord .sp (·.word .bp) fun r q => r.word_withUpper q .bp).then fun _ => ?_
  exact oblivious_popWord.then fun frame => oblivious_setWord .bp (fun _ => frame) fun _ _ => rfl

theorem oblivious_callFar (a : SegmentedAddress) : Oblivious (callFar a : Exec β Unit) := by
  refine unaware_registers (fun _ => (oblivious_pushWord _).then fun _ => ?_) fun _ _ => rfl
  refine unaware_registers (fun _ => (oblivious_pushWord _).then fun _ => ?_) fun _ _ => rfl
  exact oblivious_jumpFarTo a

theorem oblivious_readElement (w : Width) : Oblivious (readElement w : Exec β UInt32) :=
  unaware_cpu (fun _ _ => oblivious_readMemory _ _) fun c q => by
    rw [show (c.withUpper q).registers = c.registers.withUpper q from rfl,
      Registers.word_withUpper]
    rfl

theorem oblivious_readTarget (w : Width) : Oblivious (readTarget w : Exec β UInt32) :=
  unaware_registers (fun _ => oblivious_readMemory _ _) fun r q => by rw [r.word_withUpper]

theorem oblivious_writeTarget (w : Width) (v : UInt32) :
    Oblivious (writeTarget w v : Exec β Unit) :=
  unaware_registers (fun _ => oblivious_writeMemory _ _ _) fun r q => by rw [r.word_withUpper]

theorem oblivious_element (hw : w ≠ .dword) (op : StringOperation) :
    Oblivious (element w op : Exec β Unit) := by
  have hsi : Oblivious (advance .si w : Exec β Unit) := oblivious_advance .si w
  have hdi : Oblivious (advance .di w : Exec β Unit) := oblivious_advance .di w
  cases op with
  | input =>
    refine unaware_registers (fun _ => ?_) fun r q => by rw [r.word_withUpper]
    exact (oblivious_onBus _).then fun v => (oblivious_writeTarget w v).then fun _ => hdi
  | output =>
    refine (oblivious_readElement w).then fun v => ?_
    refine unaware_registers (fun _ => ?_) fun r q => by rw [r.word_withUpper]
    exact (oblivious_onBus _).then fun _ => hsi
  | move =>
    refine (oblivious_readElement w).then fun v => (oblivious_writeTarget w v).then fun _ => ?_
    exact hsi.then fun _ => hdi
  | compare =>
    refine (oblivious_readElement w).then fun a => (oblivious_readTarget w).then fun b => ?_
    exact (oblivious_withFlags _).then fun _ => hsi.then fun _ => hdi
  | store =>
    refine unaware_registers (fun _ => ?_) fun r q => by rw [Registers.read_withUpper r q hw]
    exact (oblivious_writeTarget w _).then fun _ => hdi
  | load =>
    refine (oblivious_readElement w).then fun v => ?_
    exact (oblivious_writeRegister hw .ax v).then fun _ => hsi
  | scan =>
    refine (oblivious_readTarget w).then fun b => ?_
    refine unaware_registers (fun _ => ?_) fun r q => by rw [Registers.read_withUpper r q hw]
    exact (oblivious_withFlags _).then fun _ => hdi

theorem oblivious_execute {i : Instruction} (h : i.Narrow) :
    Oblivious (execute i : Exec β Unit) := by
  -- a body is a sequence of accesses, and a narrow width keeps them off the upper halves
  cases i with
  | skip => exact oblivious_pure ()
  | undefined bytes => exact unaware_throw fun _ _ => rfl
  | arithmetic op w target source =>
    refine (oblivious_readPlace h _).then fun a => (oblivious_readSource h _).then fun b => ?_
    exact (oblivious_withFlags _).then fun v => oblivious_when (oblivious_writePlace h v target)
  | test w a b =>
    refine (oblivious_readPlace h _).then fun a => (oblivious_readSource h _).then fun b => ?_
    exact (oblivious_withFlags _).then fun _ => oblivious_pure ()
  | unary op w target => exact oblivious_unary h op target
  | accumulator op w source => exact oblivious_accumulator h op source
  | multiplyTruncated w target a b =>
    refine (oblivious_readSource h _).then fun a => (oblivious_readSource h _).then fun b => ?_
    exact oblivious_modify fun r q => r.multiplyTruncated_withUpper h q target a b
  | shift op w target count =>
    refine (oblivious_readPlace h _).then fun a => ?_
    exact (oblivious_withFlags _).then fun v => oblivious_when (oblivious_writePlace h v target)
  | move w target source =>
    exact (oblivious_readSource h _).then fun v => oblivious_writePlace h v target
  | moveExtended signed w target sourceWidth source =>
    exact (oblivious_readPlace h.2 _).then fun v => oblivious_writeRegister h.1 target _
  | exchange w a b =>
    refine (oblivious_readPlace h _).then fun v => ?_
    refine unaware_registers (fun _ => ?_) fun r q => by rw [Registers.read_withUpper r q h]
    exact (oblivious_writePlace h _ _).then fun _ => oblivious_writeRegister h b v
  | storeSegment target i =>
    refine unaware_registers (fun _ => ?_) fun r q => by rw [r.segment_withUpper]
    exact oblivious_writePlace (by decide) _ _
  | loadSegment i source =>
    refine (oblivious_readPlace (by decide) _).then fun v => ?_
    exact oblivious_modify fun r q => r.setSegment_withUpper q i _
  | loadFarPointer i target l =>
    refine (oblivious_readFarPointer l).then fun a => oblivious_modify fun r q => ?_
    rw [r.setWord_withUpper, Registers.setSegment_withUpper]
  | tableLookup i =>
    refine unaware_registers (fun _ => ?_) fun r q => by rw [r.word_withUpper, r.al_withUpper]
    refine (oblivious_readMemory _ _).then fun v => ?_
    exact oblivious_modify fun r q => r.setAl_withUpper q _
  | extendAccumulator w =>
    exact oblivious_modify (f := (·.extendAccumulator w)) (Registers.extendAccumulator_withUpper h)
  | extendDouble w =>
    exact oblivious_modify (f := (·.extendDouble w)) (Registers.extendDouble_withUpper h)
  | adjustAfterAdd | adjustAfterSub =>
    exact oblivious_modify (Registers.sparesUpper_adjustPacked _ _)
  | adjustDigitAfterAdd | adjustDigitAfterSub =>
    exact oblivious_modify (Registers.sparesUpper_adjustUnpacked _ _)
  | splitDigits base =>
    exact oblivious_replace fun r q => r.splitDigits?_withUpper q base
  | joinDigits base => exact oblivious_modify (Registers.sparesUpper_joinDigits base)
  | push w source => exact (oblivious_readSource h _).then fun v => oblivious_push w v
  | pushRegister w i =>
    refine unaware_registers (fun _ => ?_) fun r q => by
      rw [r.word_withUpper, Registers.read_withUpper r q h]
    split
    · exact oblivious_pushWord _
    · exact oblivious_push _ _
  | pop w target => exact (oblivious_pop w).then fun v => oblivious_writePlace h v target
  | pushAll w => exact oblivious_pushAll h
  | popAll w => exact oblivious_popAll h
  | pushSegment i =>
    exact unaware_registers (fun _ => oblivious_pushWord _) fun r q => by rw [r.segment_withUpper]
  | popSegment i =>
    exact oblivious_popWord.then fun v => oblivious_modify fun r q => r.setSegment_withUpper q i v
  | pushFlags => exact unaware_registers (fun _ => oblivious_pushWord _) fun _ _ => rfl
  | popFlags => exact oblivious_popWord.then fun _ => oblivious_modify fun _ _ => rfl
  | storeFlags =>
    unfold Exec.execute
    refine oblivious_modify fun r q => ?_
    rw [r.flags_withUpper, r.ah_withUpper]
    rfl
  | loadFlags =>
    unfold Exec.execute
    refine oblivious_modify fun r q => ?_
    rw [r.flags_withUpper, r.setAh_withUpper]
  | enter size level => exact oblivious_enter size level
  | leave => exact oblivious_leave
  | jumpRelative distance => exact oblivious_jumpBy distance
  | jumpIf code distance =>
    exact unaware_registers (fun _ => oblivious_when (oblivious_jumpBy distance)) fun _ _ => rfl
  | jumpIfCountZero distance =>
    exact unaware_registers (fun _ => oblivious_when (oblivious_jumpBy distance)) fun r q => by
      rw [r.word_withUpper]
  | loop condition distance =>
    exact (oblivious_loopTaken condition).then fun _ => oblivious_when (oblivious_jumpBy distance)
  | jump target => exact (oblivious_readPlace (by decide) _).then fun _ => oblivious_jumpTo _
  | jumpFar a => exact oblivious_jumpFarTo a
  | jumpFarIndirect l => exact (oblivious_readFarPointer l).then oblivious_jumpFarTo
  | callRelative distance =>
    refine unaware_registers (fun _ => ?_) fun _ _ => rfl
    exact (oblivious_pushWord _).then fun _ => oblivious_jumpBy distance
  | call target =>
    refine (oblivious_readPlace (by decide) _).then fun v => ?_
    refine unaware_registers (fun _ => ?_) fun _ _ => rfl
    exact (oblivious_pushWord _).then fun _ => oblivious_jumpTo _
  | callFar a => exact oblivious_callFar a
  | callFarIndirect l => exact (oblivious_readFarPointer l).then oblivious_callFar
  | returnNear release =>
    refine oblivious_popWord.then fun ip => ?_
    exact (oblivious_jumpTo ip).then fun _ => oblivious_releaseStack release
  | returnFar release =>
    refine oblivious_popWord.then fun ip => (oblivious_jumpTo ip).then fun _ => ?_
    refine oblivious_popWord.then fun cs => (oblivious_modify fun _ _ => rfl).then fun _ => ?_
    exact oblivious_releaseStack release
  | interrupt vector => exact oblivious_enterVector vector
  | interruptOnOverflow =>
    exact unaware_registers (fun _ => oblivious_when (oblivious_enterVector 4)) fun _ _ => rfl
  | returnInterrupt =>
    refine oblivious_popWord.then fun ip => (oblivious_jumpTo ip).then fun _ => ?_
    refine oblivious_popWord.then fun cs => (oblivious_modify fun _ _ => rfl).then fun _ => ?_
    exact oblivious_popWord.then fun _ => oblivious_modify fun _ _ => rfl
  | input w port => exact (oblivious_onBus _).then fun v => oblivious_writeRegister h .ax v
  | output w port =>
    exact unaware_registers (fun _ => oblivious_onBus _) fun r q => by
      rw [Registers.read_withUpper r q h]
  | string op w => exact (oblivious_element h op).then fun _ => oblivious_finishElement
  | setIf code target =>
    exact unaware_registers (fun _ => oblivious_writePlace (by decide) _ _) fun _ _ => rfl
  | changeFlag change => exact oblivious_changeFlag change
  | halt =>
    change Oblivious (modifyCpu fun c => { c with halted := true })
    exact oblivious_modifyCpu (fun _ _ => rfl) fun _ h => h

end Instructions

end Pc8086.Cpu

import Pc8086.Proofs.Cpu.Parts

/-!
Computations that know the bus by its accesses alone. The same computation on two buses is told by
how it is built; what every access and every change of the processor preserves, it preserves. Which
changes there are to the processor is a parameter.
-/

namespace Pc8086.Cpu

/-- The changes that instructions make to the processor: at most the latch is emptied, as interrupts
are turned on, and at most the processor is halted. -/
inductive Change : (Cpu → Cpu) → Prop where
  | ordinary (r : Cpu → Registers) (p : Cpu → Prefixes) :
    Change fun c => { c with registers := r c, prefixes := p c }
  | enable (r : Cpu → Registers) :
    Change fun c =>
      if c.registers.flags.interrupt then { c with registers := r c }
      else { c with registers := r c, latch := .idle }
  | halt : Change fun c => { c with halted := true }

/-- The changes `C` include all that leave the prefixes alone. -/
class Admits (C : (Cpu → Cpu) → Prop) : Prop where
  registers (r : Cpu → Registers) : C fun c => { c with registers := r c }
  enable (r : Cpu → Registers) :
    C fun c =>
      if c.registers.flags.interrupt then { c with registers := r c }
      else { c with registers := r c, latch := .idle }
  halt : C fun c => { c with halted := true }

instance : Admits Change where
  registers r := .ordinary r Cpu.prefixes
  enable := .enable
  halt := .halt

open Exec

/-- One computation on two buses, built alike from accesses and the changes `C`. -/
inductive Uniform (C : (Cpu → Cpu) → Prop) (β γ : Type) [Bus β] [Bus γ] :
    {α : Type} → Exec β α → Exec γ α → Prop where
  | pure {α : Type} (a : α) : Uniform C β γ (pure a) (pure a)
  | bind {α α' : Type} {x : Exec β α} {y : Exec γ α} {f : α → Exec β α'} {g : α → Exec γ α'}
    (hx : Uniform C β γ x y) (hf : ∀ a, Uniform C β γ (f a) (g a)) :
    Uniform C β γ (x >>= f) (y >>= g)
  | throw {α : Type} (e : Fault) : Uniform (α := α) C β γ (throw e) (throw e)
  | view {α : Type} (f : Cpu → α) :
    Uniform C β γ (fun s => .ok (f s.cpu) s) (fun s => .ok (f s.cpu) s)
  | change {f : Cpu → Cpu} (hf : C f) : Uniform C β γ (modifyCpu f) (modifyCpu f)
  | readByte (a : UInt32) : Uniform C β γ (onBus (Bus.readByte a)) (onBus (Bus.readByte a))
  | writeByte (a : UInt32) (v : UInt8) :
    Uniform C β γ (onBus (Bus.writeByte a v)) (onBus (Bus.writeByte a v))
  | input (w : Width) (port : UInt16) :
    Uniform C β γ (onBus (Bus.input w port)) (onBus (Bus.input w port))
  | output (w : Width) (port : UInt16) (v : UInt32) :
    Uniform C β γ (onBus (Bus.output w port v)) (onBus (Bus.output w port v))

section Simulation

variable {C : (Cpu → Cpu) → Prop} {β γ α : Type}

inductive Agree (R : System β → System γ → Prop) :
    EStateM.Result Fault (System β) α → EStateM.Result Fault (System γ) α → Prop where
  | ok (a : α) {s : System β} {t : System γ} (h : R s t) : Agree R (.ok a s) (.ok a t)
  | error (e : Fault) {s : System β} {t : System γ} (h : R s t) :
    Agree R (.error e s) (.error e t)

theorem Agree.bind {α' : Type} {R : System β → System γ → Prop} {x : Exec β α} {y : Exec γ α}
    {f : α → Exec β α'} {g : α → Exec γ α'} {s : System β} {t : System γ}
    (hx : Agree R (x s) (y t)) (hf : ∀ a s t, R s t → Agree R (f a s) (g a t)) :
    Agree R ((x >>= f) s) ((y >>= g) t) := by
  generalize hp : x s = p at hx
  generalize hq : y t = q at hx
  cases hx with
  | ok a h =>
    rw [bind_ok f hp, bind_ok g hq]
    exact hf a _ _ h
  | error e h =>
    rw [bind_error f hp, bind_error g hq]
    exact .error e h

variable [Bus β] [Bus γ]

structure Simulation (C : (Cpu → Cpu) → Prop) (R : System β → System γ → Prop) : Prop where
  cpu {s t} (h : R s t) : s.cpu = t.cpu
  change {f s t} (hf : C f) (h : R s t) :
    R { s with cpu := f s.cpu } { t with cpu := f t.cpu }
  readByte {s t} (a : UInt32) (h : R s t) :
    Agree R (onBus (Bus.readByte a) s) (onBus (Bus.readByte a) t)
  writeByte {s t} (a : UInt32) (v : UInt8) (h : R s t) :
    Agree R (onBus (Bus.writeByte a v) s) (onBus (Bus.writeByte a v) t)
  input {s t} (w : Width) (port : UInt16) (h : R s t) :
    Agree R (onBus (Bus.input w port) s) (onBus (Bus.input w port) t)
  output {s t} (w : Width) (port : UInt16) (v : UInt32) (h : R s t) :
    Agree R (onBus (Bus.output w port v) s) (onBus (Bus.output w port v) t)

theorem Uniform.simulates {R : System β → System γ → Prop} (hR : Simulation C R) {x : Exec β α}
    {y : Exec γ α} (hxy : Uniform C β γ x y) {s : System β} {t : System γ} (h : R s t) :
    Agree R (x s) (y t) := by
  induction hxy generalizing s t with
  | pure a => exact .ok a h
  | bind _ _ ihx ihf => exact Agree.bind (ihx h) fun a _ _ h => ihf a h
  | throw e => exact .error e h
  | view f =>
    change Agree R (.ok (f s.cpu) s) (.ok (f t.cpu) t)
    rw [hR.cpu h]
    exact .ok _ h
  | change hf => exact .ok () (hR.change hf h)
  | readByte a => exact hR.readByte a h
  | writeByte a v => exact hR.writeByte a v h
  | input w port => exact hR.input w port h
  | output w port v => exact hR.output w port v h

end Simulation

section Invariant

variable {C : (Cpu → Cpu) → Prop} {β α : Type}

theorem agree_final {I : System β → Prop} {p : EStateM.Result Fault (System β) α}
    (h : I (final p)) : Agree (fun s t => s = t ∧ I s) p p := by
  cases p with
  | ok a s => exact .ok a ⟨rfl, h⟩
  | error e s => exact .error e ⟨rfl, h⟩

variable [Bus β]

structure Invariant (C : (Cpu → Cpu) → Prop) (I : System β → Prop) : Prop where
  change {f s} (hf : C f) (h : I s) : I { s with cpu := f s.cpu }
  readByte {s} (a : UInt32) (h : I s) : I (final (onBus (Bus.readByte a) s))
  writeByte {s} (a : UInt32) (v : UInt8) (h : I s) : I (final (onBus (Bus.writeByte a v) s))
  input {s} (w : Width) (port : UInt16) (h : I s) : I (final (onBus (Bus.input w port) s))
  output {s} (w : Width) (port : UInt16) (v : UInt32) (h : I s) :
    I (final (onBus (Bus.output w port v) s))

/-- What holds of the processor alone is safe from accesses. -/
theorem invariant_of_cpu {P : Cpu → Prop} (hc : ∀ f c, C f → P c → P (f c)) :
    Invariant C fun s : System β => P s.cpu where
  change hf h := hc _ _ hf h
  readByte a h := by rwa [final_onBus_cpu]
  writeByte a v h := by rwa [final_onBus_cpu]
  input w port h := by rwa [final_onBus_cpu]
  output w port v h := by rwa [final_onBus_cpu]

theorem Invariant.simulation {I : System β → Prop} (hI : Invariant C I) :
    Simulation C fun s t => s = t ∧ I s where
  cpu := by
    rintro s _ ⟨rfl, -⟩
    rfl
  change := by
    rintro f s _ hf ⟨rfl, h⟩
    exact ⟨rfl, hI.change hf h⟩
  readByte := by
    rintro s _ a ⟨rfl, h⟩
    exact agree_final (hI.readByte a h)
  writeByte := by
    rintro s _ a v ⟨rfl, h⟩
    exact agree_final (hI.writeByte a v h)
  input := by
    rintro s _ w port ⟨rfl, h⟩
    exact agree_final (hI.input w port h)
  output := by
    rintro s _ w port v ⟨rfl, h⟩
    exact agree_final (hI.output w port v h)

theorem Uniform.preserves {I : System β → Prop} (hI : Invariant C I) {x : Exec β α}
    (hx : Uniform C β β x x) {s : System β} (h : I s) : I (final (x s)) := by
  have ha := hx.simulates hI.simulation (s := s) (t := s) ⟨rfl, h⟩
  generalize x s = p at ha
  cases ha with
  | ok a h => exact h.2
  | error e h => exact h.2

end Invariant

namespace Exec

variable {C : (Cpu → Cpu) → Prop} {β γ : Type} [Bus β] [Bus γ]

theorem uniform_cpu : Uniform C β γ cpu cpu :=
  .view id

theorem uniform_operandSegment (i : Segment) :
    Uniform C β γ (operandSegment i) (operandSegment i) :=
  .view fun c => c.prefixes.segmentOr i

theorem uniform_accessing : Accessing fun α => Uniform C β γ (α := α) where
  pure := .pure
  bind := .bind
  registers := .view Cpu.registers
  readByte a _ := .readByte a
  writeByte a _ v := .writeByte a v
  input := .input
  output := .output

variable [Admits C]

theorem uniform_working : Working fun α => Uniform C β γ (α := α) where
  toAccessing := uniform_accessing
  modify f := .change (Admits.registers fun c => f c.registers)

theorem uniform_fetchByte : Uniform C β γ fetchByte fetchByte :=
  .bind uniform_cpu fun _ => .bind (.readByte _) fun b =>
    .bind (uniform_working.modify _) fun _ => .pure b

theorem uniform_decoding : Decoding fun α => Uniform C β γ (α := α) where
  toClosed := uniform_working.toClosed
  operandSegment := uniform_operandSegment
  currentWidth := .view fun c => c.prefixes.operandWidth
  fetchByte := uniform_fetchByte

theorem uniform_enterVector (vector : UInt8) :
    Uniform C β γ (enterVector vector) (enterVector vector) :=
  uniform_working.enterVector vector

theorem uniform_enterVectorIf (on : Bool) (vector : UInt8) :
    Uniform C β γ (if on then enterVector vector else pure ())
      (if on then enterVector vector else pure ()) :=
  uniform_working.enterVectorIf on vector

end Exec

end Pc8086.Cpu

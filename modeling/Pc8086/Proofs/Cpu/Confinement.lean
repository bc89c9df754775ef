import Pc8086.Proofs.Cpu.InstructionParts

namespace Pc8086

section Results

variable {σ α α' : Type} {I : σ → Prop} {E E' : Fault → Prop}

/-- The outcome is a state with `I`, reached by a result or by one of the faults `E`. -/
inductive Confined (I : σ → Prop) (E : Fault → Prop) : EStateM.Result Fault σ α → Prop where
  | ok (a : α) {s : σ} (h : I s) : Confined I E (.ok a s)
  | error {f : Fault} (hf : E f) {s : σ} (h : I s) : Confined I E (.error f s)

def Confines (I : σ → Prop) (E : Fault → Prop) (x : EStateM Fault σ α) : Prop :=
  ∀ s, I s → Confined I E (x s)

theorem Confines.bind {x : EStateM Fault σ α} {f : α → EStateM Fault σ α'} (hx : Confines I E x)
    (hf : ∀ a, Confines I E (f a)) : Confines I E (x >>= f) := by
  intro s h
  have hs := hx s h
  change Confined I E (EStateM.bind x f s)
  unfold EStateM.bind
  generalize x s = p at hs
  cases hs with
  | ok a h => exact hf a _ h
  | error he h => exact .error he h

theorem confines_modifyGet {f : σ → α × σ} (hf : ∀ s, I s → I (f s).2) :
    Confines I E (modifyGet f : EStateM Fault σ α) :=
  fun s h => .ok _ (hf s h)

theorem Confines.fault {x : EStateM Fault σ α} (hx : Confines I E x) {s t : σ} {f : Fault}
    (hs : x s = .error f t) (h : I s) : E f := by
  have hc := hx s h
  rw [hs] at hc
  cases hc with
  | error he _ => exact he

theorem Confines.holds {x : EStateM Fault σ α} (hx : Confines I E x) {s t : σ} {a : α}
    (hs : x s = .ok a t) (h : I s) : I t := by
  have hc := hx s h
  rw [hs] at hc
  cases hc with
  | ok _ h => exact h

theorem Confines.holds_of_error {x : EStateM Fault σ α} (hx : Confines I E x) {s t : σ} {f : Fault}
    (hs : x s = .error f t) (h : I s) : I t := by
  have hc := hx s h
  rw [hs] at hc
  cases hc with
  | error _ h => exact h

end Results

structure Serves (β : Type) [Bus β] (I : β → Prop) (E : Fault → Prop) : Prop where
  readByte (a : UInt32) (h : a.toNat < 0x100000) :
    Confines I E (Bus.readByte a : EStateM Fault β UInt8)
  writeByte (a : UInt32) (h : a.toNat < 0x100000) (v : UInt8) :
    Confines I E (Bus.writeByte a v : EStateM Fault β Unit)
  input (w : Width) (port : UInt16) : Confines I E (Bus.input w port : EStateM Fault β UInt32)
  output (w : Width) (port : UInt16) (v : UInt32) :
    Confines I E (Bus.output w port v : EStateM Fault β Unit)

namespace Cpu.Exec

variable {β α : Type} {I : β → Prop} {E : Fault → Prop}

abbrev Contains (I : β → Prop) (E : Fault → Prop) (x : Exec β α) : Prop :=
  Confines (fun s => I s.bus) E x

theorem contains_onBus {x : EStateM Fault β α} (hx : Confines I E x) : Contains I E (onBus x) := by
  intro s h
  have hb := hx s.bus h
  unfold onBus
  dsimp only
  generalize x s.bus = p at hb
  cases hb with
  | ok a h => exact .ok a h
  | error he h => exact .error he h

theorem contains_throw {f : Cpu → Fault} (hf : ∀ c, E (f c)) :
    Contains I E (do throw (f (← cpu)) : Exec β α) :=
  fun s h => .error (hf s.cpu) h

theorem contains_modifyCpu (f : Cpu → Cpu) : Contains I E (modifyCpu f) :=
  fun _ h => .ok () h

variable [Bus β]

theorem contains_working (hβ : Serves β I E) :
    Working fun _ (x _ : Exec β _) => Contains I E x where
  pure a _ h := .ok a h
  bind := .bind
  registers _ h := .ok _ h
  readByte a ha := contains_onBus (hβ.readByte a ha)
  writeByte a ha v := contains_onBus (hβ.writeByte a ha v)
  input w port := contains_onBus (hβ.input w port)
  output w port v := contains_onBus (hβ.output w port v)
  modify _ := contains_modifyCpu _

theorem contains_decoding (hβ : Serves β I E) :
    Decoding fun _ (x _ : Exec β _) => Contains I E x where
  toClosed := (contains_working hβ).toClosed
  operandSegment _ _ h := .ok _ h
  currentWidth _ h := .ok _ h
  fetchByte := by
    refine .bind (fun _ h => .ok _ h) fun c => .bind ?_ fun b => ?_
    · exact contains_onBus (hβ.readByte _ (linear_lt ..))
    · exact .bind ((contains_working hβ).jumpBy 1) fun _ _ h => .ok b h

theorem contains_prefixing (hβ : Serves β I E) :
    Prefixing fun _ (x _ : Exec β _) => Contains I E x where
  toDecoding := contains_decoding hβ
  readByte a ha := contains_onBus (hβ.readByte a ha)
  record _ := contains_modifyCpu _

theorem contains_fetching (hβ : Serves β I E) (he : ∀ a, E (.endlessPrefixes a)) :
    Fetching fun _ (x _ : Exec β _) => Contains I E x where
  toPrefixing := contains_prefixing hβ
  endless := contains_throw fun _ => he _

theorem contains_performing (hβ : Serves β I E) {i : Instruction}
    (hu : ∀ bytes, i = .undefined bytes → ∀ bytes a n, E (.illegalInstruction bytes a n))
    (hd : i.Divides → ∀ a, E (.divideError a)) :
    Performing (fun _ (x _ : Exec β _) => Contains I E x) i where
  toWorking := contains_working hβ
  undefined bytes h := contains_throw fun _ => hu bytes h _ _ _
  divide h := contains_throw fun _ => hd h _
  string _ _ _ := ⟨fun _ h => .ok _ h, contains_modifyCpu _⟩
  enable _ := contains_modifyCpu _
  halt _ := contains_modifyCpu _

end Cpu.Exec

end Pc8086

import Pc8086.Proofs.Board.Ports

namespace Pc8086.Board

variable {δ α α' : Type}

def withMemory (b : Board δ) (m : Memory) : Board δ :=
  { b with memory := m }

/-- The same result or the same fault, on boards with the memories `m₀` and `m`. -/
inductive Aside (m₀ m : Memory) :
    EStateM.Result Fault (Board δ) α → EStateM.Result Fault (Board δ) α → Prop where
  | ok (a : α) {b : Board δ} (h : b.memory = m₀) : Aside m₀ m (.ok a b) (.ok a (b.withMemory m))
  | error (f : Fault) {b : Board δ} (h : b.memory = m₀) :
    Aside m₀ m (.error f b) (.error f (b.withMemory m))

/-- The access keeps the memory and takes no account of it. -/
def Blind (x : EStateM Fault (Board δ) α) : Prop :=
  ∀ b m, Aside b.memory m (x b) (x (b.withMemory m))

theorem blind_pure (a : α) : Blind (pure a : EStateM Fault (Board δ) α) :=
  fun _ _ => .ok a rfl

theorem Blind.bind {x : EStateM Fault (Board δ) α} {f : α → EStateM Fault (Board δ) α'}
    (hx : Blind x) (hf : ∀ a, Blind (f a)) : Blind (x >>= f) := by
  intro b m
  have h := hx b m
  change Aside _ _ (EStateM.bind x f b) (EStateM.bind x f (b.withMemory m))
  unfold EStateM.bind
  generalize x b = p at h
  generalize x (b.withMemory m) = q at h
  cases h with
  | ok a h =>
    rw [← h]
    exact hf a _ m
  | error e h => exact .error e h

theorem blind_modifyGet {f : Board δ → α × Board δ}
    (hf : ∀ b m, f (b.withMemory m) = ((f b).1, (f b).2.withMemory m)) :
    Blind (modifyGet f : EStateM Fault (Board δ) α) := by
  intro b m
  have hkept : (f b).2.memory = b.memory := by
    have h := hf b b.memory
    rw [show b.withMemory b.memory = b from rfl] at h
    exact congrArg (fun p => p.2.memory) h
  change Aside _ _ (.ok (f b).1 (f b).2) (.ok (f (b.withMemory m)).1 (f (b.withMemory m)).2)
  rw [hf]
  exact .ok _ hkept

theorem blind_get {f : Board δ → EStateM Fault (Board δ) α} (hf : ∀ b, Blind (f b))
    (hm : ∀ b m, f (b.withMemory m) = f b) : Blind (get >>= f) := by
  intro b m
  change Aside _ _ (f b b) (f (b.withMemory m) (b.withMemory m))
  rw [hm]
  exact hf b b m

theorem atComponent_withMemory (f : Component δ → α × Component δ) (i : Nat) (absent : α)
    (b : Board δ) (m : Memory) :
    (b.withMemory m).atComponent i f absent =
      ((b.atComponent i f absent).1, (b.atComponent i f absent).2.withMemory m) := by
  have hc : (b.withMemory m).components = b.components := rfl
  unfold atComponent
  rw [hc]
  cases b.components[i]? <;> rfl

theorem blind_unknownPort (port : UInt16) (w : Width) :
    Blind (unknownPort port w : EStateM Fault (Board δ) UInt32) := by
  intro b m
  unfold unknownPort
  change Aside _ _ _ (if b.ignoreUnknownPorts then _ else _)
  cases b.ignoreUnknownPorts
  · exact .error _ rfl
  · exact .ok _ rfl

theorem blind_ports [Peripheral δ] :
    PortAccess (fun _ _ => True) fun _ (x : EStateM Fault (Board δ) _) => Blind x where
  pure := blind_pure
  bind := .bind
  look _ hf ho := blind_get hf fun b m => ho (b.withMemory m) b rfl
  unknownPort := blind_unknownPort
  readOwned port := blind_modifyGet fun b m => by
    have ho : (b.withMemory m).ownerOf port = b.ownerOf port := rfl
    unfold readOwned
    rw [ho]
    rcases b.ownerOf port with _ | _ | i
    · rfl
    · rfl
    · exact atComponent_withMemory _ i none b m
  writeOwned port v _ := blind_modifyGet fun b m => by
    have ho : (b.withMemory m).ownerOf port = b.ownerOf port := rfl
    unfold writeOwned
    rw [ho]
    rcases b.ownerOf port with _ | _ | i
    · rfl
    · rfl
    · exact atComponent_withMemory _ i false b m
  readWord _ i := blind_modifyGet (atComponent_withMemory _ i none)
  writeWord _ _ i := blind_modifyGet (atComponent_withMemory _ i false)

end Pc8086.Board

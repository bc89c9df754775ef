import Pc8086.Proofs.Board.Ports

namespace Pc8086.Board

open Interrupt (Controller)

variable {δ α α' : Type}

/-- The places of the timers, the owners of the ports and what becomes of the others. -/
structure Arrangement where
  timers : List Bool
  owners : List (UInt16 × PortOwner)
  ignoreUnknownPorts : Bool

def arrangement (b : Board δ) : Arrangement where
  timers := b.components.map fun c => c.timer?.isSome
  owners := b.owners
  ignoreUnknownPorts := b.ignoreUnknownPorts

def withStop (b : Board δ) (stop : Bool) : Board δ :=
  { b with stopRequested := stop }

/-- The same result or the same fault, on boards of the arrangement `σ` that differ at most in the
stop request. -/
inductive Alike (σ : Arrangement) (stop : Bool) :
    EStateM.Result Fault (Board δ) α → EStateM.Result Fault (Board δ) α → Prop where
  | ok (a : α) {b : Board δ} (h : b.arrangement = σ) :
    Alike σ stop (.ok a b) (.ok a (b.withStop stop))
  | error (f : Fault) {b : Board δ} (h : b.arrangement = σ) :
    Alike σ stop (.error f b) (.error f (b.withStop stop))

/-- The access keeps the arrangement and takes no account of a stop request. -/
def Plain (x : EStateM Fault (Board δ) α) : Prop :=
  ∀ b stop, Alike b.arrangement stop (x b) (x (b.withStop stop))

theorem plain_pure (a : α) : Plain (pure a : EStateM Fault (Board δ) α) :=
  fun _ _ => .ok a rfl

theorem Plain.bind {x : EStateM Fault (Board δ) α} {f : α → EStateM Fault (Board δ) α'}
    (hx : Plain x) (hf : ∀ a, Plain (f a)) : Plain (x >>= f) := by
  intro b stop
  have h := hx b stop
  change Alike _ _ (EStateM.bind x f b) (EStateM.bind x f (b.withStop stop))
  unfold EStateM.bind
  generalize x b = p at h
  generalize x (b.withStop stop) = q at h
  cases h with
  | ok a h =>
    rw [← h]
    exact hf a _ stop
  | error e h => exact .error e h

structure Mild (f : Board δ → α × Board δ) : Prop where
  stop : ∀ b stop, f (b.withStop stop) = ((f b).1, (f b).2.withStop stop)
  arrangement : ∀ b, (f b).2.arrangement = b.arrangement

theorem Mild.plain {f : Board δ → α × Board δ} (hf : Mild f) :
    Plain (modifyGet f : EStateM Fault (Board δ) α) := by
  intro b stop
  change Alike _ _ (.ok (f b).1 (f b).2) (.ok (f (b.withStop stop)).1 (f (b.withStop stop)).2)
  rw [hf.stop]
  exact .ok _ (hf.arrangement b)

theorem plain_get {f : Board δ → EStateM Fault (Board δ) α} (hf : ∀ b, Plain (f b))
    (hs : ∀ b stop, f (b.withStop stop) = f b) : Plain (get >>= f) := by
  intro b stop
  change Alike _ _ (f b b) (f (b.withStop stop) (b.withStop stop))
  rw [hs]
  exact hf b b stop

theorem set_timers {cs : List (Component δ)} {i : Nat} {c d : Component δ} (hc : cs[i]? = some c)
    (hd : d.timer?.isSome = c.timer?.isSome) :
    (cs.set i d).map (fun c => c.timer?.isSome) = cs.map fun c => c.timer?.isSome := by
  obtain ⟨hi, rfl⟩ := List.getElem?_eq_some_iff.1 hc
  have hlen : i < (cs.map fun c => c.timer?.isSome).length := by rwa [List.length_map]
  have hself := List.set_getElem_self hlen
  rw [List.getElem_map] at hself
  rw [List.map_set, hd, hself]

def KeepsKind (f : Component δ → α × Component δ) : Prop :=
  ∀ c, (f c).2.timer?.isSome = c.timer?.isSome

theorem mild_atComponent {f : Component δ → α × Component δ} (hf : KeepsKind f) (i : Nat)
    (absent : α) : Mild fun b : Board δ => b.atComponent i f absent where
  stop b stop := by
    change atComponent { b with stopRequested := stop } i f absent = _
    unfold atComponent
    dsimp only
    cases b.components[i]? <;> rfl
  arrangement b := by
    unfold atComponent
    cases hc : b.components[i]? with
    | none => rfl
    | some c =>
      exact congrArg (Arrangement.mk · b.owners b.ignoreUnknownPorts) (set_timers hc (hf c))

theorem plain_unknownPort (port : UInt16) (w : Width) :
    Plain (unknownPort port w : EStateM Fault (Board δ) UInt32) := by
  intro b stop
  unfold unknownPort
  change Alike _ _ _ (if b.ignoreUnknownPorts then _ else _)
  cases b.ignoreUnknownPorts
  · exact .error _ rfl
  · exact .ok _ rfl

section Ports

variable [Peripheral δ]

theorem keepsKind_readByte (port : UInt16) :
    KeepsKind (Peripheral.readByte port : Component δ → Option UInt8 × Component δ) := by
  rintro (t | d) <;> rfl

theorem keepsKind_writeByte (port : UInt16) (v : UInt8) :
    KeepsKind (Peripheral.writeByte port v : Component δ → Bool × Component δ) := by
  rintro (t | d) <;> rfl

theorem keepsKind_readWord (port : UInt16) :
    KeepsKind (Peripheral.readWord port : Component δ → Option UInt16 × Component δ) := by
  rintro (t | d) <;> rfl

theorem keepsKind_writeWord (port : UInt16) (v : UInt16) :
    KeepsKind (Peripheral.writeWord port v : Component δ → Bool × Component δ) := by
  rintro (t | d) <;> rfl

theorem mild_readOwned (port : UInt16) : Mild (readOwned port : Board δ → _) where
  stop b stop := by
    have ho : (b.withStop stop).ownerOf port = b.ownerOf port := rfl
    unfold readOwned
    rw [ho]
    rcases b.ownerOf port with _ | _ | i
    · rfl
    · rfl
    · exact (mild_atComponent (keepsKind_readByte port) i none).stop b stop
  arrangement b := by
    unfold readOwned
    rcases b.ownerOf port with _ | _ | i
    · rfl
    · rfl
    · exact (mild_atComponent (keepsKind_readByte port) i none).arrangement b

theorem mild_writeOwned (port : UInt16) (v : UInt8) : Mild (writeOwned port v : Board δ → _) where
  stop b stop := by
    have ho : (b.withStop stop).ownerOf port = b.ownerOf port := rfl
    unfold writeOwned
    rw [ho]
    rcases b.ownerOf port with _ | _ | i
    · rfl
    · rfl
    · exact (mild_atComponent (keepsKind_writeByte port v) i false).stop b stop
  arrangement b := by
    unfold writeOwned
    rcases b.ownerOf port with _ | _ | i
    · rfl
    · rfl
    · exact (mild_atComponent (keepsKind_writeByte port v) i false).arrangement b

theorem plain_ports :
    PortAccess (fun _ _ => True) fun _ (x : EStateM Fault (Board δ) _) => Plain x where
  pure := plain_pure
  bind := .bind
  look _ hf ho := plain_get hf fun _ _ => ho _ _ rfl
  unknownPort := plain_unknownPort
  readOwned port := (mild_readOwned port).plain
  writeOwned port v _ := (mild_writeOwned port v).plain
  readWord port i := (mild_atComponent (keepsKind_readWord port) i none).plain
  writeWord port v i := (mild_atComponent (keepsKind_writeWord port v) i false).plain

end Ports

section Bus

variable [Peripheral δ]

theorem plain_busReadByte (a : UInt32) : Plain (Bus.readByte a : EStateM Fault (Board δ) _) := by
  intro b stop
  have hm : (b.withStop stop).memory = b.memory := rfl
  dsimp only [Bus.readByte]
  rw [hm]
  cases b.memory.readByte a with
  | ok v => exact .ok v rfl
  | error f => exact .error f rfl

theorem plain_busWriteByte (a : UInt32) (v : UInt8) :
    Plain (Bus.writeByte a v : EStateM Fault (Board δ) _) := by
  intro b stop
  have hm : (b.withStop stop).memory = b.memory := rfl
  dsimp only [Bus.writeByte]
  rw [hm]
  rcases b.memory.writeByte a v with ⟨_ | _, m⟩
  · exact .error _ rfl
  · exact .ok () rfl

theorem clockPulse_withStop (b : Board δ) (stop : Bool) :
    ∃ stop', (b.withStop stop).clockPulse = b.clockPulse.withStop stop' :=
  ⟨stop || (clockComponents b.components b.controller).stop, rfl⟩

theorem clockComponents_timers (cs : List (Component δ)) (c : Controller) :
    (clockComponents cs c).device.map (fun c => c.timer?.isSome) =
      cs.map fun c => c.timer?.isSome := by
  induction cs generalizing c with
  | nil => rfl
  | cons x cs ih =>
    have hx : (Peripheral.clock x c).device.timer?.isSome = x.timer?.isSome := by
      cases x <;> rfl
    rw [clockComponents, List.map_cons, List.map_cons, hx, ih]

theorem clockPulse_arrangement (b : Board δ) : b.clockPulse.arrangement = b.arrangement :=
  congrArg (Arrangement.mk · b.owners b.ignoreUnknownPorts)
    (clockComponents_timers b.components b.controller)

end Bus

end Pc8086.Board

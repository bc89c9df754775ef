import Pc8086.Proofs.Board.Arrangement
import Pc8086.Proofs.Board.TimerInterrupt
import Pc8086.Proofs.Interrupt.Ownership

namespace Pc8086.Board

open Interrupt (Controller Device LineError)
open Interrupt.Controller (SameButLine)

variable {δ : Type}

theorem lookup_newOwners (ports : List UInt16) (o : PortOwner) (owners : List (UInt16 × PortOwner))
    (p : UInt16) :
    (ports.map (fun q => (q, o)) ++ owners).lookup p =
      if p ∈ ports then some o else owners.lookup p := by
  induction ports with
  | nil => rfl
  | cons q ports ih =>
    rw [List.map_cons, List.cons_append, List.lookup_cons, ih]
    by_cases hp : p = q
    · simp [hp]
    · simp [hp, beq_false_of_ne hp]

/-- What becomes of the controller when a device, if it is of a kind that needs a line, gets one. -/
inductive Grants (c : Controller) : Option Device → Option UInt8 → Controller → Prop where
  | none : Grants c none none c
  | some {device : Device} {line : UInt8} (before : c.registry.owner line = none)
    (after : (c.perform (.request device)).registry.owner line = some device)
    (others : SameButLine line c (c.perform (.request device))) :
    Grants c (some device) (some line) (c.perform (.request device))

theorem grants_request {c : Controller} {device : Device} {line : UInt8}
    (h : (c.requestIrq device).1 = .ok line) :
    Grants c (some device) (some line) (c.perform (.request device)) := by
  obtain ⟨hset, hline⟩ := Interrupt.Registry.request_of_ok h
  have hvacant := Interrupt.Registry.isVacant_of_vacantLine hline
  have hin := Interrupt.Registry.index_lt_of_isVacant hvacant
  refine .some ((Interrupt.Registry.isVacant_iff hin).1 hvacant) ?_ ?_
  · change (c.registry.request device).2.owner line = _
    rw [hset]
    unfold Interrupt.Registry.owner
    rw [Interrupt.Registry.assignment_set_self _ hin]
    rfl
  · exact Controller.perform_sameButLine (congrArg Except.toOption h)

section Install

variable [Peripheral δ] {b : Board δ} {x : Component δ} {line : Option UInt8}

def wired (line : Option UInt8) (x : Component δ) : Component δ :=
  match line with
  | some line => Peripheral.attachIrq line x
  | none => x

/-- The component is installed: it owns all its ports, which nobody did before, and has the line
that it needs. -/
structure Installed (b : Board δ) (x : Component δ) (line : Option UInt8) (b' : Board δ) :
    Prop where
  free : ∀ p ∈ Peripheral.ports x, b.ownerOf p = none
  ports : ∀ p, b'.ownerOf p =
    if p ∈ Peripheral.ports x then some (.component b.components.length) else b.ownerOf p
  components : b'.components = b.components ++ [wired line x]
  line : Grants b.controller (Peripheral.kind x) line b'.controller
  rest : { b' with
    controller := b.controller
    components := b.components
    owners := b.owners } = b

inductive Denied (b : Board δ) (x : Component δ) : AttachError → Prop where
  /-- The first of its ports that is owned, and by whom. -/
  | portOwned {before after : List UInt16} {p : UInt16} {o : PortOwner}
    (ports : Peripheral.ports x = before ++ p :: after) (free : ∀ q ∈ before, b.ownerOf q = none)
    (owned : b.ownerOf p = some o) : Denied b x (.portOwned p (b.ownerName o))
  | noLine {device : Device} (free : ∀ p ∈ Peripheral.ports x, b.ownerOf p = none)
    (kind : Peripheral.kind x = some device)
    (taken : ∀ line ∈ device.lines, ¬b.controller.registry.isVacant line) :
    Denied b x (.noLine (.unavailable device))

def newOwners (b : Board δ) (x : Component δ) : List (UInt16 × PortOwner) :=
  (Peripheral.ports x).map fun p => (p, .component b.components.length)

def placed (b : Board δ) (x : Component δ) (line : Option UInt8) (c : Controller) : Board δ :=
  { b with
    controller := c
    components := b.components ++ [wired line x]
    owners := b.newOwners x ++ b.owners }

theorem installed_placed {c : Controller} (hfree : ∀ p ∈ Peripheral.ports x, b.ownerOf p = none)
    (hline : Grants b.controller (Peripheral.kind x) line c) :
    b.Installed x line (b.placed x line c) where
  free := hfree
  ports := lookup_newOwners _ _ _
  components := rfl
  line := hline
  rest := rfl

omit [Peripheral δ] in
theorem find?_owned_eq_none {ports : List UInt16} :
    (ports.find? fun p => (b.ownerOf p).isSome) = none ↔ ∀ p ∈ ports, b.ownerOf p = none := by
  simp

theorem install_of_portOwned {before after : List UInt16} {p : UInt16} {o : PortOwner}
    (hports : Peripheral.ports x = before ++ p :: after)
    (hfree : ∀ q ∈ before, b.ownerOf q = none) (howned : b.ownerOf p = some o) :
    b.install x = (.error (.portOwned p (b.ownerName o)), b) := by
  have hfind : (Peripheral.ports x).find? (fun q => (b.ownerOf q).isSome) = some p := by
    rw [List.find?_eq_some_iff_append]
    refine ⟨by rw [howned]; rfl, before, after, hports, fun q hq => ?_⟩
    rw [hfree q hq]
    rfl
  have hname : b.portOwnerName p = some (b.ownerName o) := congrArg (Option.map b.ownerName) howned
  unfold install
  simp only [hfind, hname, Option.getD_some]

theorem install_of_kind_eq_none (hfree : ∀ p ∈ Peripheral.ports x, b.ownerOf p = none)
    (hkind : Peripheral.kind x = none) :
    b.install x = (.ok none, b.placed x none b.controller) := by
  unfold install
  simp only [find?_owned_eq_none.2 hfree, hkind]
  rfl

theorem install_of_kind_eq_some {device : Device}
    (hfree : ∀ p ∈ Peripheral.ports x, b.ownerOf p = none)
    (hkind : Peripheral.kind x = some device) :
    b.install x = match (b.controller.requestIrq device).1 with
      | .ok line =>
        (.ok (some line), b.placed x (some line) (b.controller.perform (.request device)))
      | .error e =>
        (.error (.noLine e), { b with controller := b.controller.perform (.request device) }) := by
  unfold install
  simp only [find?_owned_eq_none.2 hfree, hkind, Controller.perform]
  rcases b.controller.requestIrq device with ⟨_ | line, c⟩ <;> rfl

theorem install_of_denied {e : AttachError} (h : b.Denied x e) : b.install x = (.error e, b) := by
  cases h with
  | portOwned hports hfree howned => exact install_of_portOwned hports hfree howned
  | @noLine device hfree hkind htaken =>
    rw [← List.find?_eq_none, ← Interrupt.Registry.vacantLine_eq] at htaken
    have hrefused : (b.controller.requestIrq device).1 = .error (.unavailable device) := by
      unfold Controller.requestIrq Interrupt.Registry.request
      rw [htaken]
    rw [install_of_kind_eq_some hfree hkind, hrefused]
    dsimp only
    rw [Controller.request_of_error hrefused]

/-- Installation fails for a reason and leaves the board as it is, or it succeeds. -/
theorem install_cases (b : Board δ) (x : Component δ) :
    (∃ e, b.Denied x e ∧ b.install x = (.error e, b)) ∨
      ∃ line c, b.install x = (.ok line, b.placed x line c) ∧
        b.Installed x line (b.placed x line c) := by
  -- the first owned port denies, before any line is asked for
  cases hfind : (Peripheral.ports x).find? fun p => (b.ownerOf p).isSome with
  | some p =>
    obtain ⟨howned, before, after, hports, hbefore⟩ := List.find?_eq_some_iff_append.1 hfind
    obtain ⟨o, ho⟩ := Option.isSome_iff_exists.1 howned
    have hfree : ∀ q ∈ before, b.ownerOf q = none := fun q hq => by simpa using hbefore q hq
    exact .inl ⟨_, .portOwned hports hfree ho, install_of_portOwned hports hfree ho⟩
  | none =>
    have hfree := find?_owned_eq_none.1 hfind
    cases hkind : Peripheral.kind x with
    | none =>
      refine .inr ⟨none, _, install_of_kind_eq_none hfree hkind, installed_placed hfree ?_⟩
      rw [hkind]
      exact .none
    | some device =>
      have hinstall := install_of_kind_eq_some hfree hkind
      cases hrequest : (b.controller.requestIrq device).1 with
      | ok line =>
        rw [hrequest] at hinstall
        refine .inr ⟨some line, _, hinstall, installed_placed hfree ?_⟩
        rw [hkind]
        exact grants_request hrequest
      | error e =>
        have htaken := (Interrupt.Registry.request_of_error hrequest).2
        rw [Interrupt.Registry.vacantLine_eq, List.find?_eq_none] at htaken
        have hdenied : b.Denied x (.noLine (.unavailable device)) := .noLine hfree hkind htaken
        exact .inl ⟨_, hdenied, install_of_denied hdenied⟩

theorem install_error_iff {e : AttachError} : (b.install x).1 = .error e ↔ b.Denied x e := by
  refine ⟨fun h => ?_, fun h => congrArg Prod.fst (install_of_denied h)⟩
  obtain ⟨e', hdenied, hinstall⟩ | ⟨line, c, hinstall, -⟩ := b.install_cases x
  · rw [hinstall] at h
    cases h
    exact hdenied
  · rw [hinstall] at h
    cases h

theorem install_of_error {e : AttachError} (h : (b.install x).1 = .error e) :
    (b.install x).2 = b := by
  rw [install_of_denied (install_error_iff.1 h)]

theorem installed_of_ok (h : (b.install x).1 = .ok line) : b.Installed x line (b.install x).2 := by
  obtain ⟨e, -, hinstall⟩ | ⟨line', c, hinstall, hx⟩ := b.install_cases x
  · rw [hinstall] at h
    cases h
  · rw [hinstall] at h ⊢
    cases h
    exact hx

end Install

section Map

/-- The map of ports is sound: a port has one owner, the controller has its ports, and the
components that own others are there. -/
structure Mapped (b : Board δ) : Prop where
  single : ∀ p o, (p, o) ∈ b.owners → b.ownerOf p = some o
  controller : ∀ p, b.ownerOf p = some .controller ↔ p ∈ Controller.ports
  installed : ∀ p i, b.ownerOf p = some (.component i) → i < b.components.length

variable [Peripheral δ] {b b' : Board δ}

omit [Peripheral δ] in
theorem Mapped.congr (h : b.Mapped) (hb : b'.arrangement = b.arrangement) : b'.Mapped := by
  have howners : b'.owners = b.owners := congrArg Arrangement.owners hb
  have hlength : b'.components.length = b.components.length := by
    simpa [arrangement] using congrArg (fun σ => σ.timers.length) hb
  have howner : ∀ p, b'.ownerOf p = b.ownerOf p := fun p => congrArg (List.lookup p) howners
  refine ⟨fun p o hp => ?_, fun p => ?_, fun p i hp => ?_⟩
  · rw [howner]
    exact h.single p o (howners ▸ hp)
  · rw [howner]
    exact h.controller p
  · rw [hlength]
    exact h.installed p i (howner p ▸ hp)

theorem Mapped.placed (h : b.Mapped) {x : Component δ} {line : Option UInt8} {c : Controller}
    (hx : b.Installed x line (b.placed x line c)) : (b.placed x line c).Mapped where
  single p o hp := by
    rw [hx.ports]
    rcases List.mem_append.1 hp with hp | hp
    · obtain ⟨q, hq, heq⟩ := List.mem_map.1 hp
      cases heq
      rw [if_pos hq]
    · have hold := h.single p o hp
      have hne : p ∉ Peripheral.ports x := fun hq => by
        rw [hx.free p hq] at hold
        cases hold
      rw [if_neg hne, hold]
  controller p := by
    rw [hx.ports]
    split_ifs with hq
    · have hold := h.controller p
      rw [hx.free p hq] at hold
      simpa using hold
    · exact h.controller p
  installed p i hp := by
    rw [hx.components, List.length_append, List.length_singleton]
    rw [hx.ports] at hp
    split_ifs at hp
    · cases hp
      exact Nat.lt_succ_self _
    · exact Nat.lt_succ_of_lt (h.installed p i hp)

theorem Mapped.install (h : b.Mapped) (x : Component δ) : (b.install x).2.Mapped := by
  obtain ⟨e, -, hinstall⟩ | ⟨line, c, hinstall, hx⟩ := b.install_cases x
  · rw [hinstall]
    exact h
  · rw [hinstall]
    exact h.placed hx

theorem mapped_ofConfig (config : Config) : (ofConfig config : Board δ).Mapped := by
  have hbare : ∀ memory controller ignoreUnknownPorts, Mapped
      { memory, controller, components := ([] : List (Component δ))
        owners := Controller.ports.map fun p => (p, .controller)
        ignoreUnknownPorts } := by
    intro memory controller ignoreUnknownPorts
    have howner : ∀ p, (Controller.ports.map fun p => (p, PortOwner.controller)).lookup p =
        if p ∈ Controller.ports then some .controller else none := fun p => by
      simpa using lookup_newOwners Controller.ports .controller [] p
    refine ⟨fun p o hp => ?_, fun p => ?_, fun p i hp => ?_⟩
    · obtain ⟨q, hq, heq⟩ := List.mem_map.1 hp
      cases heq
      exact (howner p).trans (if_pos hq)
    · change List.lookup p _ = _ ↔ _
      rw [howner]
      split_ifs with hp <;> simp [hp]
    · change List.lookup p _ = _ at hp
      rw [howner] at hp
      split_ifs at hp
      cases hp
  unfold ofConfig
  split
  · exact (hbare _ _ _).install _
  · exact hbare _ _ _

end Map

section Run

variable [Peripheral δ] {b : Board δ}

omit [Peripheral δ] in
theorem arrangement_outcome {α : Type} {x : EStateM Fault (Board δ) α} (hx : Plain x)
    (b : Board δ) : (outcome (x b)).arrangement = b.arrangement := by
  have halike := hx b b.stopRequested
  generalize x b = r at halike
  generalize x (b.withStop b.stopRequested) = r' at halike
  cases halike with
  | ok _ h => exact h
  | error _ h => exact h

/-- Only an installation changes the map. -/
theorem perform_cases (b : Board δ) (e : Event δ) :
    (b.perform e).arrangement = b.arrangement ∨
      ∃ x line c, b.perform e = b.placed x line c ∧ b.Installed x line (b.placed x line c) := by
  cases e with
  | pulse => exact .inl b.clockPulse_arrangement
  | input w port => exact .inl (arrangement_outcome (plain_ports.busInput w port) b)
  | output w port v => exact .inl (arrangement_outcome (plain_ports.busOutput w port v) b)
  | control op => exact .inl rfl
  | attach d =>
    obtain ⟨e, -, hinstall⟩ | ⟨line, c, hinstall, hx⟩ := b.install_cases (.card d)
    · exact .inl (congrArg (fun r => r.2.arrangement) hinstall)
    · exact .inr ⟨.card d, line, c, congrArg Prod.snd hinstall, hx⟩
  | attend memory holdPulses stopRequested => exact .inl rfl

theorem Mapped.perform (h : b.Mapped) (e : Event δ) : (b.perform e).Mapped := by
  obtain hsame | ⟨x, line, c, hplaced, hx⟩ := b.perform_cases e
  · exact h.congr hsame
  · rw [hplaced]
    exact h.placed hx

theorem Mapped.performAll (h : b.Mapped) (es : List (Event δ)) : (b.performAll es).Mapped := by
  induction es generalizing b with
  | nil => exact h
  | cons e es ih => exact ih (h.perform e)

theorem ownerOf_perform {p : UInt16} {o : PortOwner} (h : b.ownerOf p = some o) (e : Event δ) :
    (b.perform e).ownerOf p = some o := by
  obtain hsame | ⟨x, line, c, hplaced, hx⟩ := b.perform_cases e
  · have howners : (b.perform e).owners = b.owners := congrArg Arrangement.owners hsame
    exact (congrArg (List.lookup p) howners).trans h
  · have hne : p ∉ Peripheral.ports x := fun hp => by
      rw [hx.free p hp] at h
      cases h
    rw [hplaced, hx.ports, if_neg hne, h]

theorem ownerOf_performAll {p : UInt16} {o : PortOwner} (h : b.ownerOf p = some o)
    (es : List (Event δ)) : (b.performAll es).ownerOf p = some o := by
  induction es generalizing b with
  | nil => exact h
  | cons e es ih => exact ih (ownerOf_perform h e)

/-- A board that is built from any settings, at any point of its use. The map of its ports is sound,
and no later event takes a port from its owner. A device that is attached is denied and the board
stays as it is, or it gets all its ports and the line that it needs. -/
theorem attachment (config : Config) (es : List (Event δ)) :
    let b := (ofConfig config : Board δ).performAll es
    b.Mapped ∧
    (∀ es' p o, b.ownerOf p = some o → (b.performAll es').ownerOf p = some o) ∧
    ∀ d : δ,
      (∀ e, (b.attach d).1 = .error e ↔ b.Denied (.card d) e) ∧
      (∀ e, (b.attach d).1 = .error e → (b.attach d).2 = b) ∧
      ∀ line, (b.attach d).1 = .ok line → b.Installed (.card d) line (b.attach d).2 := by
  intro b
  refine ⟨(mapped_ofConfig config).performAll es, fun es' _ _ h => ownerOf_performAll h es',
    fun d => ?_⟩
  exact ⟨fun _ => install_error_iff, fun _ => install_of_error, fun _ => installed_of_ok⟩

end Run

end Pc8086.Board

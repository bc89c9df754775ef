import Pc8086.Proofs.Interrupt.Arrival
import Pc8086.Proofs.Interrupt.Balance

namespace Pc8086.Interrupt

/-- The operation raises, lowers, gives up, enables or disables the line. -/
def Operation.Names (n : UInt8) : Operation → Prop
  | raise line | lower line | releaseIrq line | releaseLine line | setEnabled line _ => line = n
  | readPort _ | writePort _ _ | acknowledge | request _ => False

namespace Registry

variable {g : Registry} {n : UInt8}

theorem assignment_set_of_ne (a : Option Assignment) {line : UInt8} (h : line ≠ n) :
    (Registry.mk (g.lines.set! line.toNat a)).assignment n = g.assignment n := by
  have hindex : line.toNat ≠ n.toNat := fun he => h (UInt8.toNat_inj.1 he)
  have hlines : (g.lines.set! line.toNat a)[n.toNat]? = g.lines[n.toNat]? := by
    rw [Array.set!_eq_setIfInBounds]
    exact Array.getElem?_setIfInBounds_ne hindex
  unfold assignment
  rw [hlines]

theorem assignment_release {line : UInt8} (h : line ≠ n) :
    (g.release line).2.assignment n = g.assignment n := by
  unfold release
  split
  · exact assignment_set_of_ne none h
  · rfl

theorem assignment_setEnabled {line : UInt8} (h : line ≠ n) (on : Bool) :
    (g.setEnabled line on).2.assignment n = g.assignment n := by
  unfold setEnabled
  split
  · exact assignment_set_of_ne _ h
  · rfl

theorem isActive_congr {g' : Registry} (h : g'.assignment n = g.assignment n) :
    g'.isActive n = g.isActive n :=
  congrArg (Option.any Assignment.enabled) h

theorem isVacant_of_vacantLine {device : Device} {line : UInt8}
    (h : g.vacantLine device = some line) : g.isVacant line = true := by
  unfold vacantLine at h
  split at h
  · split_ifs at h with hv
    cases h
    exact hv
  · exact List.find?_some h

theorem isActive_of_isVacant (h : g.isVacant n = true) : g.isActive n = false := by
  unfold isActive assignment
  rw [beq_iff_eq.1 h]
  rfl

/-- Only a vacant line gets a new owner. -/
theorem isActive_request (h : g.isActive n = true) (device : Device) :
    (g.request device).2.isActive n = true := by
  unfold request
  split
  · next line hline =>
    have hne : line ≠ n := by
      rintro rfl
      have hvacant := isActive_of_isVacant (isVacant_of_vacantLine hline)
      exact Bool.false_ne_true (hvacant.symm.trans h)
    exact (isActive_congr (assignment_set_of_ne _ hne)).trans h
  · exact h

def perform (g : Registry) : Operation → Registry
  | .request device => (g.request device).2
  | .releaseIrq line => if line < 16 then (g.release line).2 else g
  | .releaseLine line => (g.release line).2
  | .setEnabled line on => (g.setEnabled line on).2
  | .readPort _ | .writePort .. | .raise _ | .lower _ | .acknowledge => g

end Registry

namespace Controller

variable {c : Controller} {n : UInt8} {g : Registry}

theorem robust_registry (g : Registry) : Robust fun c => c.registry = g where
  service {c} h r := by
    cases r with
    | master => exact (serviceMaster_registry c).trans h
    | slave => exact (serviceSlave_registry c).trans h
  modifyChip {c r f} h _ _ _ := by
    cases r <;> exact h

theorem clearIrq_registry (c : Controller) (line : UInt8) :
    (c.clearIrq line).registry = c.registry := by
  unfold clearIrq
  split
  · generalize locate line = place
    obtain ⟨r, l⟩ := place
    cases r <;> rfl
  · rfl

theorem readCommand_registry (c : Controller) (r : Role) :
    (c.readCommand r).2.registry = c.registry := by
  have hdropped : ∀ f, ((c.dropSignal r).modifyChip r f).registry = c.registry := by
    intro f
    cases r <;> rfl
  unfold readCommand
  dsimp only
  split_ifs
  · rcases (c.chip r).chosen_or_none with ⟨k, hk⟩ | hk
    · rw [poll_of_chosen hk]
      exact (robust_registry c.registry).service (hdropped _) r
    · rw [poll_of_none hk]
      exact hdropped _
  · rfl
  · rfl

theorem writeCommand_registry (c : Controller) (r : Role) (v : UInt8) :
    (c.writeCommand r v).registry = c.registry := by
  unfold writeCommand
  split_ifs
  · cases r <;> rfl
  · exact (robust_registry c.registry).modeCommand rfl r v
  · exact (robust_registry c.registry).serviceCommand rfl r v

theorem readPort_registry (c : Controller) (port : UInt16) :
    (c.perform (.readPort port)).registry = c.registry := by
  obtain ⟨r, rfl⟩ | ⟨r, rfl⟩ | hport := port_cases port
  · rw [perform_readCommand, readCommand_registry]
  · rw [perform_readData]
  · rw [(hport.2 c).1]

theorem writePort_registry (c : Controller) (port : UInt16) (v : UInt8) :
    (c.perform (.writePort port v)).registry = c.registry := by
  obtain ⟨r, rfl⟩ | ⟨r, rfl⟩ | hport := port_cases port
  · rw [perform_writeCommand, writeCommand_registry]
  · rw [perform_writeData]
    exact (robust_registry c.registry).writeData rfl r v
  · rw [(hport.2 c).2 v]

theorem perform_registry (c : Controller) (op : Operation) :
    (c.perform op).registry = c.registry.perform op := by
  cases op with
  | readPort port => exact readPort_registry c port
  | writePort port v => exact writePort_registry c port v
  | raise line => exact c.setIrq_registry line
  | lower line => exact clearIrq_registry c line
  | acknowledge => exact c.acknowledge_registry
  | request device => rfl
  | releaseIrq line =>
    change (c.releaseIrq line).2.registry = _
    unfold releaseIrq Registry.perform
    dsimp only
    split
    · exact congrArg (fun g : Registry => (g.release line).2) (clearIrq_registry c line)
    · rfl
  | releaseLine line => rfl
  | setEnabled line on => rfl

structure Armed (n : UInt8) (c : Controller) : Prop where
  active : c.registry.isActive n = true
  bounded : c.registry.lines.size = 16

theorem Armed.congr {d : Controller} (h : c.Armed n) (hd : d.registry = c.registry) :
    d.Armed n := by
  refine ⟨?_, ?_⟩
  · rw [hd]
    exact h.active
  · rw [hd]
    exact h.bounded

theorem Armed.perform (h : c.Armed n) {op : Operation} (hop : ¬op.Names n) :
    (c.perform op).Armed n where
  active := by
    rw [perform_registry]
    cases op with
    | request device => exact Registry.isActive_request h.active device
    | releaseIrq line =>
      unfold Registry.perform
      dsimp only
      split
      · exact (Registry.isActive_congr (Registry.assignment_release hop)).trans h.active
      · exact h.active
    | releaseLine line =>
      exact (Registry.isActive_congr (Registry.assignment_release hop)).trans h.active
    | setEnabled line on =>
      exact (Registry.isActive_congr (Registry.assignment_setEnabled hop on)).trans h.active
    | _ => exact h.active
  bounded := (perform_registry_size c op).trans h.bounded

/-- An edge and a lowering come from operations that name the line. -/
theorem event_of_not_names (c : Controller) {op : Operation} (hop : ¬op.Names n) :
    event n c op ≠ some .edge ∧ event n c op ≠ some .lowering := by
  have hnone : ∀ {p : Prop} [Decidable p] {e : Event}, ¬p →
      (if p then some e else none) ≠ some .edge ∧
        (if p then some e else none) ≠ some .lowering := by
    intro p _ e hp
    rw [if_neg hp]
    exact ⟨nofun, nofun⟩
  cases op with
  | raise line => exact hnone fun h => hop h.1
  | lower line => exact hnone hop
  | releaseIrq line => exact hnone hop
  | acknowledge | readPort port | writePort port v =>
    dsimp only [event]
    split_ifs <;> simp
  | request device => exact ⟨nofun, nofun⟩
  | releaseLine line => exact ⟨nofun, nofun⟩
  | setEnabled line on => exact ⟨nofun, nofun⟩

theorem high_perform (hn : IsOuter n) (h : c.Armed n) {op : Operation} (hop : ¬op.Names n) :
    ((c.perform op).lineOf n).high = (c.lineOf n).high := by
  have hevent := event_of_not_names c hop
  have ht := lineOf_perform hn h.bounded op
  generalize event n c op = e at ht hevent
  generalize (c.perform op).lineOf n = t at ht ⊢
  cases ht with
  | edge => exact absurd rfl hevent.1
  | acceptance => rfl
  | lowering => exact absurd rfl hevent.2
  | initialization => rfl
  | endOfInterrupt hr => exact hr.high
  | other => rfl

theorem Armed.performAll (hn : IsOuter n) (h : c.Armed n) {ops : List Operation}
    (hops : ∀ op ∈ ops, ¬op.Names n) :
    (c.performAll ops).Armed n ∧ ((c.performAll ops).lineOf n).high = (c.lineOf n).high := by
  induction ops generalizing c with
  | nil => exact ⟨h, rfl⟩
  | cons op ops ih =>
    have hop := hops op List.mem_cons_self
    have hrest : ∀ op' ∈ ops, ¬op'.Names n := fun op' hop' =>
      hops op' (List.mem_cons_of_mem op hop')
    obtain ⟨harmed, hhigh⟩ := ih (h.perform hop) hrest
    exact ⟨harmed, hhigh.trans (high_perform hn h hop)⟩

end Controller

end Pc8086.Interrupt

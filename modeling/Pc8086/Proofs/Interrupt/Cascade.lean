import Pc8086.Proofs.Interrupt.Acknowledge

namespace Pc8086.Interrupt

open Controller (cascadeLine)

/-- The chips differ at most in what the slave's line brings about: its level and request, and the
output. -/
structure Chip.AgreesOffLink (c d : Chip) : Prop where
  rest : d = { c with
    irr := d.irr, levels := d.levels, output := d.output, signalled := d.signalled }
  requests : ∀ l, l ≠ cascadeLine → d.irr.contains l = c.irr.contains l
  levels : ∀ l, l ≠ cascadeLine → d.levels.contains l = c.levels.contains l

namespace Chip.AgreesOffLink

variable {c d e : Chip}

theorem refl (c : Chip) : c.AgreesOffLink c :=
  ⟨rfl, fun _ _ => rfl, fun _ _ => rfl⟩

theorem trans (h : c.AgreesOffLink d) (h' : d.AgreesOffLink e) : c.AgreesOffLink e where
  rest := by
    have hrest := h'.rest
    rw [h.rest] at hrest
    exact hrest
  requests l hl := (h'.requests l hl).trans (h.requests l hl)
  levels l hl := (h'.levels l hl).trans (h.levels l hl)

theorem signal (c : Chip) (l : Line) : c.AgreesOffLink (c.signal l) :=
  ⟨rfl, fun _ _ => rfl, fun _ _ => rfl⟩

theorem raise (c : Chip) : c.AgreesOffLink (c.raise cascadeLine) where
  rest := rfl
  requests l hl := by simp [Chip.raise, hl]
  levels l hl := by simp [Chip.raise, hl]

theorem lower (c : Chip) : c.AgreesOffLink (c.lower cascadeLine) where
  rest := rfl
  requests l hl := by simp [Chip.lower, hl]
  levels l hl := by simp [Chip.lower, hl]

theorem isr_eq (h : c.AgreesOffLink d) : d.isr = c.isr := by
  rw [h.rest]

end Chip.AgreesOffLink

namespace Registry

theorem request_size (g : Registry) (device : Device) :
    (g.request device).2.lines.size = g.lines.size := by
  unfold request
  split <;> simp

theorem release_size (g : Registry) (line : UInt8) :
    (g.release line).2.lines.size = g.lines.size := by
  unfold release
  split <;> simp

theorem setEnabled_size (g : Registry) (line : UInt8) (on : Bool) :
    (g.setEnabled line on).2.lines.size = g.lines.size := by
  unfold setEnabled
  split <;> simp

end Registry

namespace Controller

open Chip (AgreesOffLink)

section Frame

theorem serviceMaster_agrees (c : Controller) : c.master.AgreesOffLink c.serviceMaster.master := by
  unfold serviceMaster
  split
  · exact AgreesOffLink.signal _ _
  · exact AgreesOffLink.refl _

theorem raiseMaster_agrees (c : Controller) :
    c.master.AgreesOffLink (c.raiseMaster cascadeLine).master := by
  unfold raiseMaster
  split
  · exact AgreesOffLink.refl _
  · exact (AgreesOffLink.raise _).trans
      (serviceMaster_agrees { c with master := c.master.raise cascadeLine })

theorem serviceMaster_registry (c : Controller) : c.serviceMaster.registry = c.registry := by
  unfold serviceMaster
  split <;> rfl

theorem serviceSlave_registry (c : Controller) : c.serviceSlave.registry = c.registry := by
  unfold serviceSlave raiseMaster
  split
  · split
    · rfl
    · exact serviceMaster_registry _
  · rfl

theorem acknowledge_registry (c : Controller) : c.acknowledge.2.registry = c.registry := by
  rcases c.master.chosen_or_none with ⟨l, h⟩ | h
  · by_cases hl : l = cascadeLine
    · subst hl
      rcases c.slave.chosen_or_none with ⟨m, hm⟩ | hs
      · rw [acknowledge_of_slave_chosen h hm, serviceMaster_registry, serviceSlave_registry]
        rfl
      · rw [acknowledge_of_slave_none h hs]
        rfl
    · rw [acknowledge_of_chosen h hl, serviceMaster_registry]
  · rw [acknowledge_of_none h]

theorem serviceSlave_agrees (c : Controller) : c.master.AgreesOffLink c.serviceSlave.master := by
  unfold serviceSlave
  split
  · next l _ => exact raiseMaster_agrees { c with slave := c.slave.signal l }
  · exact AgreesOffLink.refl _

/-- What an operation on one chip is made of: changes to that chip, its signal given or dropped, and
changes to entries of the registry. -/
inductive ActsOn (r : Role) (c : Controller) : Controller → Prop where
  | refl : ActsOn r c c
  | modify {d : Controller} (f : Chip → Chip) (h : ActsOn r c d) : ActsOn r c (d.modifyChip r f)
  | service {d : Controller} (h : ActsOn r c d) : ActsOn r c (d.service r)
  | dropSignal {d : Controller} (h : ActsOn r c d) : ActsOn r c (d.dropSignal r)
  | registry {d : Controller} {g : Registry} (hg : g.lines.size = d.registry.lines.size)
    (h : ActsOn r c d) : ActsOn r c { d with registry := g }

namespace ActsOn

variable {r : Role} {c d : Controller}

theorem slave_eq (h : ActsOn .master c d) : d.slave = c.slave := by
  induction h with
  | refl => rfl
  | modify f _ ih => exact ih
  | service _ ih => exact (serviceMaster_slave _).trans ih
  | dropSignal _ ih => exact ih
  | registry _ _ ih => exact ih

theorem master_agrees (h : ActsOn .slave c d) : c.master.AgreesOffLink d.master := by
  induction h with
  | refl => exact AgreesOffLink.refl _
  | modify f _ ih => exact ih
  | service _ ih => exact ih.trans (serviceSlave_agrees _)
  | dropSignal _ ih => exact ih.trans (AgreesOffLink.lower _)
  | registry _ _ ih => exact ih

theorem registry_size (h : ActsOn r c d) : d.registry.lines.size = c.registry.lines.size := by
  induction h with
  | refl => rfl
  | modify f _ ih => cases r <;> exact ih
  | service _ ih =>
    rw [← ih]
    cases r with
    | master => exact congrArg (fun g : Registry => g.lines.size) (serviceMaster_registry _)
    | slave => exact congrArg (fun g : Registry => g.lines.size) (serviceSlave_registry _)
  | dropSignal _ ih => cases r <;> exact ih
  | registry hg _ ih => exact hg.trans ih

theorem raise (h : ActsOn r c d) (l : Line) : ActsOn r c (d.raise r l) := by
  cases r with
  | master =>
    change ActsOn .master c (d.raiseMaster l)
    unfold raiseMaster
    split
    · exact h
    · exact (h.modify fun chip => chip.raise l).service
  | slave =>
    change ActsOn .slave c (d.raiseSlave l)
    unfold raiseSlave
    split
    · exact h
    · exact (h.modify fun chip => chip.raise l).service

theorem clearIrq {line : UInt8} (h : ActsOn r c d) (hr : (locate line).1 = r) :
    ActsOn r c (d.clearIrq line) := by
  subst hr
  unfold Controller.clearIrq
  split
  · exact h.modify _
  · exact h

theorem releaseIrq {line : UInt8} (h : ActsOn r c d) (hr : (locate line).1 = r) :
    ActsOn r c (d.releaseIrq line).2 := by
  unfold Controller.releaseIrq
  split
  · exact (h.clearIrq hr).registry (Registry.release_size _ _)
  · exact h

theorem poll (h : ActsOn r c d) : ActsOn r c (d.poll r).2 := by
  unfold Controller.poll
  dsimp only
  split
  · next l _ =>
    exact ((h.dropSignal.modify fun chip => { chip with polled := false, output := false }).modify
      fun chip => chip.accept l).service
  · exact h.dropSignal.modify fun chip => { chip with polled := false, output := false }

theorem readCommand (h : ActsOn r c d) : ActsOn r c (d.readCommand r).2 := by
  unfold Controller.readCommand
  dsimp only
  split_ifs
  · exact h.poll
  · exact h
  · exact h

theorem modeCommand (h : ActsOn r c d) (v : UInt8) : ActsOn r c (d.modeCommand r v) := by
  unfold Controller.modeCommand
  dsimp only
  split_ifs
  · exact (h.modify _).modify _
  · exact ((h.modify _).modify _).service
  · exact (h.modify _).service

theorem endHighest (h : ActsOn r c d) (rotating : Bool) :
    ActsOn r c (d.endHighest r rotating) := by
  unfold Controller.endHighest
  split
  · exact h.modify _
  · exact h

theorem serviceCommand (h : ActsOn r c d) (v : UInt8) : ActsOn r c (d.serviceCommand r v) := by
  unfold Controller.serviceCommand
  dsimp only
  split_ifs
  · exact h.modify _
  · exact (h.endHighest _).service
  · split
    · exact (h.modify _).service
    · exact (h.modify _).service
    · exact (h.modify _).service
    · exact h

theorem writeCommand (h : ActsOn r c d) (v : UInt8) : ActsOn r c (d.writeCommand r v) := by
  unfold Controller.writeCommand
  split_ifs
  · exact (h.modify _).dropSignal
  · exact h.modeCommand v
  · exact h.serviceCommand v

theorem writeData (h : ActsOn r c d) (v : UInt8) : ActsOn r c (d.writeData r v) := by
  unfold Controller.writeData
  split
  · exact h.modify _
  · exact (h.modify _).service

end ActsOn

theorem perform_actsOn {r : Role} (c : Controller) {op : Operation} (h : op.AddressedTo r) :
    ActsOn r c (c.perform op) := by
  have hc : ActsOn r c c := .refl
  cases op with
  | readPort port =>
    obtain rfl | rfl := h
    · rw [perform_readCommand]
      exact hc.readCommand
    · rw [perform_readData]
      exact hc
  | writePort port v =>
    obtain rfl | rfl := h
    · rw [perform_writeCommand]
      exact hc.writeCommand v
    · rw [perform_writeData]
      exact hc.writeData v
  | raise line =>
    obtain ⟨-, rfl⟩ := h
    change ActsOn _ c (c.setIrq line)
    unfold setIrq
    split
    · exact hc.raise _
    · exact hc
  | lower line => exact hc.clearIrq h.2
  | acknowledge => exact h.elim
  | request device => exact h.elim
  | releaseIrq line => exact hc.releaseIrq h.2
  | releaseLine line => exact hc.registry (Registry.release_size _ _)
  | setEnabled line on => exact hc.registry (Registry.setEnabled_size _ _ _)

end Frame

section Link

/-- The slave's output, its level on the master and its request there are all the same. -/
def Linked (c : Controller) : Prop :=
  c.master.levels.contains cascadeLine = c.slave.output ∧
    c.master.irr.contains cascadeLine = c.slave.output

variable {c : Controller}

theorem Linked.congr {d : Controller} (h : c.Linked) (hs : d.slave.output = c.slave.output)
    (hl : d.master.levels.contains cascadeLine = c.master.levels.contains cascadeLine)
    (hr : d.master.irr.contains cascadeLine = c.master.irr.contains cascadeLine) : d.Linked := by
  unfold Linked
  rw [hs, hl, hr]
  exact h

/-- With the slave's signal dropped and its output low the link is at rest. -/
theorem linked_of_dropped (f : Chip → Chip) (hf : (f c.slave).output = false) :
    ((c.dropSignal .slave).modifyChip .slave f).Linked := by
  refine ⟨?_, ?_⟩
  · change (c.master.lower cascadeLine).levels.contains cascadeLine = (f c.slave).output
    rw [hf]
    simp [Chip.lower]
  · change (c.master.lower cascadeLine).irr.contains cascadeLine = (f c.slave).output
    rw [hf]
    simp [Chip.lower]

theorem serviceMaster_levels (c : Controller) :
    c.serviceMaster.master.levels = c.master.levels := by
  unfold serviceMaster
  split <;> rfl

theorem Linked.serviceMaster (h : c.Linked) : c.serviceMaster.Linked := by
  refine h.congr ?_ ?_ ?_
  · rw [serviceMaster_slave]
  · rw [serviceMaster_levels]
  · rw [serviceMaster_irr]

/-- A slave that signals finds its line low, and raises it. -/
theorem Linked.serviceSlave (h : c.Linked) : c.serviceSlave.Linked := by
  unfold Controller.serviceSlave
  split
  · next l hl =>
    -- the slave signals only with its output low, and the line shows the output
    have hlow : c.master.levels.contains cascadeLine = false := by
      rw [h.1]
      exact ((Chip.resolve_eq_some_iff _ l).1 hl).1
    unfold raiseMaster
    rw [if_neg (by simp [hlow])]
    refine Linked.serviceMaster ⟨?_, ?_⟩
    · simp [Chip.raise, Chip.signal]
    · simp [Chip.raise, Chip.signal]
  · exact h

theorem Linked.service (h : c.Linked) (r : Role) : (c.service r).Linked := by
  cases r with
  | master => exact h.serviceMaster
  | slave => exact h.serviceSlave

theorem Linked.modifyChip (h : c.Linked) {r : Role} {f : Chip → Chip}
    (ho : (f (c.chip r)).output = (c.chip r).output)
    (hl : (f (c.chip r)).levels = (c.chip r).levels) (hr : (f (c.chip r)).irr = (c.chip r).irr) :
    (c.modifyChip r f).Linked := by
  cases r with
  | master =>
    refine h.congr rfl ?_ ?_
    · exact congrArg (fun s : LineSet => s.contains cascadeLine) hl
    · exact congrArg (fun s : LineSet => s.contains cascadeLine) hr
  | slave => exact h.congr ho rfl rfl

theorem Linked.raiseMaster (h : c.Linked) {l : Line} (hne : l ≠ cascadeLine) :
    (c.raiseMaster l).Linked := by
  unfold Controller.raiseMaster
  split
  · exact h
  · refine Linked.serviceMaster (h.congr rfl ?_ ?_)
    · simp [Chip.raise, hne.symm]
    · simp [Chip.raise, hne.symm]

theorem Linked.raiseSlave (h : c.Linked) (l : Line) : (c.raiseSlave l).Linked := by
  unfold Controller.raiseSlave
  split
  · exact h
  · exact Linked.serviceSlave (h.congr rfl rfl rfl)

/-- Only line 2 is the master's own line 2. -/
theorem locate_ne_cascade {line : UInt8} (h : line ≠ 2) : locate line ≠ (.master, cascadeLine) := by
  intro heq
  obtain ⟨hr, hl⟩ := Prod.ext_iff.1 heq
  have hlow : line < 8 := by
    by_contra hn
    simp [locate, hn] at hr
  have hlow : line.toNat < 8 := hlow
  have hmod : line.toNat % 8 = 2 := congrArg Fin.val hl
  have htwo : line.toNat = 2 := by omega
  exact h (UInt8.toNat_inj.1 htwo)

theorem Linked.setIrq (h : c.Linked) {line : UInt8} (hne : line ≠ 2) : (c.setIrq line).Linked := by
  have hloc := locate_ne_cascade hne
  unfold Controller.setIrq
  split
  · generalize locate line = place at hloc
    obtain ⟨r, l⟩ := place
    cases r with
    | master => exact h.raiseMaster fun hl => hloc (congrArg _ hl)
    | slave => exact h.raiseSlave l
  · exact h

theorem Linked.clearIrq (h : c.Linked) {line : UInt8} (hne : line ≠ 2) :
    (c.clearIrq line).Linked := by
  have hloc := locate_ne_cascade hne
  unfold Controller.clearIrq
  split
  · generalize locate line = place at hloc
    obtain ⟨r, l⟩ := place
    cases r with
    | master =>
      have hl : cascadeLine ≠ l := fun hl => hloc (congrArg _ hl.symm)
      refine h.congr rfl ?_ ?_
      · simp [Controller.modifyChip, setChip, chip, Chip.lower, hl]
      · simp [Controller.modifyChip, setChip, chip, Chip.lower, hl]
    | slave => exact h.congr rfl rfl rfl
  · exact h

theorem Linked.releaseIrq (h : c.Linked) {line : UInt8} (hne : line ≠ 2) :
    (c.releaseIrq line).2.Linked := by
  unfold Controller.releaseIrq
  split
  · exact (h.clearIrq hne).congr rfl rfl rfl
  · exact h

/-- A poll of the slave takes the request back and makes the next one. -/
theorem poll_slave_linked (c : Controller) : (c.poll .slave).2.Linked := by
  unfold poll
  dsimp only
  split
  · next l _ =>
    let f (chip : Chip) : Chip := Chip.take { chip with polled := false } l
    have hout : (f c.slave).output = false := Chip.take_output _ l
    exact (linked_of_dropped f hout).serviceSlave
  · exact linked_of_dropped (fun chip => { chip with polled := false, output := false }) rfl

/-- A property that signalling keeps, and so does a change to a chip that leaves alone its inputs,
requests and output. -/
structure Robust (P : Controller → Prop) : Prop where
  service {c : Controller} (h : P c) (r : Role) : P (c.service r)
  modifyChip {c : Controller} {r : Role} {f : Chip → Chip} (h : P c)
    (ho : (f (c.chip r)).output = (c.chip r).output)
    (hl : (f (c.chip r)).levels = (c.chip r).levels) (hr : (f (c.chip r)).irr = (c.chip r).irr) :
    P (c.modifyChip r f)

namespace Robust

variable {P : Controller → Prop}

theorem modeCommand (hP : Robust P) (h : P c) (r : Role) (v : UInt8) : P (c.modeCommand r v) := by
  have hmodes : P (c.modifyChip r fun chip => chip.setModes v) := by
    refine hP.modifyChip h ?_ ?_ ?_ <;> (unfold Chip.setModes; split <;> rfl)
  unfold Controller.modeCommand
  dsimp only
  split_ifs
  · exact hP.modifyChip hmodes rfl rfl rfl
  · exact hP.service (hP.modifyChip hmodes rfl rfl rfl) r
  · exact hP.service hmodes r

theorem endHighest (hP : Robust P) (h : P c) (r : Role) (rotating : Bool) :
    P (c.endHighest r rotating) := by
  unfold Controller.endHighest
  split
  · refine hP.modifyChip h ?_ ?_ ?_ <;> (dsimp only; split <;> rfl)
  · exact h

theorem serviceCommand (hP : Robust P) (h : P c) (r : Role) (v : UInt8) :
    P (c.serviceCommand r v) := by
  unfold Controller.serviceCommand
  dsimp only
  split_ifs
  · exact hP.modifyChip h rfl rfl rfl
  · exact hP.service (hP.endHighest h r _) r
  · split
    · exact hP.service (hP.modifyChip h rfl rfl rfl) r
    · exact hP.service (hP.modifyChip h rfl rfl rfl) r
    · exact hP.service (hP.modifyChip h rfl rfl rfl) r
    · exact h

theorem writeData (hP : Robust P) (h : P c) (r : Role) (v : UInt8) : P (c.writeData r v) := by
  unfold Controller.writeData
  split
  · refine hP.modifyChip h ?_ ?_ ?_ <;>
      (unfold Chip.initializationWord; dsimp only; split <;> rfl)
  · exact hP.service (hP.modifyChip h rfl rfl rfl) r

end Robust

theorem robust_linked : Robust Linked where
  service h r := h.service r
  modifyChip h ho hl hr := h.modifyChip ho hl hr

/-- The operation works on the master's end of the link by itself: it initializes or polls the
master, or moves the slave's line. -/
def SeversLink (c : Controller) : Operation → Prop
  | .readPort port => port = Role.master.commandPort ∧ c.master.polled = true
  | .writePort port v => port = Role.master.commandPort ∧ v &&& 0x10 ≠ 0
  | .raise line | .lower line | .releaseIrq line => line = 2
  | _ => False

theorem Linked.readCommand (h : c.Linked) {r : Role}
    (hs : ¬c.SeversLink (.readPort r.commandPort)) : (c.readCommand r).2.Linked := by
  unfold Controller.readCommand
  dsimp only
  split_ifs with hp
  · cases r with
    | master => exact absurd ⟨rfl, hp⟩ hs
    | slave => exact poll_slave_linked c
  · exact h
  · exact h

theorem Linked.writeCommand (h : c.Linked) {r : Role} {v : UInt8}
    (hs : ¬c.SeversLink (.writePort r.commandPort v)) : (c.writeCommand r v).Linked := by
  unfold Controller.writeCommand
  split_ifs with hi
  · cases r with
    | master => exact absurd ⟨rfl, bne_iff_ne.1 hi⟩ hs
    | slave => exact linked_of_dropped (c := c) (fun chip => chip.beginInitialization v) rfl
  · exact robust_linked.modeCommand h r v
  · exact robust_linked.serviceCommand h r v

/-- The master takes the request and drops the line; a slave that has more to signal raises it
again. -/
theorem Linked.acknowledge (h : c.Linked) : c.acknowledge.2.Linked := by
  rcases c.master.chosen_or_none with ⟨l, hc⟩ | hc
  · by_cases hl : l = cascadeLine
    · subst hl
      -- the request and the line go to the slave, whose output falls in either case
      have hover : ∀ d : Chip, d.output = false → Linked { c.handOver with slave := d } := by
        intro d hd
        refine ⟨?_, ?_⟩
        · rw [hd]
          simp [handOver]
        · rw [hd]
          simp [handOver]
      rcases c.slave.chosen_or_none with ⟨m, hm⟩ | hs
      · rw [acknowledge_of_slave_chosen hc hm]
        exact ((hover _ (c.slave.take_output m)).serviceSlave).serviceMaster
      · rw [acknowledge_of_slave_none hc hs]
        exact hover _ rfl
    · rw [acknowledge_of_chosen hc hl]
      refine Linked.serviceMaster (h.congr rfl ?_ ?_)
      · change (c.master.take l).levels.contains cascadeLine = _
        rw [Chip.take_eq]
      · exact c.master.take_other_requests (Ne.symm hl)
  · rw [acknowledge_of_none hc]
    exact h.congr rfl rfl rfl

/-- One operation keeps the link, unless it is one of those that work on the master's end alone. -/
theorem Linked.perform (h : c.Linked) {op : Operation} (hs : ¬c.SeversLink op) :
    (c.perform op).Linked := by
  cases op with
  | readPort port =>
    obtain ⟨r, rfl⟩ | ⟨r, rfl⟩ | hport := port_cases port
    · rw [perform_readCommand]
      exact h.readCommand hs
    · rw [perform_readData]
      exact h
    · rw [(hport.2 c).1]
      exact h
  | writePort port v =>
    obtain ⟨r, rfl⟩ | ⟨r, rfl⟩ | hport := port_cases port
    · rw [perform_writeCommand]
      exact h.writeCommand hs
    · rw [perform_writeData]
      exact robust_linked.writeData h r v
    · rw [(hport.2 c).2 v]
      exact h
  | raise line => exact h.setIrq hs
  | lower line => exact h.clearIrq hs
  | acknowledge => exact h.acknowledge
  | request device => exact h.congr rfl rfl rfl
  | releaseIrq line => exact h.releaseIrq hs
  | releaseLine line => exact h.congr rfl rfl rfl
  | setEnabled line on => exact h.congr rfl rfl rfl

theorem Linked.performAll (h : c.Linked) {ops : List Operation}
    (hs : c.Throughout (fun c op => ¬c.SeversLink op) ops) : (c.performAll ops).Linked := by
  induction ops generalizing c with
  | nil => exact h
  | cons op ops ih => exact ih (h.perform hs.1) hs.2

theorem withBases_linked (m s : UInt8) : (withBases m s).Linked := by
  refine ⟨?_, ?_⟩
  · exact LineSet.contains_empty _
  · exact LineSet.contains_empty _

/-- The link mirrors the slave's output in every run that leaves the master's end of it alone. An
operation on the slave changes nothing of the master beyond the link and the output, and one on the
master nothing of the slave. -/
theorem link_mirrors_slave :
    (∀ m s ops, (withBases m s).Throughout (fun c op => ¬c.SeversLink op) ops →
      ((withBases m s).performAll ops).Linked) ∧
    ∀ (c : Controller) (op : Operation),
      (op.AddressedTo .slave → c.master.AgreesOffLink (c.perform op).master) ∧
      (op.AddressedTo .master → (c.perform op).slave = c.slave) := by
  refine ⟨fun m s ops hs => (withBases_linked m s).performAll hs, fun c op => ⟨?_, ?_⟩⟩
  · intro h
    exact (perform_actsOn c h).master_agrees
  · intro h
    exact (perform_actsOn c h).slave_eq

instance (c : Controller) : (op : Operation) → Decidable (c.SeversLink op)
  | .readPort _ => inferInstanceAs (Decidable (_ ∧ _))
  | .writePort _ _ => inferInstanceAs (Decidable (_ ∧ _))
  | .raise _ | .lower _ | .releaseIrq _ => inferInstanceAs (Decidable (_ = _))
  | .acknowledge | .request _ | .releaseLine _ | .setEnabled _ _ => .isFalse id

/-- The mouse, which had to wait for the clock's end of interrupt, has its request on the master. -/
theorem mouse_linked :
    let ops : List Operation :=
      [.request .clock, .request .mouse, .writePort 0x21 0x00, .writePort 0xA1 0x00, .raise 8,
        .acknowledge, .raise 12, .writePort 0xA0 0x20]
    let c := initial.performAll ops
    c.slave.output = true ∧ c.master.irr.contains cascadeLine = true ∧
      c.master.levels.contains cascadeLine = true ∧
      (c.perform (.writePort 0x20 0x20)).slave = c.slave := by
  intro ops c
  have hs : initial.Throughout (fun c op => ¬c.SeversLink op) ops := by decide
  have hl : c.Linked := link_mirrors_slave.1 0x08 0x70 ops hs
  have hout : c.slave.output = true := by decide
  have hm := (link_mirrors_slave.2 c (.writePort 0x20 0x20)).2 (.inl rfl)
  exact ⟨hout, hl.2.trans hout, hl.1.trans hout, hm⟩

end Link

end Controller

end Pc8086.Interrupt

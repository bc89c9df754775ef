import Pc8086.Proofs.Interrupt.Cascade

namespace Pc8086.Interrupt

open Controller (cascadeLine)

namespace Chip

/-- An output that is held has a line behind it. -/
def Backed (c : Chip) : Prop :=
  c.output = true → ∃ l, c.Qualifies l

/-- Under the same output `d` lets through all lines that `c` lets through. -/
structure Widens (c d : Chip) : Prop where
  output : d.output = c.output
  qualifies : ∀ l, c.Qualifies l → d.Qualifies l

variable {c d : Chip} {l : Line}

theorem Backed.widen (h : c.Backed) (hd : c.Widens d) : d.Backed := by
  intro ho
  rw [hd.output] at ho
  obtain ⟨l, hl⟩ := h ho
  exact ⟨l, hd.qualifies l hl⟩

theorem backed_of_low (h : c.output = false) : c.Backed := by
  intro ho
  rw [h] at ho
  cases ho

theorem signal_backed (h : c.resolve = some l) : (c.signal l).Backed :=
  fun _ => ⟨l, ((resolve_eq_some_iff c l).1 h).2.1⟩

theorem raise_widens (c : Chip) (l : Line) : c.Widens (c.raise l) where
  output := rfl
  qualifies m := by
    rintro ⟨hr, hm⟩
    refine ⟨?_, hm⟩
    simp [raise, hr]

theorem unmask_widens {s : LineSet}
    (h : ∀ l, s.contains l = true → c.imr.contains l = true) : c.Widens { c with imr := s } where
  output := rfl
  qualifies m := by
    rintro ⟨hr, hm, hf⟩
    refine ⟨hr, ?_, hf⟩
    by_contra hs
    rw [h m (by simpa using hs)] at hm
    cases hm

/-- With a line out of service the others wait for one line less. -/
theorem endService_widens (c : Chip) (l : Line) : c.Widens (c.endService l) where
  output := rfl
  qualifies m := by
    rintro ⟨hr, hm, hf⟩
    have hisr : ∀ k, (c.endService l).isr.contains k = true → c.isr.contains k = true := by
      intro k hk
      rw [endService, LineSet.contains_erase, Bool.and_eq_true] at hk
      exact hk.2
    refine ⟨hr, hm, ?_⟩
    change if c.specialMask = true then _ else _
    split_ifs at hf ⊢
    · by_contra hk
      rw [hisr m (by simpa using hk)] at hf
      cases hf
    · exact fun k hk => hf k (hisr k hk)

/-- Special mask mode takes less of a line than that it comes before those in service. -/
theorem setModes_widens {v : UInt8} (hv : (v >>> 5) &&& 3 ≠ 2) : c.Widens (c.setModes v) := by
  unfold setModes
  split
  · exact absurd ‹_› hv
  · exact ⟨rfl, fun m hm => ⟨hm.1, hm.2.1, hm.not_in_service⟩⟩
  · exact ⟨rfl, fun _ => id⟩

/-- The initialization words after the first decide nothing about the lines. -/
theorem initializationWord_widens (c : Chip) (v : UInt8) : c.Widens (c.initializationWord v) := by
  unfold initializationWord
  dsimp only
  split
  · exact ⟨rfl, fun _ => id⟩
  · exact ⟨rfl, fun _ => id⟩
  · exact ⟨rfl, fun _ => id⟩

end Chip

namespace Controller

open Chip

section Wire

/-- The processor sees the master's output. -/
def Wired (c : Controller) : Prop :=
  c.intr = c.master.output

namespace Wired

variable {c d : Controller} {r : Role}

theorem congr (h : c.Wired) (hi : d.intr = c.intr) (ho : d.master.output = c.master.output) :
    d.Wired := by
  unfold Wired
  rw [hi, ho]
  exact h

theorem serviceMaster (h : c.Wired) : c.serviceMaster.Wired := by
  unfold Controller.serviceMaster
  split
  · exact rfl
  · exact h

theorem raiseMaster (h : c.Wired) (l : Line) : (c.raiseMaster l).Wired := by
  unfold Controller.raiseMaster
  split
  · exact h
  · exact serviceMaster (h.congr rfl rfl)

theorem serviceSlave (h : c.Wired) : c.serviceSlave.Wired := by
  unfold Controller.serviceSlave
  split
  · next l _ =>
    have hsignalled : Wired { c with slave := c.slave.signal l } := h.congr rfl rfl
    exact hsignalled.raiseMaster cascadeLine
  · exact h

theorem service (h : c.Wired) (r : Role) : (c.service r).Wired := by
  cases r with
  | master => exact h.serviceMaster
  | slave => exact h.serviceSlave

theorem raise (h : c.Wired) (r : Role) (l : Line) : (c.raise r l).Wired := by
  cases r with
  | master => exact h.raiseMaster l
  | slave =>
    change (c.raiseSlave l).Wired
    unfold raiseSlave
    split
    · exact h
    · exact serviceSlave (h.congr rfl rfl)

theorem modifyChip {f : Chip → Chip} (h : c.Wired)
    (ho : (f (c.chip r)).output = (c.chip r).output) : (c.modifyChip r f).Wired := by
  cases r with
  | master => exact h.trans ho.symm
  | slave => exact h

/-- A chip's signal is dropped together with its output. -/
theorem dropped {f : Chip → Chip} (h : c.Wired) (hf : (f (c.chip r)).output = false) :
    ((c.dropSignal r).modifyChip r f).Wired := by
  cases r with
  | master => exact hf.symm
  | slave => exact h

theorem poll (h : c.Wired) (r : Role) : (c.poll r).2.Wired := by
  have hd : ((c.dropSignal r).modifyChip r fun chip =>
      { chip with polled := false, output := false }).Wired := h.dropped rfl
  unfold Controller.poll
  dsimp only
  split
  · next l _ =>
    refine service (hd.modifyChip ?_) r
    rw [chip_modifyChip]
    exact Chip.take_output { (c.dropSignal r).chip r with polled := false } l
  · exact hd

theorem readCommand (h : c.Wired) (r : Role) : (c.readCommand r).2.Wired := by
  unfold Controller.readCommand
  dsimp only
  split_ifs
  · exact h.poll r
  · exact h
  · exact h

theorem robust : Robust Wired where
  service h r := h.service r
  modifyChip h ho _ _ := h.modifyChip ho

theorem writeCommand (h : c.Wired) (r : Role) (v : UInt8) : (c.writeCommand r v).Wired := by
  unfold Controller.writeCommand
  split_ifs
  · cases r with
    | master => exact rfl
    | slave => exact h
  · exact robust.modeCommand h r v
  · exact robust.serviceCommand h r v

theorem clearIrq (h : c.Wired) (line : UInt8) : (c.clearIrq line).Wired := by
  unfold Controller.clearIrq
  split
  · exact h.modifyChip rfl
  · exact h

theorem acknowledge (c : Controller) : c.acknowledge.2.Wired := by
  have hover : ∀ d : Chip, Wired { c.handOver with slave := d } :=
    fun _ => (c.master.take_output cascadeLine).symm
  rcases c.master.chosen_or_none with ⟨l, hl⟩ | hn
  · by_cases hc : l = cascadeLine
    · subst hc
      rcases c.slave.chosen_or_none with ⟨m, hm⟩ | hs
      · rw [acknowledge_of_slave_chosen hl hm]
        exact (hover _).serviceSlave.serviceMaster
      · rw [acknowledge_of_slave_none hl hs]
        exact hover _
    · rw [acknowledge_of_chosen hl hc]
      have htaken : Wired { c with intr := false, master := c.master.take l } :=
        (c.master.take_output l).symm
      exact htaken.serviceMaster
  · rw [acknowledge_of_none hn]
    exact rfl

theorem perform (h : c.Wired) (op : Operation) : (c.perform op).Wired := by
  cases op with
  | readPort port =>
    obtain ⟨r, rfl⟩ | ⟨r, rfl⟩ | hport := port_cases port
    · rw [perform_readCommand]
      exact h.readCommand r
    · rw [perform_readData]
      exact h
    · rw [(hport.2 c).1]
      exact h
  | writePort port v =>
    obtain ⟨r, rfl⟩ | ⟨r, rfl⟩ | hport := port_cases port
    · rw [perform_writeCommand]
      exact h.writeCommand r v
    · rw [perform_writeData]
      exact robust.writeData h r v
    · rw [(hport.2 c).2 v]
      exact h
  | raise line =>
    change (c.setIrq line).Wired
    unfold setIrq
    split
    · exact h.raise _ _
    · exact h
  | lower line => exact h.clearIrq line
  | acknowledge => exact acknowledge c
  | request device => exact h.congr rfl rfl
  | releaseIrq line =>
    change (c.releaseIrq line).2.Wired
    unfold releaseIrq
    split
    · exact (h.clearIrq line).congr rfl rfl
    · exact h
  | releaseLine line => exact h.congr rfl rfl
  | setEnabled line on => exact h.congr rfl rfl

end Wired

end Wire

section Forward

/-- The command ends a service without a rotation, or sets modes other than to leave special mask
mode. -/
def Forwards (v : UInt8) : Prop :=
  (v = 0x20 ∨ v &&& 0xF8 = 0x60) ∨ v &&& 0x18 = 0x08 ∧ (v >>> 5) &&& 3 ≠ 2

theorem Forwards.no_initialization {v : UInt8} (h : Forwards v) : v &&& 0x10 = 0 := by
  rcases h with (rfl | h) | ⟨h, -⟩
  · rfl
  · exact (and_eq_of_and_eq (by decide) h).trans rfl
  · exact (and_eq_of_and_eq (by decide) h).trans rfl

structure Grounded (c : Controller) : Prop where
  master : c.master.Backed
  slave : c.slave.Backed

namespace Grounded

variable {c : Controller} {r : Role}

theorem modifyChip {f : Chip → Chip} (h : c.Grounded) (hf : (c.chip r).Widens (f (c.chip r))) :
    (c.modifyChip r f).Grounded := by
  cases r with
  | master => exact ⟨h.master.widen hf, h.slave⟩
  | slave => exact ⟨h.master, h.slave.widen hf⟩

theorem serviceMaster (h : c.Grounded) : c.serviceMaster.Grounded := by
  unfold Controller.serviceMaster
  split
  · exact ⟨signal_backed ‹_›, h.slave⟩
  · exact h

theorem raiseMaster (h : c.Grounded) (l : Line) : (c.raiseMaster l).Grounded := by
  unfold Controller.raiseMaster
  split
  · exact h
  · exact serviceMaster ⟨h.master.widen (raise_widens _ l), h.slave⟩

theorem serviceSlave (h : c.Grounded) : c.serviceSlave.Grounded := by
  unfold Controller.serviceSlave
  split
  · next l hl =>
    have hsignalled : Grounded { c with slave := c.slave.signal l } :=
      ⟨h.master, signal_backed hl⟩
    exact hsignalled.raiseMaster cascadeLine
  · exact h

theorem service (h : c.Grounded) (r : Role) : (c.service r).Grounded := by
  cases r with
  | master => exact h.serviceMaster
  | slave => exact h.serviceSlave

theorem raise (h : c.Grounded) (r : Role) (l : Line) : (c.raise r l).Grounded := by
  cases r with
  | master => exact h.raiseMaster l
  | slave =>
    change (c.raiseSlave l).Grounded
    unfold raiseSlave
    split
    · exact h
    · exact serviceSlave ⟨h.master, h.slave.widen (raise_widens _ l)⟩

/-- A cycle drops the outputs of the chips asked, and what rises afterwards is backed. -/
theorem acknowledge (h : c.Grounded) : c.acknowledge.2.Grounded := by
  have hout := fun l => backed_of_low (c.master.take_output l)
  rcases c.master.chosen_or_none with ⟨l, hl⟩ | hn
  · by_cases hc : l = cascadeLine
    · subst hc
      have hover : c.handOver.master.Backed := hout cascadeLine
      rcases c.slave.chosen_or_none with ⟨m, hm⟩ | hs
      · rw [acknowledge_of_slave_chosen hl hm]
        have htaken : Grounded { c.handOver with slave := c.slave.take m } :=
          ⟨hover, backed_of_low (c.slave.take_output m)⟩
        exact htaken.serviceSlave.serviceMaster
      · rw [acknowledge_of_slave_none hl hs]
        exact ⟨hover, backed_of_low rfl⟩
    · rw [acknowledge_of_chosen hl hc]
      exact serviceMaster ⟨hout l, h.slave⟩
  · rw [acknowledge_of_none hn]
    exact ⟨backed_of_low rfl, h.slave⟩

theorem modeCommand (h : c.Grounded) (r : Role) {v : UInt8} (hv : (v >>> 5) &&& 3 ≠ 2) :
    (c.modeCommand r v).Grounded := by
  have hmodes : (c.modifyChip r fun chip => chip.setModes v).Grounded :=
    h.modifyChip (setModes_widens hv)
  unfold Controller.modeCommand
  dsimp only
  split_ifs
  · exact hmodes.modifyChip ⟨rfl, fun _ => id⟩
  · exact service (hmodes.modifyChip ⟨rfl, fun _ => id⟩) r
  · exact hmodes.service r

theorem serviceCommand (h : c.Grounded) (r : Role) {v : UInt8}
    (hv : v = 0x20 ∨ v &&& 0xF8 = 0x60) : (c.serviceCommand r v).Grounded := by
  have hend : ∀ l, (c.modifyChip r fun chip => chip.endService l).Grounded :=
    fun l => h.modifyChip (endService_widens _ l)
  rcases hv with rfl | hv
  · change ((c.endHighest r false).service r).Grounded
    refine service ?_ r
    unfold Controller.endHighest
    split
    · exact hend _
    · exact h
  · have hne : ∀ w : UInt8, w &&& 0xF8 ≠ 0x60 → (v == w) = false := by
      intro w hw
      rw [beq_eq_false_iff_ne]
      rintro rfl
      exact hw hv
    unfold Controller.serviceCommand
    simp only [hne 0x00 (by decide), hne 0x80 (by decide), hne 0x20 (by decide),
      hne 0xA0 (by decide), hv, Bool.or_false, Bool.false_eq_true, if_false]
    exact (hend _).service r

theorem writeCommand (h : c.Grounded) (r : Role) {v : UInt8} (hv : Forwards v) :
    (c.writeCommand r v).Grounded := by
  obtain he | ⟨hm, hs⟩ := hv
  · have hm : v &&& 0x18 = 0 := by
      rcases he with rfl | he
      · rfl
      · exact (and_eq_of_and_eq (by decide) he).trans rfl
    rw [writeCommand_service c r hm]
    exact h.serviceCommand r he
  · rw [writeCommand_mode c r hm]
    exact h.modeCommand r hs

theorem writeData (h : c.Grounded) (r : Role) {v : UInt8}
    (hv : ∀ l, LineSet.contains ⟨v⟩ l = true → (c.chip r).imr.contains l = true) :
    (c.writeData r v).Grounded := by
  unfold Controller.writeData
  split
  · exact h.modifyChip (initializationWord_widens _ v)
  · have hmask : (c.modifyChip r fun chip => { chip with imr := ⟨v⟩ }).Grounded :=
      h.modifyChip (unmask_widens hv)
    exact hmask.service r

end Grounded

/-- The operation withdraws no request and puts none behind another: lines are raised, other than
the one between the chips, services are ended without a rotation, the mask is only cleared, and the
processor answers the request it sees. -/
def Forward (c : Controller) : Operation → Prop
  | .readPort port => ∀ r : Role, port = r.commandPort → (c.chip r).polled = false
  | .writePort port v =>
    (∀ r : Role, port = r.commandPort → Forwards v) ∧
    ∀ r : Role, port = r.dataPort →
      ∀ l, LineSet.contains ⟨v⟩ l = true → (c.chip r).imr.contains l = true
  | .raise line => line ≠ 2
  | .acknowledge => c.intr = true
  | .lower _ | .releaseIrq _ => False
  | .request _ | .releaseLine _ | .setEnabled _ _ => True

theorem Forward.not_severs {c : Controller} {op : Operation} (h : Forward c op) :
    ¬c.SeversLink op := by
  cases op with
  | readPort port =>
    rintro ⟨hp, hs⟩
    have hunpolled : c.master.polled = false := h .master hp
    exact Bool.false_ne_true (hunpolled.symm.trans hs)
  | writePort port v =>
    rintro ⟨hp, hs⟩
    exact hs (h.1 .master hp).no_initialization
  | raise line => exact h
  | lower line => exact h.elim
  | acknowledge => exact id
  | request device => exact id
  | releaseIrq line => exact h.elim
  | releaseLine line => exact id
  | setEnabled line on => exact id

/-- One operation leaves what rose backed. -/
theorem Grounded.perform {c : Controller} (h : c.Grounded) {op : Operation} (hop : Forward c op) :
    (c.perform op).Grounded := by
  cases op with
  | readPort port =>
    obtain ⟨r, rfl⟩ | ⟨r, rfl⟩ | hport := port_cases port
    · -- no poll is announced, so the port only reports a register
      have hread : (c.readCommand r).2 = c := by
        unfold Controller.readCommand
        dsimp only
        rw [if_neg (by simp [hop r rfl])]
        split <;> rfl
      rw [perform_readCommand, hread]
      exact h
    · rw [perform_readData]
      exact h
    · rw [(hport.2 c).1]
      exact h
  | writePort port v =>
    obtain ⟨r, rfl⟩ | ⟨r, rfl⟩ | hport := port_cases port
    · rw [perform_writeCommand]
      exact h.writeCommand r (hop.1 r rfl)
    · rw [perform_writeData]
      exact h.writeData r (hop.2 r rfl)
    · rw [(hport.2 c).2 v]
      exact h
  | raise line =>
    change (c.setIrq line).Grounded
    unfold setIrq
    split
    · exact h.raise _ _
    · exact h
  | lower line => exact hop.elim
  | acknowledge => exact h.acknowledge
  | request device => exact ⟨h.master, h.slave⟩
  | releaseIrq line => exact hop.elim
  | releaseLine line => exact ⟨h.master, h.slave⟩
  | setEnabled line on => exact ⟨h.master, h.slave⟩

/-- When the processor sees a request, the chips asked have a line to serve. -/
theorem Grounded.due {c : Controller} (h : c.Grounded) (hl : c.Linked) (hw : c.Wired)
    (hi : c.intr = true) : ∃ r l, (Outcome.served r l).Due c := by
  obtain ⟨l, hq⟩ := h.master (hw.symm.trans hi)
  obtain ⟨l, hc⟩ := c.master.chosen_or_none.resolve_right fun hn => hn l hq
  by_cases hlink : l = cascadeLine
  · -- the request between the chips shows that the slave's output is held
    subst hlink
    obtain ⟨m, hq⟩ := h.slave (hl.2.symm.trans hc.1.1)
    obtain ⟨m, hm⟩ := c.slave.chosen_or_none.resolve_right fun hn => hn m hq
    exact ⟨.slave, m, hc, hm⟩
  · exact ⟨.master, l, hc, hlink⟩

/-- A state with no request, no level and nothing signalled, whatever the services, masks, rotations
and modes. -/
structure Quiet (c : Controller) : Prop where
  irr : ∀ r, (c.chip r).irr = .empty
  levels : ∀ r, (c.chip r).levels = .empty
  output : ∀ r, (c.chip r).output = false
  wired : c.Wired

theorem Quiet.grounded {c : Controller} (h : c.Quiet) : c.Grounded :=
  ⟨backed_of_low (h.output .master), backed_of_low (h.output .slave)⟩

theorem Quiet.linked {c : Controller} (h : c.Quiet) : c.Linked := by
  have hl : c.master.levels = .empty := h.levels .master
  have hr : c.master.irr = .empty := h.irr .master
  have ho : c.slave.output = false := h.output .slave
  refine ⟨?_, ?_⟩
  · rw [hl, ho, LineSet.contains_empty]
  · rw [hr, ho, LineSet.contains_empty]

theorem Grounded.due_of_run {c : Controller} (h : c.Grounded) (hl : c.Linked) (hw : c.Wired)
    {ops : List Operation} (hops : c.Throughout Forward (ops ++ [.acknowledge])) :
    ∃ r l, (Outcome.served r l).Due (c.performAll ops) := by
  induction ops generalizing c with
  | nil => exact h.due hl hw hops.1
  | cons op ops ih =>
    exact ih (h.perform hops.1) (hl.perform hops.1.not_severs) (hw.perform op) hops.2

theorem Throughout.of_prefix {p : Controller → Operation → Prop} {c : Controller}
    {ops ops' : List Operation} (h : c.Throughout p ops') (hpre : ops <+: ops') :
    c.Throughout p ops := by
  induction ops generalizing c ops' with
  | nil => trivial
  | cons op ops ih =>
    obtain ⟨rest, rfl⟩ := hpre
    exact ⟨h.1, ih h.2 (List.prefix_append _ _)⟩

/-- From a quiet state no cycle of a run is spurious: each accepts a line of the master that is
pending, and if that is the slave's one of the slave, and gives the accepted line's vector. -/
theorem never_spurious {c : Controller} (hc : c.Quiet) {ops : List Operation}
    (hops : c.Throughout Forward ops) {before : List Operation}
    (hpre : before ++ [.acknowledge] <+: ops) :
    let d := c.performAll before
    (∃ r l, (Outcome.served r l).Due d ∧ (Outcome.served r l).Effect d d.acknowledge.2 ∧
      (d.chip r).isPending l = true ∧ d.acknowledge.1 = (d.chip r).vector l) ∧
    ∀ r, ¬(Outcome.spurious r).Due d := by
  intro d
  obtain ⟨r, l, hdue⟩ := hc.grounded.due_of_run hc.linked hc.wired (hops.of_prefix hpre)
  obtain ⟨o, ho, hv, he⟩ := d.acknowledge_due
  obtain rfl := ho.unique hdue
  have hq : (d.chip r).Qualifies l := he.serves.chosen.1
  refine ⟨⟨r, l, hdue, he, ?_, hv⟩, fun r' hs => ?_⟩
  · simp [isPending, hq.1, hq.2.1]
  · cases hdue.unique hs

instance {p : Role → Prop} [DecidablePred p] : Decidable (∀ r, p r) :=
  decidable_of_iff (p .master ∧ p .slave)
    ⟨fun h => Role.rec h.1 h.2, fun h => ⟨h .master, h .slave⟩⟩

instance (v : UInt8) : Decidable (Forwards v) :=
  inferInstanceAs (Decidable ((_ ∨ _) ∨ _ ∧ _))

instance (c : Controller) : (op : Operation) → Decidable (Forward c op)
  | .writePort _ _ =>
    inferInstanceAs (Decidable ((∀ _r : Role, _ → _) ∧ ∀ _r : Role, _ → _))
  | .readPort _ => inferInstanceAs (Decidable (∀ _r : Role, _ → _))
  | .raise _ => inferInstanceAs (Decidable (_ ≠ _))
  | .acknowledge => inferInstanceAs (Decidable (_ = _))
  | .lower _ | .releaseIrq _ => .isFalse id
  | .request _ | .releaseLine _ | .setEnabled _ _ => .isTrue trivial

/-- Line 4 comes before line 1 after the rotation and is served between the rise of the slave's
output and the cycle that answers it. -/
theorem clock_genuine :
    let c : Controller :=
      { initial with
        master := { initial.master with lowestPriority := 3 }
        slave := { initial.slave with autoEoi := true } }
    let before : List Operation :=
      [.request .keyboard, .request .serial, .request .clock, .writePort 0x21 0x00,
        .writePort 0xA1 0x00, .raise 8, .raise 1, .raise 4, .acknowledge, .readPort 0x20,
        .writePort 0x20 0x64, .acknowledge, .writePort 0x20 0x20]
    let d := c.performAll before
    (∃ r l, (d.chip r).isPending l = true ∧ d.acknowledge.1 = (d.chip r).vector l) ∧
      ¬(Outcome.spurious .slave).Due d := by
  intro c before d
  have hc : c.Quiet :=
    { irr := by decide
      levels := by decide
      output := by decide
      wired := rfl }
  have hops : c.Throughout Forward (before ++ [.acknowledge]) := by decide
  obtain ⟨⟨r, l, -, -, hl, hv⟩, hspurious⟩ := never_spurious hc hops List.prefix_rfl
  exact ⟨⟨r, l, hl, hv⟩, hspurious .slave⟩

end Forward

end Controller

end Pc8086.Interrupt

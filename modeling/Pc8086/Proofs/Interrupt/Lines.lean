import Pc8086.Proofs.Interrupt.Cascade

namespace Pc8086.Interrupt

open Controller (cascadeLine)

structure LineState where
  requested : Bool
  high : Bool
  served : Bool
  deriving DecidableEq

def LineState.accepted (s : LineState) (autoEoi : Bool) : LineState :=
  { s with requested := false, served := s.served || !autoEoi }

namespace Chip

def line (c : Chip) (l : Line) : LineState :=
  ⟨c.irr.contains l, c.levels.contains l, c.isr.contains l⟩

theorem take_line (c : Chip) (k l : Line) :
    (c.take k).line l = if l = k then (c.line l).accepted c.autoEoi else c.line l := by
  rw [take_eq]
  unfold line LineState.accepted
  by_cases h : l = k
  · cases c.autoEoi <;> simp [h]
  · cases c.autoEoi <;> simp [h]

theorem raise_line (c : Chip) (k l : Line) :
    (c.raise k).line l =
      if l = k then { c.line l with requested := true, high := true } else c.line l := by
  unfold line raise
  by_cases h : l = k <;> simp [h]

theorem lower_line (c : Chip) (k l : Line) :
    (c.lower k).line l =
      if l = k then { c.line l with requested := false, high := false } else c.line l := by
  unfold line lower
  by_cases h : l = k <;> simp [h]

theorem endService_line (c : Chip) (k l : Line) :
    (c.endService k).line l = if l = k then { c.line l with served := false } else c.line l := by
  unfold line endService
  by_cases h : l = k <;> simp [h]

theorem beginInitialization_line (c : Chip) (v : UInt8) (l : Line) :
    (c.beginInitialization v).line l =
      { c.line l with requested := false, served := false } := by
  unfold line beginInitialization
  simp

theorem initializationWord_line (c : Chip) (v : UInt8) (l : Line) :
    (c.initializationWord v).line l = c.line l := by
  unfold initializationWord
  dsimp only
  split <;> rfl

theorem setModes_line (c : Chip) (v : UInt8) (l : Line) : (c.setModes v).line l = c.line l := by
  unfold setModes
  split <;> rfl

/-- A line that is accepted was requested and not in service. -/
theorem Chosen.line {c : Chip} {l : Line} (h : c.Chosen l) :
    (c.line l).requested = true ∧ (c.line l).served = false :=
  ⟨h.1.1, h.1.not_in_service⟩

/-- Taking the chosen line accepts it and nothing else. -/
theorem Chosen.take_line {c : Chip} {k : Line} (h : c.Chosen k) (l : Line) :
    (c.take k).line l = if c.Chosen l then (c.line l).accepted c.autoEoi else c.line l := by
  have hiff : l = k ↔ c.Chosen l := ⟨fun hl => hl ▸ h, fun hl => hl.unique h⟩
  rw [Chip.take_line]
  exact if_congr hiff rfl rfl

theorem AgreesOffLink.line {c d : Chip} (h : c.AgreesOffLink d) {l : Line} (hl : l ≠ cascadeLine) :
    d.line l = c.line l := by
  unfold Chip.line
  rw [h.requests l hl, h.levels l hl, h.isr_eq]

end Chip

namespace Controller

open Chip

variable {c d : Controller} {r r' : Role} {l : Line}

theorem serviceMaster_line (c : Controller) (r : Role) (l : Line) :
    (c.serviceMaster.chip r).line l = (c.chip r).line l := by
  cases r with
  | master =>
    change c.serviceMaster.master.line l = c.master.line l
    unfold Chip.line
    rw [serviceMaster_irr, serviceMaster_isr, serviceMaster_levels]
  | slave =>
    change c.serviceMaster.slave.line l = c.slave.line l
    rw [serviceMaster_slave]

theorem service_line (h : r = .master → l ≠ cascadeLine) (c : Controller) (r' : Role) :
    ((c.service r').chip r).line l = (c.chip r).line l := by
  cases r' with
  | master => exact c.serviceMaster_line r l
  | slave =>
    cases r with
    | master => exact (serviceSlave_agrees c).line (h rfl)
    | slave =>
      change c.serviceSlave.slave.line l = c.slave.line l
      obtain hs | ⟨m, hs⟩ := c.serviceSlave_slave
      · rw [hs]
      · rw [hs]
        rfl

theorem ActsOn.line_elsewhere (h : ActsOn r' c d) (hr : r ≠ r')
    (hl : r = .master → l ≠ cascadeLine) : (d.chip r).line l = (c.chip r).line l := by
  cases r with
  | master =>
    cases r' with
    | master => exact absurd rfl hr
    | slave => exact h.master_agrees.line (hl rfl)
  | slave =>
    cases r' with
    | master =>
      change d.slave.line l = c.slave.line l
      rw [h.slave_eq]
    | slave => exact absurd rfl hr

theorem modifyChip_service_line (h : r = .master → l ≠ cascadeLine) (f : Chip → Chip) :
    (((c.modifyChip r f).service r).chip r).line l = (f (c.chip r)).line l := by
  rw [service_line h, chip_modifyChip]

/-- Raising a line makes a request of it if it was low. -/
theorem raise_line (h : r = .master → l ≠ cascadeLine) (k : Line) :
    ((c.raise r k).chip r).line l =
      if l = k ∧ ((c.chip r).line l).high = false then
        { (c.chip r).line l with requested := true, high := true }
      else (c.chip r).line l := by
  have hraise : c.raise r k = if (c.chip r).levels.contains k then c
      else (c.modifyChip r fun chip => chip.raise k).service r := by
    cases r <;> rfl
  rw [hraise]
  by_cases hk : (c.chip r).levels.contains k = true
  · rw [if_pos hk, if_neg]
    rintro ⟨rfl, hlow⟩
    exact Bool.false_ne_true (hlow.symm.trans hk)
  · rw [if_neg hk, modifyChip_service_line h, Chip.raise_line]
    by_cases hl : l = k
    · subst hl
      have hlow : ((c.chip r).line l).high = false := by simpa [Chip.line] using hk
      rw [if_pos rfl, if_pos ⟨rfl, hlow⟩]
    · rw [if_neg hl, if_neg fun hc => hl hc.1]

theorem chip_dropSignal (c : Controller) (r : Role) : (c.dropSignal r).chip r = c.chip r := by
  cases r <;> rfl

theorem poll_of_chosen {k : Line} (hk : (c.chip r).Chosen k) :
    c.poll r = (0x80 ||| UInt8.ofNat k.val,
      ((c.dropSignal r).modifyChip r fun chip => Chip.take { chip with polled := false } k).service
        r) := by
  have hs : Chip.resolve { c.chip r with polled := false, output := false } = some k :=
    resolve_dropped_eq_some (c := { c.chip r with polled := false }) hk
  unfold poll
  dsimp only
  rw [chip_modifyChip, chip_dropSignal, hs]
  cases r <;> rfl

theorem poll_of_none (hk : ∀ k, ¬(c.chip r).Qualifies k) :
    c.poll r = (0, (c.dropSignal r).modifyChip r fun chip =>
      { chip with polled := false, output := false }) := by
  have hs : Chip.resolve { c.chip r with polled := false, output := false } = none :=
    resolve_dropped_eq_none (c := { c.chip r with polled := false }) hk
  unfold poll
  dsimp only
  rw [chip_modifyChip, chip_dropSignal, hs]

/-- A poll accepts the chosen line. -/
theorem poll_line (h : r = .master → l ≠ cascadeLine) :
    ((c.poll r).2.chip r).line l =
      if (c.chip r).Chosen l then ((c.chip r).line l).accepted (c.chip r).autoEoi
      else (c.chip r).line l := by
  rcases (c.chip r).chosen_or_none with ⟨k, hk⟩ | hk
  · have ht := Chosen.take_line (c := { c.chip r with polled := false }) hk l
    rw [poll_of_chosen hk, modifyChip_service_line h, chip_dropSignal, ht]
    rfl
  · rw [poll_of_none hk, chip_modifyChip, chip_dropSignal, if_neg fun hc => hk l hc.1]
    rfl

theorem readCommand_line (h : r = .master → l ≠ cascadeLine) :
    ((c.readCommand r).2.chip r).line l =
      if (c.chip r).polled = true ∧ (c.chip r).Chosen l then
        ((c.chip r).line l).accepted (c.chip r).autoEoi
      else (c.chip r).line l := by
  unfold readCommand
  dsimp only
  by_cases hp : (c.chip r).polled = true
  · rw [if_pos hp, poll_line h]
    simp [hp]
  · have hn : ¬((c.chip r).polled = true ∧ (c.chip r).Chosen l) := fun hc => hp hc.1
    rw [if_neg hp, if_neg hn]
    split <;> rfl

theorem beginInitialization_line (c : Controller) (r : Role) (v : UInt8) (l : Line) :
    ((c.beginInitialization r v).chip r).line l =
      { (c.chip r).line l with requested := false, served := false } := by
  unfold beginInitialization
  rw [chip_dropSignal, chip_modifyChip, Chip.beginInitialization_line]

theorem modeCommand_line (h : r = .master → l ≠ cascadeLine) (v : UInt8) :
    ((c.modeCommand r v).chip r).line l = (c.chip r).line l := by
  have hm : ((c.modifyChip r fun chip => chip.setModes v).chip r).line l = (c.chip r).line l := by
    rw [chip_modifyChip, setModes_line]
  unfold modeCommand
  dsimp only
  split_ifs
  · rw [chip_modifyChip]
    exact hm
  · rw [modifyChip_service_line h]
    exact hm
  · rw [service_line h]
    exact hm

theorem writeData_line (h : r = .master → l ≠ cascadeLine) (v : UInt8) :
    ((c.writeData r v).chip r).line l = (c.chip r).line l := by
  unfold writeData
  split
  · rw [chip_modifyChip, initializationWord_line]
  · rw [modifyChip_service_line h]
    rfl

def isEndOfInterrupt (v : UInt8) : Bool :=
  v == 0x20 || v == 0xA0 || v &&& 0xF8 == 0x60 || v &&& 0xF8 == 0xE0

/-- The line with its service left as it is or ended. -/
structure Relieved (s t : LineState) : Prop where
  requested : t.requested = s.requested
  high : t.high = s.high
  served : t.served = true → s.served = true

theorem Relieved.refl (s : LineState) : Relieved s s :=
  ⟨rfl, rfl, id⟩

theorem endService_relieved (c : Chip) (k l : Line) :
    Relieved (c.line l) ((c.endService k).line l) := by
  rw [endService_line]
  split
  · exact ⟨rfl, rfl, nofun⟩
  · exact .refl _

theorem endHighest_relieved (c : Controller) (r : Role) (rotating : Bool) (l : Line) :
    Relieved ((c.chip r).line l) (((c.endHighest r rotating).chip r).line l) := by
  unfold endHighest
  split
  · next k _ =>
    rw [chip_modifyChip]
    cases rotating
    · exact endService_relieved (c.chip r) k l
    · exact endService_relieved (c.chip r) k l
  · exact .refl _

/-- An OCW2 command ends at most the service, and only an end of interrupt does. -/
theorem serviceCommand_relieved (h : r = .master → l ≠ cascadeLine) (v : UInt8) :
    Relieved ((c.chip r).line l) (((c.serviceCommand r v).chip r).line l) ∧
      (isEndOfInterrupt v = false →
        ((c.serviceCommand r v).chip r).line l = (c.chip r).line l) := by
  unfold serviceCommand
  dsimp only
  split_ifs with h0 h1
  · rw [chip_modifyChip]
    exact ⟨.refl _, fun _ => rfl⟩
  · rw [service_line h]
    refine ⟨endHighest_relieved c r _ l, fun he => ?_⟩
    simp only [isEndOfInterrupt, Bool.or_eq_false_iff] at he
    simp [he] at h1
  · split
    · next h2 =>
      rw [modifyChip_service_line h]
      refine ⟨endService_relieved _ _ l, fun he => ?_⟩
      simp [isEndOfInterrupt, h2] at he
    · rw [modifyChip_service_line h]
      exact ⟨.refl _, fun _ => rfl⟩
    · next h2 =>
      rw [modifyChip_service_line h]
      refine ⟨endService_relieved (c.chip r) _ l, fun he => ?_⟩
      simp [isEndOfInterrupt, h2] at he
    · exact ⟨.refl _, fun _ => rfl⟩

theorem writeCommand_initializing {v : UInt8} (hv : v &&& 0x10 ≠ 0) (l : Line) :
    ((c.writeCommand r v).chip r).line l =
      { (c.chip r).line l with requested := false, served := false } := by
  unfold writeCommand
  rw [if_pos (bne_iff_ne.2 hv), beginInitialization_line]

theorem writeCommand_relieved (h : r = .master → l ≠ cascadeLine) {v : UInt8}
    (hv : v &&& 0x10 = 0) :
    Relieved ((c.chip r).line l) (((c.writeCommand r v).chip r).line l) ∧
      (isEndOfInterrupt v = false →
        ((c.writeCommand r v).chip r).line l = (c.chip r).line l) := by
  unfold writeCommand
  rw [if_neg (by simp [hv])]
  split_ifs
  · rw [modeCommand_line h]
    exact ⟨.refl _, fun _ => rfl⟩
  · exact serviceCommand_relieved h v

instance (c : Controller) : (o : Outcome) → Decidable (o.Due c)
  | .served .master _ => inferInstanceAs (Decidable (_ ∧ _))
  | .served .slave _ => inferInstanceAs (Decidable (_ ∧ _))
  | .spurious .master => inferInstanceAs (Decidable (∀ l, ¬c.master.Qualifies l))
  | .spurious .slave => inferInstanceAs (Decidable (_ ∧ ∀ l, ¬c.slave.Qualifies l))

theorem handOver_line (c : Controller) (hl : l ≠ cascadeLine) :
    c.handOver.master.line l = c.master.line l := by
  have ht : (c.master.take cascadeLine).line l = c.master.line l := by
    rw [take_line, if_neg hl]
  rw [← ht]
  unfold Chip.line handOver
  simp [hl]

/-- A cycle accepts the line whose turn it is; all others stay as they are. -/
theorem acknowledge_line (h : r = .master → l ≠ cascadeLine) :
    (c.acknowledge.2.chip r).line l =
      if (Outcome.served r l).Due c then ((c.chip r).line l).accepted (c.chip r).autoEoi
      else (c.chip r).line l := by
  -- the master's choice decides whose turn it is: its own line, the slave's, or nobody's
  rcases c.master.chosen_or_none with ⟨k, hk⟩ | hk
  · by_cases hc : k = cascadeLine
    · subst hc
      rcases c.slave.chosen_or_none with ⟨m, hm⟩ | hm
      · rw [acknowledge_of_slave_chosen hk hm]
        change ((service (service { c.handOver with slave := c.slave.take m } .slave) .master).chip
          r).line l = _
        rw [service_line h, service_line h]
        cases r with
        | master =>
          have hn : ¬(Outcome.served .master l).Due c := fun hd => hd.2 (hd.1.unique hk)
          rw [if_neg hn]
          exact handOver_line c (h rfl)
        | slave =>
          have hd : c.slave.Chosen l ↔ (Outcome.served .slave l).Due c :=
            ⟨fun hl => ⟨hk, hl⟩, fun hd => hd.2⟩
          exact (hm.take_line l).trans (if_congr hd rfl rfl)
      · rw [acknowledge_of_slave_none hk hm]
        cases r with
        | master =>
          have hn : ¬(Outcome.served .master l).Due c := fun hd => hd.2 (hd.1.unique hk)
          rw [if_neg hn]
          exact handOver_line c (h rfl)
        | slave =>
          have hn : ¬(Outcome.served .slave l).Due c := fun hd => hm l hd.2.1
          rw [if_neg hn]
          rfl
    · rw [acknowledge_of_chosen hk hc, serviceMaster_line]
      cases r with
      | master =>
        have hd : c.master.Chosen l ↔ (Outcome.served .master l).Due c :=
          ⟨fun hl => ⟨hl, hl.unique hk ▸ hc⟩, fun hd => hd.1⟩
        exact (hk.take_line l).trans (if_congr hd rfl rfl)
      | slave =>
        have hn : ¬(Outcome.served .slave l).Due c := fun hd => hc (hk.unique hd.1)
        rw [if_neg hn]
        rfl
  · rw [acknowledge_of_none hk]
    have hn : ¬(Outcome.served r l).Due c := by
      cases r with
      | master => exact fun hd => hk l hd.1.1
      | slave => exact fun hd => hk cascadeLine hd.1.1
    rw [if_neg hn]
    cases r <;> rfl

theorem chosen_of_due (h : (Outcome.served r l).Due c) : (c.chip r).Chosen l := by
  cases r with
  | master => exact h.1
  | slave => exact h.2

end Controller

end Pc8086.Interrupt

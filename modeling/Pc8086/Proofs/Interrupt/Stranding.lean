import Mathlib.Data.List.Induction
import Pc8086.Proofs.Interrupt.Acknowledge

namespace Pc8086.Interrupt.Controller

open Chip

section Attended

variable {c d : Controller} {r r' : Role}

theorem modifyChip_attended {f : Chip → Chip} (hf : (c.chip r).Attended → (f (c.chip r)).Attended)
    (h : (c.chip r').Attended) : ((c.modifyChip r f).chip r').Attended := by
  by_cases hr : r' = r
  · subst hr
    rw [chip_modifyChip]
    exact hf h
  · rw [chip_modifyChip_of_ne c hr]
    exact h

/-- A change to one chip alone is made good by servicing that chip. -/
theorem service_attended_of_frame (hd : r' ≠ r → d.chip r' = c.chip r')
    (h : (c.chip r').Attended) : ((d.service r).chip r').Attended := by
  by_cases hr : r' = r
  · subst hr
    exact d.service_attended r'
  · refine service_keeps_attended ?_ r
    rw [hd hr]
    exact h

theorem modifyChip_service_attended (f : Chip → Chip) (h : (c.chip r').Attended) :
    (((c.modifyChip r f).service r).chip r').Attended :=
  service_attended_of_frame (fun hr => chip_modifyChip_of_ne c hr f) h

theorem dropSignal_attended (h : (c.chip r').Attended) : ((c.dropSignal r).chip r').Attended := by
  cases r with
  | master =>
    cases r' with
    | master => exact h
    | slave => exact h
  | slave =>
    cases r' with
    | master => exact Attended.lower h cascadeLine
    | slave => exact h

theorem raise_attended (l : Line) (h : (c.chip r').Attended) :
    ((c.raise r l).chip r').Attended := by
  cases r with
  | master =>
    cases r' with
    | master => exact raiseMaster_attended h l
    | slave =>
      change (c.raiseMaster l).slave.Attended
      rw [raiseMaster_slave]
      exact h
  | slave =>
    change ((c.raiseSlave l).chip r').Attended
    unfold raiseSlave
    split
    · exact h
    · exact modifyChip_service_attended (r := .slave) (fun d => d.raise l) h

theorem setIrq_attended (line : UInt8) (h : (c.chip r').Attended) :
    ((c.setIrq line).chip r').Attended := by
  unfold setIrq
  split
  · exact raise_attended _ h
  · exact h

theorem clearIrq_attended (line : UInt8) (h : (c.chip r').Attended) :
    ((c.clearIrq line).chip r').Attended := by
  unfold clearIrq
  split
  · exact modifyChip_attended (fun h => h.lower _) h
  · exact h

theorem releaseIrq_attended (line : UInt8) (h : (c.chip r').Attended) :
    ((c.releaseIrq line).2.chip r').Attended := by
  unfold releaseIrq
  split
  · exact clearIrq_attended line h
  · exact h

theorem poll_attended (r : Role) (h : (c.chip r').Attended) :
    ((c.poll r).2.chip r').Attended := by
  have hd := dropSignal_attended (r := r) h
  unfold poll
  dsimp only
  split
  · next hs =>
    refine service_attended_of_frame (fun hr => ?_) hd
    rw [chip_modifyChip_of_ne _ hr, chip_modifyChip_of_ne _ hr]
  · next hs => exact modifyChip_attended (fun _ => .inr (.inr (by simpa using hs))) hd

theorem readCommand_attended (r : Role) (h : (c.chip r').Attended) :
    ((c.readCommand r).2.chip r').Attended := by
  unfold readCommand
  dsimp only
  split_ifs
  · exact poll_attended r h
  · exact h
  · exact h

theorem beginInitialization_attended (v : UInt8) (h : (c.chip r').Attended) :
    ((c.beginInitialization r v).chip r').Attended := by
  refine dropSignal_attended (modifyChip_attended (fun _ => ?_) h)
  refine (attended_iff _).2 (.inr (.inr fun l hl => ?_))
  have hr : LineSet.empty.contains l = true := hl.1
  simp at hr

theorem modeCommand_attended (v : UInt8) (h : (c.chip r').Attended) :
    ((c.modeCommand r v).chip r').Attended := by
  unfold modeCommand
  dsimp only
  by_cases hr : r' = r
  · subst hr
    split_ifs
    · rw [chip_modifyChip]
      exact .inr (.inl rfl)
    · exact service_attended _ _
    · exact service_attended _ _
  · split_ifs
    · rw [chip_modifyChip_of_ne _ hr, chip_modifyChip_of_ne _ hr]
      exact h
    · refine service_keeps_attended ?_ r
      rw [chip_modifyChip_of_ne _ hr, chip_modifyChip_of_ne _ hr]
      exact h
    · exact modifyChip_service_attended _ h

theorem chip_endHighest_of_ne (hr : r' ≠ r) (rotating : Bool) :
    (c.endHighest r rotating).chip r' = c.chip r' := by
  unfold endHighest
  split
  · exact chip_modifyChip_of_ne c hr _
  · rfl

theorem serviceCommand_attended (v : UInt8) (h : (c.chip r').Attended) :
    ((c.serviceCommand r v).chip r').Attended := by
  unfold serviceCommand
  dsimp only
  split_ifs
  · exact modifyChip_attended id h
  · exact service_attended_of_frame (fun hr => chip_endHighest_of_ne hr _) h
  · split
    · exact modifyChip_service_attended _ h
    · exact modifyChip_service_attended _ h
    · exact modifyChip_service_attended _ h
    · exact h

theorem writeCommand_attended (v : UInt8) (h : (c.chip r').Attended) :
    ((c.writeCommand r v).chip r').Attended := by
  unfold writeCommand
  split_ifs
  · exact beginInitialization_attended v h
  · exact modeCommand_attended v h
  · exact serviceCommand_attended v h

/-- Neither the vector base nor the end of interrupt decides what is signalled. -/
theorem initializationWord_attended {c : Chip} (v : UInt8) (h : c.Attended) :
    (c.initializationWord v).Attended := by
  unfold initializationWord
  dsimp only
  split
  · exact h
  · exact h
  · exact h

theorem writeData_attended (v : UInt8) (h : (c.chip r').Attended) :
    ((c.writeData r v).chip r').Attended := by
  unfold writeData
  split
  · exact modifyChip_attended (initializationWord_attended v) h
  · exact modifyChip_service_attended _ h

theorem readPort_attended (port : UInt16) (h : (c.chip r').Attended) :
    ((c.readPort port).2.chip r').Attended := by
  unfold readPort
  split
  · exact readCommand_attended .master h
  · exact h
  · exact readCommand_attended .slave h
  · exact h
  · exact h

theorem writePort_attended (port : UInt16) (v : UInt8) (h : (c.chip r').Attended) :
    ((c.writePort port v).2.chip r').Attended := by
  unfold writePort
  split
  · exact writeCommand_attended v h
  · exact writeData_attended v h
  · exact writeCommand_attended v h
  · exact writeData_attended v h
  · exact h

/-- All but the acknowledge cycle leave an attended chip attended. -/
theorem perform_attended {op : Operation} (hop : op ≠ .acknowledge) (h : (c.chip r').Attended) :
    ((c.perform op).chip r').Attended := by
  cases op with
  | readPort port => exact readPort_attended port h
  | writePort port v => exact writePort_attended port v h
  | raise line => exact setIrq_attended line h
  | lower line => exact clearIrq_attended line h
  | acknowledge => exact absurd rfl hop
  | request device => exact h
  | releaseIrq line => exact releaseIrq_attended line h
  | releaseLine line => exact h
  | setEnabled line on => exact h

end Attended

/-- The acknowledge cycle about to come takes the slave's line off the master, finds that the slave
withdrew its request, and leaves another line of the master that qualifies unannounced. -/
def LosesRequest (c : Controller) : Prop :=
  c.master.Chosen cascadeLine ∧ (∀ l, ¬c.slave.Qualifies l) ∧ c.master.polled = false ∧
    ∃ l, (c.master.take cascadeLine).Qualifies l

/-- With the line in service, a line after it waits for its end of interrupt. -/
theorem LosesRequest.mode {c : Controller} (h : c.LosesRequest) :
    c.master.autoEoi = true ∨ c.master.specialMask = true := by
  obtain ⟨hc, -, -, l, hl⟩ := h
  by_contra hm
  rw [not_or, Bool.not_eq_true, Bool.not_eq_true] at hm
  obtain ⟨ha, hs⟩ := hm
  obtain ⟨hr, hi, hf⟩ := hl
  rw [take_specialMask, hs, if_neg Bool.false_ne_true, take_isr, ha,
    if_neg Bool.false_ne_true] at hf
  -- a line before the slave's would have qualified before and been chosen in its place
  have hbefore := hf cascadeLine (by simp)
  rw [take_rank ha, take_rank ha] at hbefore
  rw [take_irr, LineSet.contains_erase, Bool.and_eq_true] at hr
  rw [take_imr] at hi
  have hq : c.master.Qualifies l := by
    refine ⟨hr.2, hi, ?_⟩
    rw [hs, if_neg Bool.false_ne_true]
    intro m hm
    have hlm := hf m (by simp [hm])
    rwa [take_rank ha, take_rank ha] at hlm
  have hle := hc.2 l hq
  omega

theorem acknowledge_master_attended_iff (c : Controller) :
    c.acknowledge.2.master.Attended ↔ ¬c.LosesRequest := by
  rcases c.master.chosen_or_none with ⟨l, h⟩ | h
  · by_cases hl : l = cascadeLine
    · subst hl
      rcases c.slave.chosen_or_none with ⟨m, hm⟩ | hs
      · rw [acknowledge_of_slave_chosen h hm]
        exact iff_of_true (serviceMaster_attended _) fun hc => hc.2.1 m hm.1
      · -- the only exit that services neither chip
        rw [acknowledge_of_slave_none h hs, attended_iff]
        change (c.master.take cascadeLine).output = true ∨
          (c.master.take cascadeLine).polled = true ∨
          (∀ l, ¬(c.master.take cascadeLine).Qualifies l) ↔ _
        rw [take_output, take_polled, LosesRequest]
        cases c.master.polled <;> simp [h, hs]
    · rw [acknowledge_of_chosen h hl]
      exact iff_of_true (serviceMaster_attended _) fun hc => hl (h.unique hc.1)
  · rw [acknowledge_of_none h]
    exact iff_of_true ((attended_iff _).2 (.inr (.inr h))) fun hc => h _ hc.1.1

theorem acknowledge_slave_attended {c : Controller} (h : c.slave.Attended) :
    c.acknowledge.2.slave.Attended := by
  rcases c.master.chosen_or_none with ⟨l, hc⟩ | hc
  · by_cases hl : l = cascadeLine
    · subst hl
      rcases c.slave.chosen_or_none with ⟨m, hm⟩ | hs
      · rw [acknowledge_of_slave_chosen hc hm, serviceMaster_slave]
        exact serviceSlave_attended _
      · rw [acknowledge_of_slave_none hc hs]
        exact (attended_iff _).2 (.inr (.inr hs))
    · rw [acknowledge_of_chosen hc hl, serviceMaster_slave]
      exact h
  · rw [acknowledge_of_none hc]
    exact h

theorem withBases_attended (m s : UInt8) (r : Role) : ((withBases m s).chip r).Attended := by
  refine (attended_iff _).2 (.inr (.inr fun l hl => ?_))
  cases r <;> exact Bool.false_ne_true ((LineSet.contains_empty l).symm.trans hl.1)

theorem performAll_slave_attended {c : Controller} (h : c.slave.Attended) (ops : List Operation) :
    (c.performAll ops).slave.Attended := by
  induction ops generalizing c with
  | nil => exact h
  | cons op ops ih =>
    refine ih (c := c.perform op) ?_
    by_cases hop : op = .acknowledge
    · subst hop
      exact acknowledge_slave_attended h
    · have hs : (c.chip .slave).Attended := h
      exact perform_attended hop hs

/-- The master stays attended until an acknowledge cycle loses a request, and no longer. -/
theorem performAll_master_attended_iff {c : Controller} (h : c.master.Attended)
    (ops : List Operation) :
    (∀ pre, pre <+: ops → (c.performAll pre).master.Attended) ↔
      ∀ pre, pre ++ [.acknowledge] <+: ops → ¬(c.performAll pre).LosesRequest := by
  constructor
  · intro hall pre hpre
    have hnext := hall _ hpre
    rw [performAll_append, performAll_singleton] at hnext
    exact (acknowledge_master_attended_iff _).1 hnext
  · intro hnot pre
    induction pre using List.reverseRecOn with
    | nil => exact fun _ => h
    | append_singleton pre op ih =>
      intro hpre
      have hbefore : ((c.performAll pre).chip .master).Attended :=
        ih ((List.prefix_append _ _).trans hpre)
      rw [performAll_append, performAll_singleton]
      by_cases hop : op = .acknowledge
      · subst hop
        exact (acknowledge_master_attended_iff _).2 (hnot pre hpre)
      · exact perform_attended hop hbefore

/-- No request is stranded on the slave; on the master one is exactly when an acknowledge cycle
loses it. -/
theorem attended_iff_never_loses (m s : UInt8) (ops : List Operation) :
    ((withBases m s).performAll ops).slave.Attended ∧
      ((∀ pre, pre <+: ops → ((withBases m s).performAll pre).master.Attended) ↔
        ∀ pre, pre ++ [.acknowledge] <+: ops → ¬((withBases m s).performAll pre).LosesRequest) :=
  ⟨performAll_slave_attended (withBases_attended m s .slave) ops,
    performAll_master_attended_iff (withBases_attended m s .master) ops⟩

instance (c : Chip) : Decidable c.Attended :=
  inferInstanceAs (Decidable (_ ∨ _ ∨ _))

/-- In special mask mode, the clock's request goes away before its cycle; the serial line's request
then stays behind. -/
theorem serial_stranded :
    ¬(initial.performAll
      [.request .serial, .request .clock, .writePort 0x21 0x00, .writePort 0xA1 0x00,
        .writePort 0x20 0x68, .raise 8, .raise 4, .lower 8, .acknowledge]).master.Attended := by
  decide

end Pc8086.Interrupt.Controller

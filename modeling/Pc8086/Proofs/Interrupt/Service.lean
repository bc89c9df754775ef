import Pc8086.Proofs.Interrupt.Operation
import Pc8086.Proofs.Interrupt.Priority

namespace Pc8086.Interrupt

namespace Chip

/-- Nothing waits unannounced: the output is held, or a poll read is awaited, or no line would be
signalled. -/
def Attended (c : Chip) : Prop :=
  c.output = true ∨ c.polled = true ∨ c.resolve = none

theorem attended_iff (c : Chip) :
    c.Attended ↔ c.output = true ∨ c.polled = true ∨ ∀ l, ¬c.Qualifies l := by
  rw [Attended, resolve_eq_none_iff]
  tauto

theorem signal_attended (c : Chip) (l : Line) : (c.signal l).Attended :=
  .inl rfl

theorem not_qualifies_lower {c : Chip} {l m : Line} (h : ¬c.Qualifies m) :
    ¬(c.lower l).Qualifies m := by
  rintro ⟨hr, hm⟩
  simp only [lower, LineSet.contains_erase, Bool.and_eq_true] at hr
  exact h ⟨hr.2, hm⟩

theorem Attended.lower {c : Chip} (h : c.Attended) (l : Line) : (c.lower l).Attended := by
  rw [attended_iff] at h ⊢
  rcases h with h | h | h
  · exact .inl h
  · exact .inr (.inl h)
  · exact .inr (.inr fun m => not_qualifies_lower (h m))

end Chip

namespace Controller

@[simp] theorem serviceMaster_slave (c : Controller) : c.serviceMaster.slave = c.slave := by
  unfold serviceMaster
  split <;> rfl

@[simp] theorem serviceMaster_irr (c : Controller) :
    c.serviceMaster.master.irr = c.master.irr := by
  unfold serviceMaster
  split <;> rfl

@[simp] theorem serviceMaster_isr (c : Controller) :
    c.serviceMaster.master.isr = c.master.isr := by
  unfold serviceMaster
  split <;> rfl

theorem serviceMaster_attended (c : Controller) : c.serviceMaster.master.Attended := by
  unfold serviceMaster
  split
  · exact Chip.signal_attended _ _
  · exact .inr (.inr ‹_›)

@[simp] theorem raiseMaster_slave (c : Controller) (l : Line) :
    (c.raiseMaster l).slave = c.slave := by
  unfold raiseMaster
  split
  · rfl
  · exact serviceMaster_slave _

@[simp] theorem raiseMaster_isr (c : Controller) (l : Line) :
    (c.raiseMaster l).master.isr = c.master.isr := by
  unfold raiseMaster
  split
  · rfl
  · exact serviceMaster_isr _

theorem raiseMaster_attended {c : Controller} (h : c.master.Attended) (l : Line) :
    (c.raiseMaster l).master.Attended := by
  unfold raiseMaster
  split
  · exact h
  · exact serviceMaster_attended _

theorem serviceSlave_attended (c : Controller) : c.serviceSlave.slave.Attended := by
  unfold serviceSlave
  split
  · rw [raiseMaster_slave]
    exact Chip.signal_attended _ _
  · exact .inr (.inr ‹_›)

theorem serviceSlave_master_attended {c : Controller} (h : c.master.Attended) :
    c.serviceSlave.master.Attended := by
  unfold serviceSlave
  split
  · refine raiseMaster_attended ?_ _
    exact h
  · exact h

/-- A chip that is serviced is attended, whatever it was before. -/
theorem service_attended (c : Controller) (r : Role) : ((c.service r).chip r).Attended := by
  cases r with
  | master => exact c.serviceMaster_attended
  | slave => exact c.serviceSlave_attended

/-- Servicing one chip leaves the other one attended. -/
theorem service_keeps_attended {c : Controller} {r' : Role} (h : (c.chip r').Attended) (r : Role) :
    ((c.service r).chip r').Attended := by
  cases r with
  | master =>
    cases r' with
    | master => exact c.serviceMaster_attended
    | slave =>
      change c.serviceMaster.slave.Attended
      rw [serviceMaster_slave]
      exact h
  | slave =>
    cases r' with
    | master => exact serviceSlave_master_attended h
    | slave => exact c.serviceSlave_attended

end Controller

end Pc8086.Interrupt

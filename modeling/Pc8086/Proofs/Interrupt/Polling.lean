import Pc8086.Proofs.Interrupt.Lines

namespace Pc8086.Interrupt

namespace Chip

def withPolled (c : Chip) (on : Bool) : Chip :=
  { c with polled := on }

@[simp] theorem resolve_withPolled (c : Chip) (on : Bool) :
    (c.withPolled on).resolve = c.resolve := rfl

theorem take_withPolled (c : Chip) (on : Bool) (l : Line) :
    (c.withPolled on).take l = (c.take l).withPolled on := by
  rw [take_eq, take_eq]
  rfl

end Chip

namespace Outcome

def supplier : Outcome → Role
  | served r _ | spurious r => r

/-- What a poll read of that chip is to give: the line with the top bit set, or zero. -/
def status : Outcome → UInt8
  | served _ l => 0x80 ||| UInt8.ofNat l.val
  | spurious _ => 0

end Outcome

namespace Controller

open Chip

variable {c d : Controller} {r : Role} {l : Line}

def awaitPoll (c : Controller) (r : Role) : Controller :=
  c.modifyChip r fun chip => chip.withPolled true

def pollRead (c : Controller) (r : Role) : Option UInt8 × Controller :=
  (c.awaitPoll r).readPort r.commandPort

theorem pollRead_eq (c : Controller) (r : Role) :
    c.pollRead r = (some ((c.awaitPoll r).poll r).1, ((c.awaitPoll r).poll r).2) := by
  have hpolled : ((c.awaitPoll r).chip r).polled = true := by
    rw [awaitPoll, chip_modifyChip]
    rfl
  have hread : (c.awaitPoll r).readCommand r = (c.awaitPoll r).poll r := if_pos hpolled
  rw [← hread]
  cases r <;> rfl

theorem pollRead_of_chosen (h : (c.chip r).Chosen l) :
    c.pollRead r = (some (0x80 ||| UInt8.ofNat l.val),
      ((c.dropSignal r).setChip r (((c.chip r).take l).withPolled false)).service r) := by
  have hl : ((c.awaitPoll r).chip r).Chosen l := by
    rw [awaitPoll, chip_modifyChip]
    exact h
  rw [pollRead_eq, poll_of_chosen hl]
  dsimp only
  rw [← take_withPolled]
  cases r <;> rfl

theorem pollRead_of_none (h : ∀ l, ¬(c.chip r).Qualifies l) :
    c.pollRead r = (some 0,
      (c.dropSignal r).setChip r { c.chip r with polled := false, output := false }) := by
  have hl : ∀ l, ¬((c.awaitPoll r).chip r).Qualifies l := by
    rw [awaitPoll, chip_modifyChip]
    exact h
  rw [pollRead_eq, poll_of_none hl]
  cases r <;> rfl

/-- Signalling takes no account of a poll that is awaited. -/
theorem serviceMaster_withPolled (c : Controller) (on : Bool) :
    serviceMaster { c with master := c.master.withPolled on } =
      { c.serviceMaster with master := c.serviceMaster.master.withPolled on } := by
  unfold serviceMaster
  dsimp only
  rw [resolve_withPolled]
  cases c.master.resolve <;> rfl

theorem serviceSlave_slave_withPolled {on : Bool} (h : d.slave = c.slave.withPolled on) :
    d.serviceSlave.slave = c.serviceSlave.slave.withPolled on := by
  unfold serviceSlave
  rw [h, resolve_withPolled]
  cases c.slave.resolve with
  | none => exact h
  | some l =>
    dsimp only
    rw [raiseMaster_slave, raiseMaster_slave]
    rfl

/-- From any state, the acknowledge cycle and a poll of the chip that supplies its outcome agree:
the poll gives the line served, or zero where the vector is spurious, and leaves that chip as the
cycle does, but for the poll that was awaited. When the chip is the master, this holds of the whole
controller. -/
theorem poll_agrees (c : Controller) :
    ∃ o : Outcome, (∀ o' : Outcome, o'.Due c ↔ o' = o) ∧ c.acknowledge.1 = o.vector c ∧
      o.Effect c c.acknowledge.2 ∧ (c.pollRead o.supplier).1 = some o.status ∧
      (c.pollRead o.supplier).2.chip o.supplier =
        (c.acknowledge.2.chip o.supplier).withPolled false ∧
      (o.supplier = .master → (c.pollRead .master).2 =
        c.acknowledge.2.modifyChip .master fun chip => chip.withPolled false) := by
  obtain ⟨o, hdue, hvector, heffect⟩ := c.acknowledge_due
  refine ⟨o, fun o' => ⟨fun h => h.unique hdue, fun h => h ▸ hdue⟩, hvector, heffect, ?_⟩
  -- on the slave the poll leaves the master alone, and the acknowledge serves it too
  rcases o with ⟨_ | _, l⟩ | _ | _
  case served.master =>
    have hpoll := pollRead_of_chosen (r := .master) hdue.1
    have hwhole : (c.pollRead .master).2 =
        c.acknowledge.2.modifyChip .master fun chip => chip.withPolled false := by
      rw [hpoll, acknowledge_of_chosen hdue.1 hdue.2]
      exact serviceMaster_withPolled { c with intr := false, master := c.master.take l } false
    exact ⟨congrArg Prod.fst hpoll, congrArg (chip · .master) hwhole, fun _ => hwhole⟩
  case served.slave =>
    have hpoll := pollRead_of_chosen (r := .slave) hdue.2
    refine ⟨congrArg Prod.fst hpoll, ?_, nofun⟩
    change (c.pollRead .slave).2.slave = c.acknowledge.2.slave.withPolled false
    rw [hpoll, acknowledge_of_slave_chosen hdue.1 hdue.2, serviceMaster_slave]
    exact serviceSlave_slave_withPolled rfl
  case spurious.master =>
    have hpoll := pollRead_of_none (r := .master) hdue
    have hwhole : (c.pollRead .master).2 =
        c.acknowledge.2.modifyChip .master fun chip => chip.withPolled false := by
      rw [hpoll, acknowledge_of_none hdue]
      rfl
    exact ⟨congrArg Prod.fst hpoll, congrArg (chip · .master) hwhole, fun _ => hwhole⟩
  case spurious.slave =>
    have hpoll := pollRead_of_none (c := c) (r := .slave) hdue.2
    refine ⟨congrArg Prod.fst hpoll, ?_, nofun⟩
    change (c.pollRead .slave).2.slave = c.acknowledge.2.slave.withPolled false
    rw [hpoll, acknowledge_of_slave_none hdue.1 hdue.2]
    rfl

end Controller

end Pc8086.Interrupt

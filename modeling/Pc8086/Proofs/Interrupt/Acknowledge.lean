import Pc8086.Proofs.Interrupt.Service

namespace Pc8086.Interrupt

namespace Chip

/-- The chip after its output was dropped and a line accepted. -/
def take (c : Chip) (l : Line) : Chip :=
  ({ c with output := false } : Chip).accept l

/-- `d` has taken a line of `c` by the rule: the line was chosen, hence neither masked nor in
service, and now it is in service unless that ends by itself. Its own request is left open here. -/
structure Serves (c d : Chip) (l : Line) : Prop where
  chosen : c.Chosen l
  unmasked : c.imr.contains l = false
  fresh : c.isr.contains l = false
  in_service : d.isr.contains l = !c.autoEoi
  others_in_service : ∀ m, m ≠ l → d.isr.contains m = c.isr.contains m
  other_requests : ∀ m, m ≠ l → d.irr.contains m = c.irr.contains m

theorem take_eq (c : Chip) (l : Line) :
    c.take l = { c with
      output := false
      irr := c.irr.erase l
      isr := if c.autoEoi then c.isr else c.isr.insert l
      lowestPriority :=
        if c.autoEoi && c.rotateOnAutoEoi then UInt8.ofNat l.val else c.lowestPriority } := by
  unfold take accept
  cases ha : c.autoEoi <;> cases hr : c.rotateOnAutoEoi <;> simp

@[simp] theorem take_irr (c : Chip) (l : Line) : (c.take l).irr = c.irr.erase l := by
  rw [take_eq]

theorem take_isr (c : Chip) (l : Line) :
    (c.take l).isr = if c.autoEoi then c.isr else c.isr.insert l := by
  rw [take_eq]

@[simp] theorem take_imr (c : Chip) (l : Line) : (c.take l).imr = c.imr := by
  rw [take_eq]

@[simp] theorem take_output (c : Chip) (l : Line) : (c.take l).output = false := by
  rw [take_eq]

@[simp] theorem take_polled (c : Chip) (l : Line) : (c.take l).polled = c.polled := by
  rw [take_eq]

@[simp] theorem take_specialMask (c : Chip) (l : Line) :
    (c.take l).specialMask = c.specialMask := by
  rw [take_eq]

@[simp] theorem take_vectorBase (c : Chip) (l : Line) : (c.take l).vectorBase = c.vectorBase := by
  rw [take_eq]

theorem take_rank {c : Chip} (h : c.autoEoi = false) (l m : Line) :
    (c.take l).rank m = c.rank m := by
  rw [take_eq]
  simp [h, rank, first]

theorem take_request (c : Chip) (l : Line) : (c.take l).irr.contains l = false := by
  simp

theorem take_other_requests (c : Chip) {l m : Line} (h : m ≠ l) :
    (c.take l).irr.contains m = c.irr.contains m := by
  simp [h]

theorem serves_of_chosen {c d : Chip} {l : Line} (h : c.Chosen l) (hs : d.isr = (c.take l).isr)
    (hr : ∀ m, m ≠ l → d.irr.contains m = c.irr.contains m) : c.Serves d l where
  chosen := h
  unmasked := h.1.2.1
  fresh := h.1.not_in_service
  in_service := by
    have hl := h.1.not_in_service
    rw [hs, take_isr]
    cases c.autoEoi <;> simp [hl]
  others_in_service m hm := by
    rw [hs, take_isr]
    split_ifs
    · rfl
    · simp [hm]
  other_requests := hr

theorem resolve_dropped_eq_some {c : Chip} {l : Line} (h : c.Chosen l) :
    Chip.resolve { c with output := false } = some l :=
  (resolve_eq_some_iff _ l).2 ⟨rfl, h⟩

theorem resolve_dropped_eq_none {c : Chip} (h : ∀ l, ¬c.Qualifies l) :
    Chip.resolve { c with output := false } = none :=
  (resolve_eq_none_iff _).2 (.inr h)

end Chip

namespace Controller

open Chip

theorem acknowledge_of_none {c : Controller} (h : ∀ l, ¬c.master.Qualifies l) :
    c.acknowledge = (c.master.vectorBase + 7,
      { c with intr := false, master := { c.master with output := false } }) := by
  simp only [acknowledge, resolve_dropped_eq_none h]
  rfl

theorem acknowledge_of_chosen {c : Controller} {l : Line} (h : c.master.Chosen l)
    (hl : l ≠ cascadeLine) :
    c.acknowledge = (c.master.vectorBase + UInt8.ofNat l.val,
      serviceMaster { c with intr := false, master := c.master.take l }) := by
  have hv : (c.master.take l).vector l = c.master.vectorBase + UInt8.ofNat l.val := by
    rw [vector, take_vectorBase]
  simp only [acknowledge, resolve_dropped_eq_some h, if_neg hl]
  rw [← hv]
  rfl

/-- The controller when the master has taken the line of the slave, whose turn it is now. -/
def handOver (c : Controller) : Controller :=
  { c with
    intr := false
    master :=
      { c.master.take cascadeLine with
        levels := (c.master.take cascadeLine).levels.erase cascadeLine } }

theorem acknowledge_of_cascade {c : Controller} (h : c.master.Chosen cascadeLine) :
    c.acknowledge = c.handOver.acknowledgeSlave := by
  simp only [acknowledge, resolve_dropped_eq_some h, if_pos]
  rfl

theorem acknowledge_of_slave_none {c : Controller} (h : c.master.Chosen cascadeLine)
    (hs : ∀ l, ¬c.slave.Qualifies l) :
    c.acknowledge = (c.slave.vectorBase + 7,
      { c.handOver with slave := { c.slave with output := false } }) := by
  rw [acknowledge_of_cascade h]
  simp only [acknowledgeSlave, modifyChip, setChip, chip, handOver, resolve_dropped_eq_none hs]
  rfl

theorem acknowledge_of_slave_chosen {c : Controller} {l : Line} (h : c.master.Chosen cascadeLine)
    (hs : c.slave.Chosen l) :
    c.acknowledge = (c.slave.vectorBase + UInt8.ofNat l.val,
      serviceMaster (serviceSlave { c.handOver with slave := c.slave.take l })) := by
  have hv : (c.slave.take l).vector l = c.slave.vectorBase + UInt8.ofNat l.val := by
    rw [vector, take_vectorBase]
  rw [acknowledge_of_cascade h]
  simp only [acknowledgeSlave, modifyChip, setChip, chip, handOver, resolve_dropped_eq_some hs]
  rw [← hv]
  rfl

theorem serviceSlave_other_requests (c : Controller) {n : Line} (hn : n ≠ cascadeLine) :
    c.serviceSlave.master.irr.contains n = c.master.irr.contains n := by
  unfold serviceSlave raiseMaster
  split
  · split
    · rfl
    · simp [Chip.raise, hn]
  · rfl

/-- A slave that has a line to signal makes the request on the master's line. -/
theorem serviceSlave_request {c : Controller} (hv : c.master.levels.contains cascadeLine = false)
    (hr : c.master.irr.contains cascadeLine = false) (ho : c.slave.output = false) :
    c.serviceSlave.master.irr.contains cascadeLine = true ↔ ∃ l, c.slave.Qualifies l := by
  rcases c.slave.chosen_or_none with ⟨l, hl⟩ | hl
  · have hs : c.slave.resolve = some l := (resolve_eq_some_iff _ l).2 ⟨ho, hl⟩
    refine iff_of_true ?_ ⟨l, hl.1⟩
    simp only [serviceSlave, hs, raiseMaster, hv]
    rw [if_neg Bool.false_ne_true, serviceMaster_irr]
    simp [Chip.raise]
  · have hs : c.slave.resolve = none := (resolve_eq_none_iff _).2 (.inr hl)
    refine iff_of_false ?_ fun ⟨l, h⟩ => hl l h
    simp [serviceSlave, hs, hr]

theorem serviceSlave_isr (c : Controller) : c.serviceSlave.master.isr = c.master.isr := by
  unfold serviceSlave
  split
  · exact raiseMaster_isr _ _
  · rfl

theorem serviceSlave_slave (c : Controller) :
    c.serviceSlave.slave = c.slave ∨ ∃ l, c.serviceSlave.slave = c.slave.signal l := by
  unfold serviceSlave
  split
  · exact .inr ⟨_, raiseMaster_slave _ _⟩
  · exact .inl rfl

theorem serviceSlave_slave_irr (c : Controller) : c.serviceSlave.slave.irr = c.slave.irr := by
  obtain h | ⟨l, h⟩ := c.serviceSlave_slave
  · rw [h]
  · rw [h]
    rfl

theorem serviceSlave_slave_isr (c : Controller) : c.serviceSlave.slave.isr = c.slave.isr := by
  obtain h | ⟨l, h⟩ := c.serviceSlave_slave
  · rw [h]
  · rw [h]
    rfl

theorem serviceSlave_qualifies (c : Controller) (l : Line) :
    c.serviceSlave.slave.Qualifies l ↔ c.slave.Qualifies l := by
  obtain h | ⟨m, h⟩ := c.serviceSlave_slave
  · rw [h]
  · rw [h]
    rfl

end Controller

/-- What an acknowledge cycle comes to: a chip serves a line, or has none to serve. -/
inductive Outcome where
  | served (r : Role) (l : Line)
  | spurious (r : Role)
  deriving DecidableEq

namespace Outcome

open Controller (cascadeLine)

/-- The vector given: the line's on its chip, or that of the chip's line 7. -/
def vector (c : Controller) : Outcome → UInt8
  | served r l => (c.chip r).vectorBase + UInt8.ofNat l.val
  | spurious r => (c.chip r).vectorBase + 7

/-- The outcome that the registers call for. The slave is asked when its line wins on the master. -/
def Due (c : Controller) : Outcome → Prop
  | served .master l => c.master.Chosen l ∧ l ≠ cascadeLine
  | served .slave l => c.master.Chosen cascadeLine ∧ c.slave.Chosen l
  | spurious .master => ∀ l, ¬c.master.Qualifies l
  | spurious .slave => c.master.Chosen cascadeLine ∧ ∀ l, ¬c.slave.Qualifies l

/-- The request and service registers of `d`, into which the outcome has turned `c`. Only the line
between the chips may be requested again at once, by a further line of the slave. -/
def Effect (c d : Controller) : Outcome → Prop
  | served .master l =>
    c.master.Serves d.master l ∧ d.master.irr.contains l = false ∧ d.slave = c.slave
  | served .slave l =>
    c.master.Serves d.master cascadeLine ∧
      (d.master.irr.contains cascadeLine = true ↔ ∃ m, d.slave.Qualifies m) ∧
      c.slave.Serves d.slave l ∧ d.slave.irr.contains l = false
  | spurious .master =>
    d.master.irr = c.master.irr ∧ d.master.isr = c.master.isr ∧ d.slave = c.slave
  | spurious .slave =>
    c.master.Serves d.master cascadeLine ∧ d.master.irr.contains cascadeLine = false ∧
      d.slave.irr = c.slave.irr ∧ d.slave.isr = c.slave.isr

theorem Due.unique {c : Controller} {o o' : Outcome} (h : o.Due c) (h' : o'.Due c) : o = o' := by
  rcases o with ⟨_ | _, l⟩ | _ | _ <;> rcases o' with ⟨_ | _, m⟩ | _ | _
  case served.master.served.master => rw [h.1.unique h'.1]
  case served.slave.served.slave => rw [h.2.unique h'.2]
  case served.master.served.slave => exact absurd (h.1.unique h'.1) h.2
  case served.slave.served.master => exact absurd (h'.1.unique h.1) h'.2
  case served.master.spurious.slave => exact absurd (h.1.unique h'.1) h.2
  case spurious.slave.served.master => exact absurd (h'.1.unique h.1) h'.2
  case served.slave.spurious.slave => exact absurd h.2.1 (h'.2 l)
  case spurious.slave.served.slave => exact absurd h'.2.1 (h.2 m)
  case spurious.master.spurious.master => rfl
  case spurious.slave.spurious.slave => rfl
  -- the rest pits a line chosen on the master against the lack of one
  all_goals first | exact absurd h.1.1 (h' _) | exact absurd h'.1.1 (h _)

end Outcome

namespace Chip

theorem Serves.masked {c d : Chip} {l m : Line} (h : c.Serves d l) (hm : c.imr.contains m = true) :
    d.isr.contains m = c.isr.contains m := by
  refine h.others_in_service m ?_
  rintro rfl
  rw [h.unmasked] at hm
  exact Bool.false_ne_true hm

end Chip

namespace Outcome

variable {c d : Controller}

theorem Effect.serves {r : Role} {l : Line} (h : (served r l).Effect c d) :
    (c.chip r).Serves (d.chip r) l := by
  cases r with
  | master => exact h.1
  | slave => exact h.2.2.1

theorem Effect.spurious_isr {r : Role} (h : (spurious r).Effect c d) :
    (d.chip r).isr = (c.chip r).isr := by
  cases r with
  | master => exact h.2.1
  | slave => exact h.2.2.2

/-- Whatever the outcome, a masked line goes into or out of service on neither chip. -/
theorem Effect.masked {o : Outcome} (h : o.Effect c d) {r : Role} {l : Line}
    (hm : (c.chip r).imr.contains l = true) :
    (d.chip r).isr.contains l = (c.chip r).isr.contains l := by
  rcases o with ⟨_ | _, k⟩ | _ | _ <;> cases r
  case served.master.master => exact h.1.masked hm
  case served.master.slave => exact congrArg (fun e : Chip => e.isr.contains l) h.2.2
  case served.slave.master => exact h.1.masked hm
  case served.slave.slave => exact h.2.2.1.masked hm
  case spurious.master.master => exact congrArg (fun s : LineSet => s.contains l) h.2.1
  case spurious.master.slave => exact congrArg (fun e : Chip => e.isr.contains l) h.2.2
  case spurious.slave.master => exact h.1.masked hm
  case spurious.slave.slave => exact congrArg (fun s : LineSet => s.contains l) h.2.2.2

end Outcome

namespace Controller

open Chip

/-- The cycle comes to the outcome that is due. -/
theorem acknowledge_due (c : Controller) :
    ∃ o : Outcome, o.Due c ∧ c.acknowledge.1 = o.vector c ∧ o.Effect c c.acknowledge.2 := by
  rcases c.master.chosen_or_none with ⟨l, h⟩ | h
  · by_cases hl : l = cascadeLine
    · subst hl
      rcases c.slave.chosen_or_none with ⟨m, hm⟩ | hs
      · refine ⟨.served .slave m, ⟨h, hm⟩, ?_⟩
        rw [acknowledge_of_slave_chosen h hm]
        -- both chips are serviced afterwards, which touches their outputs and the master's line 2
        refine ⟨rfl, serves_of_chosen h ?_ fun n hn => ?_, ?_,
          serves_of_chosen hm ?_ fun n hn => ?_, ?_⟩
        · rw [serviceMaster_isr, serviceSlave_isr]
          rfl
        · rw [serviceMaster_irr, serviceSlave_other_requests _ hn]
          exact c.master.take_other_requests hn
        · simp only [serviceMaster_irr, serviceMaster_slave, serviceSlave_qualifies]
          exact serviceSlave_request (by simp [handOver]) (c.master.take_request _)
            (c.slave.take_output m)
        · rw [serviceMaster_slave, serviceSlave_slave_isr]
        · rw [serviceMaster_slave, serviceSlave_slave_irr]
          exact c.slave.take_other_requests hn
        · rw [serviceMaster_slave, serviceSlave_slave_irr]
          exact c.slave.take_request m
      · refine ⟨.spurious .slave, ⟨h, hs⟩, ?_⟩
        rw [acknowledge_of_slave_none h hs]
        exact ⟨rfl, serves_of_chosen h rfl fun n hn => c.master.take_other_requests hn,
          c.master.take_request _, rfl, rfl⟩
    · refine ⟨.served .master l, ⟨h, hl⟩, ?_⟩
      rw [acknowledge_of_chosen h hl]
      refine ⟨rfl, serves_of_chosen h ?_ fun n hn => ?_, ?_, ?_⟩
      · rw [serviceMaster_isr]
      · rw [serviceMaster_irr]
        exact c.master.take_other_requests hn
      · rw [serviceMaster_irr]
        exact c.master.take_request l
      · rw [serviceMaster_slave]
  · refine ⟨.spurious .master, h, ?_⟩
    rw [acknowledge_of_none h]
    exact ⟨rfl, rfl, rfl, rfl⟩

/-- The cycle comes to one outcome, the one that is due; no masked line is served, and where the end
of interrupt is not automatic line 7 served is told from the spurious vector by its service bit. -/
theorem acknowledge_resolves (c : Controller) :
    ∃ o : Outcome, (∀ o' : Outcome, o'.Due c ↔ o' = o) ∧ c.acknowledge.1 = o.vector c ∧
      o.Effect c c.acknowledge.2 ∧
      (∀ r l, (c.chip r).imr.contains l = true →
        o ≠ .served r l ∧ (c.acknowledge.2.chip r).isr.contains l = (c.chip r).isr.contains l) ∧
      ∀ r, (c.chip r).autoEoi = false →
        (o = .served r 7 → (c.chip r).isr.contains 7 = false ∧
          (c.acknowledge.2.chip r).isr.contains 7 = true) ∧
        (o = .spurious r → (c.acknowledge.2.chip r).isr = (c.chip r).isr) := by
  obtain ⟨o, hd, hv, he⟩ := c.acknowledge_due
  refine ⟨o, fun o' => ⟨fun h => h.unique hd, fun h => h ▸ hd⟩, hv, he, fun r l hm => ⟨?_, ?_⟩,
    fun r ha => ⟨?_, ?_⟩⟩
  · rintro rfl
    rw [he.serves.unmasked] at hm
    exact Bool.false_ne_true hm
  · exact he.masked hm
  · rintro rfl
    exact ⟨he.serves.fresh, by rw [he.serves.in_service, ha]; rfl⟩
  · rintro rfl
    exact he.spurious_isr

end Controller

end Pc8086.Interrupt

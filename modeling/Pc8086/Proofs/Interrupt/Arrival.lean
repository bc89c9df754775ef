import Pc8086.Proofs.Interrupt.Genuine

/-!
Requests that come at the same time. A chip signals a line as soon as one qualifies, and which one
that was is never told: the winner is found anew when the processor answers. So it does not matter
in which order lines are raised.
-/

namespace Pc8086.Interrupt

open Controller (cascadeLine)

namespace Chip

/-- The same chip but for the line that was last signalled. -/
def Alike (c d : Chip) : Prop :=
  ∃ n, d = { c with signalled := n }

namespace Alike

variable {c d : Chip}

theorem refl (c : Chip) : c.Alike c :=
  ⟨c.signalled, rfl⟩

theorem symm (h : c.Alike d) : d.Alike c := by
  obtain ⟨n, rfl⟩ := h
  exact ⟨c.signalled, rfl⟩

theorem trans {e : Chip} (h : c.Alike d) (h' : d.Alike e) : c.Alike e := by
  obtain ⟨n, rfl⟩ := h
  obtain ⟨m, rfl⟩ := h'
  exact ⟨m, rfl⟩

theorem resolve (h : c.Alike d) : d.resolve = c.resolve := by
  obtain ⟨n, rfl⟩ := h
  rfl

theorem chosen (h : c.Alike d) {l : Line} : d.Chosen l ↔ c.Chosen l := by
  obtain ⟨n, rfl⟩ := h
  exact Iff.rfl

theorem vector (h : c.Alike d) (l : Line) : d.vector l = c.vector l := by
  obtain ⟨n, rfl⟩ := h
  rfl

theorem signal (h : c.Alike d) (l : Line) : (c.signal l).Alike (d.signal l) := by
  obtain ⟨n, rfl⟩ := h
  exact ⟨UInt8.ofNat l.val, rfl⟩

end Alike

def Indifferent (f : Chip → Chip) : Prop :=
  ∀ c n, f { c with signalled := n } = { f c with signalled := n }

theorem Indifferent.alike {f : Chip → Chip} (hf : Indifferent f) {c d : Chip} (h : c.Alike d) :
    (f c).Alike (f d) := by
  obtain ⟨n, rfl⟩ := h
  exact ⟨n, hf c n⟩

theorem indifferent_raise (l : Line) : Indifferent fun c => c.raise l :=
  fun _ _ => rfl

theorem indifferent_lower (l : Line) : Indifferent fun c => c.lower l :=
  fun _ _ => rfl

theorem indifferent_accept (l : Line) : Indifferent fun c => c.accept l := by
  intro c n
  unfold accept
  dsimp only
  split_ifs
  · rfl
  · rfl
  · rfl

theorem indifferent_take (l : Line) : Indifferent fun c => c.take l :=
  fun c n => indifferent_accept l { c with output := false } n

theorem indifferent_setModes (v : UInt8) : Indifferent fun c => c.setModes v := by
  intro c n
  unfold setModes
  dsimp only
  split
  · rfl
  · rfl
  · rfl

theorem indifferent_initializationWord (v : UInt8) :
    Indifferent fun c => c.initializationWord v := by
  intro c n
  unfold initializationWord
  dsimp only
  split
  · rfl
  · rfl
  · rfl

theorem raise_comm (c : Chip) (l m : Line) : (c.raise l).raise m = (c.raise m).raise l := by
  have hcomm : ∀ s : LineSet, (s.insert l).insert m = (s.insert m).insert l := by
    intro s
    ext k
    simp only [LineSet.contains_insert]
    exact Bool.or_left_comm _ _ _
  simp only [raise, hcomm]

/-- A chip that would signal still would with a line more, if for another one. -/
theorem resolve_raise {c : Chip} {k : Line} (h : c.resolve = some k) (l : Line) :
    ∃ m, (c.raise l).resolve = some m := by
  obtain ⟨hout, hk, -⟩ := (resolve_eq_some_iff _ _).1 h
  have hwide : (c.raise l).Qualifies k := (c.raise_widens l).qualifies k hk
  obtain ⟨m, hm⟩ := ((c.raise l).chosen_or_none).resolve_right fun hn => hn k hwide
  exact ⟨m, (resolve_eq_some_iff _ _).2 ⟨hout, hm⟩⟩

theorem resolve_signal (c : Chip) (k : Line) : (c.signal k).resolve = none :=
  (resolve_eq_none_iff _).2 (.inl rfl)

end Chip

namespace Controller

open Chip

structure Alike (c d : Controller) : Prop where
  master : c.master.Alike d.master
  slave : c.slave.Alike d.slave
  registry : d.registry = c.registry
  intr : d.intr = c.intr

namespace Alike

variable {c d e : Controller} {r : Role}

theorem refl (c : Controller) : c.Alike c :=
  ⟨.refl _, .refl _, rfl, rfl⟩

theorem symm (h : c.Alike d) : d.Alike c :=
  ⟨h.master.symm, h.slave.symm, h.registry.symm, h.intr.symm⟩

theorem trans (h : c.Alike d) (h' : d.Alike e) : c.Alike e :=
  ⟨h.master.trans h'.master, h.slave.trans h'.slave, h'.registry.trans h.registry,
    h'.intr.trans h.intr⟩

theorem chip (h : c.Alike d) (r : Role) : (c.chip r).Alike (d.chip r) := by
  cases r with
  | master => exact h.master
  | slave => exact h.slave

theorem modifyChip (h : c.Alike d) {f : Chip → Chip} (hf : Indifferent f) :
    (c.modifyChip r f).Alike (d.modifyChip r f) := by
  cases r with
  | master => exact ⟨hf.alike h.master, h.slave, h.registry, h.intr⟩
  | slave => exact ⟨h.master, hf.alike h.slave, h.registry, h.intr⟩

theorem serviceMaster (h : c.Alike d) : c.serviceMaster.Alike d.serviceMaster := by
  unfold Controller.serviceMaster
  rw [h.master.resolve]
  split
  · next l _ => exact ⟨h.master.signal l, h.slave, h.registry, rfl⟩
  · exact h

theorem raiseMaster (h : c.Alike d) (l : Line) : (c.raiseMaster l).Alike (d.raiseMaster l) := by
  have hlevels : d.master.levels = c.master.levels := by
    obtain ⟨n, hn⟩ := h.master
    rw [hn]
  unfold Controller.raiseMaster
  rw [hlevels]
  split
  · exact h
  · exact serviceMaster ⟨(indifferent_raise l).alike h.master, h.slave, h.registry, h.intr⟩

theorem serviceSlave (h : c.Alike d) : c.serviceSlave.Alike d.serviceSlave := by
  unfold Controller.serviceSlave
  rw [h.slave.resolve]
  split
  · next l _ =>
    have hsignal : Alike { c with slave := c.slave.signal l } { d with slave := d.slave.signal l } :=
      ⟨h.master, h.slave.signal l, h.registry, h.intr⟩
    exact hsignal.raiseMaster cascadeLine
  · exact h

theorem raiseSlave (h : c.Alike d) (l : Line) : (c.raiseSlave l).Alike (d.raiseSlave l) := by
  have hlevels : d.slave.levels = c.slave.levels := by
    obtain ⟨n, hn⟩ := h.slave
    rw [hn]
  unfold Controller.raiseSlave
  rw [hlevels]
  split
  · exact h
  · exact serviceSlave ⟨h.master, (indifferent_raise l).alike h.slave, h.registry, h.intr⟩

theorem service (h : c.Alike d) (r : Role) : (c.service r).Alike (d.service r) := by
  cases r with
  | master => exact h.serviceMaster
  | slave => exact h.serviceSlave

theorem raise (h : c.Alike d) (r : Role) (l : Line) : (c.raise r l).Alike (d.raise r l) := by
  cases r with
  | master => exact h.raiseMaster l
  | slave => exact h.raiseSlave l

theorem setIrq (h : c.Alike d) (line : UInt8) : (c.setIrq line).Alike (d.setIrq line) := by
  unfold Controller.setIrq
  rw [h.registry]
  split
  · exact h.raise _ _
  · exact h

theorem clearIrq (h : c.Alike d) (line : UInt8) : (c.clearIrq line).Alike (d.clearIrq line) := by
  unfold Controller.clearIrq
  split
  · exact h.modifyChip (indifferent_lower _)
  · exact h

theorem withRegistry (h : c.Alike d) (g : Registry) :
    Alike { c with registry := g } { d with registry := g } :=
  ⟨h.master, h.slave, rfl, h.intr⟩

theorem dropSignal (h : c.Alike d) (r : Role) : (c.dropSignal r).Alike (d.dropSignal r) := by
  cases r with
  | master => exact ⟨h.master, h.slave, h.registry, rfl⟩
  | slave =>
    exact ⟨(indifferent_lower cascadeLine).alike h.master, h.slave, h.registry, h.intr⟩

theorem modeCommand (h : c.Alike d) (r : Role) (v : UInt8) :
    (c.modeCommand r v).Alike (d.modeCommand r v) := by
  have hmodes := h.modifyChip (r := r) (indifferent_setModes v)
  unfold Controller.modeCommand
  dsimp only
  split_ifs
  · exact hmodes.modifyChip fun _ _ => rfl
  · exact (hmodes.modifyChip fun _ _ => rfl).service r
  · exact hmodes.service r

theorem endHighest (h : c.Alike d) (r : Role) (rotating : Bool) :
    (c.endHighest r rotating).Alike (d.endHighest r rotating) := by
  have hin : (d.chip r).highestInService = (c.chip r).highestInService := by
    obtain ⟨n, hn⟩ := h.chip r
    rw [hn]
    rfl
  unfold Controller.endHighest
  rw [hin]
  split
  · refine h.modifyChip fun _ _ => ?_
    cases rotating <;> rfl
  · exact h

theorem serviceCommand (h : c.Alike d) (r : Role) (v : UInt8) :
    (c.serviceCommand r v).Alike (d.serviceCommand r v) := by
  unfold Controller.serviceCommand
  dsimp only
  split_ifs
  · exact h.modifyChip fun _ _ => rfl
  · exact (h.endHighest r _).service r
  · split
    · exact (h.modifyChip fun _ _ => rfl).service r
    · exact (h.modifyChip fun _ _ => rfl).service r
    · exact (h.modifyChip fun _ _ => rfl).service r
    · exact h

theorem writeCommand (h : c.Alike d) (r : Role) (v : UInt8) :
    (c.writeCommand r v).Alike (d.writeCommand r v) := by
  unfold Controller.writeCommand
  split_ifs
  · exact (h.modifyChip fun _ _ => rfl).dropSignal r
  · exact h.modeCommand r v
  · exact h.serviceCommand r v

theorem writeData (h : c.Alike d) (r : Role) (v : UInt8) :
    (c.writeData r v).Alike (d.writeData r v) := by
  have hinit : (d.chip r).initialization = (c.chip r).initialization := by
    obtain ⟨n, hn⟩ := h.chip r
    rw [hn]
  unfold Controller.writeData
  rw [hinit]
  split
  · exact h.modifyChip (indifferent_initializationWord v)
  · exact (h.modifyChip fun _ _ => rfl).service r

end Alike

section Answers

variable {c d : Controller}

structure AnswersAlike {α : Type} (p q : α × Controller) : Prop where
  answer : q.1 = p.1
  alike : p.2.Alike q.2

theorem Alike.poll (h : c.Alike d) (r : Role) : AnswersAlike (c.poll r) (d.poll r) := by
  have hpolled : Alike
      ((c.dropSignal r).modifyChip r fun chip => { chip with polled := false, output := false })
      ((d.dropSignal r).modifyChip r fun chip => { chip with polled := false, output := false }) :=
    (h.dropSignal r).modifyChip fun _ _ => rfl
  unfold Controller.poll
  dsimp only
  rw [(hpolled.chip r).resolve]
  split
  · next l _ => exact ⟨rfl, (hpolled.modifyChip (indifferent_accept l)).service r⟩
  · exact ⟨rfl, hpolled⟩

theorem Alike.readCommand (h : c.Alike d) (r : Role) :
    AnswersAlike (c.readCommand r) (d.readCommand r) := by
  obtain ⟨n, hn⟩ : ∃ n, d.chip r = { c.chip r with signalled := n } := h.chip r
  unfold Controller.readCommand
  dsimp only
  rw [hn]
  split_ifs
  · exact h.poll r
  · exact ⟨rfl, h⟩
  · exact ⟨rfl, h⟩

theorem Alike.acknowledgeSlave (h : c.Alike d) :
    AnswersAlike c.acknowledgeSlave d.acknowledgeSlave := by
  have hdropped : Alike
      (c.modifyChip .slave fun chip => { chip with output := false })
      (d.modifyChip .slave fun chip => { chip with output := false }) :=
    h.modifyChip fun _ _ => rfl
  unfold Controller.acknowledgeSlave
  dsimp only
  rw [hdropped.slave.resolve]
  split
  · next l _ =>
    have haccept := hdropped.modifyChip (r := .slave) (indifferent_accept l)
    exact ⟨haccept.slave.vector l, haccept.serviceSlave.serviceMaster⟩
  · exact ⟨hdropped.slave.vector 7, hdropped⟩

theorem Alike.handOver (h : c.Alike d) : c.handOver.Alike d.handOver := by
  have htake := (indifferent_take cascadeLine).alike h.master
  refine ⟨?_, h.slave, h.registry, rfl⟩
  exact Indifferent.alike (f := fun chip => { chip with levels := chip.levels.erase cascadeLine })
    (fun _ _ => rfl) htake

theorem Alike.acknowledge (h : c.Alike d) : AnswersAlike c.acknowledge d.acknowledge := by
  have hdropped := (h.modifyChip (r := .master) (f := fun chip => { chip with output := false })
    fun _ _ => rfl).dropSignal .master
  rcases c.master.chosen_or_none with ⟨l, hl⟩ | hn
  · have hl' : d.master.Chosen l := h.master.chosen.2 hl
    by_cases hc : l = cascadeLine
    · subst hc
      rw [acknowledge_of_cascade hl, acknowledge_of_cascade hl']
      exact h.handOver.acknowledgeSlave
    · have htake := (h.modifyChip (r := .master) (indifferent_take l)).dropSignal .master
      rw [acknowledge_of_chosen hl hc, acknowledge_of_chosen hl' hc]
      exact ⟨h.master.vector l, htake.serviceMaster⟩
  · have hn' : ∀ l, ¬d.master.Qualifies l := by
      obtain ⟨n, hd⟩ := h.master
      rw [hd]
      exact hn
    rw [acknowledge_of_none hn, acknowledge_of_none hn']
    exact ⟨h.master.vector 7, hdropped⟩

end Answers

section Observation

/-- What an operation gives back. -/
inductive Answer where
  /-- Nothing. -/
  | silence
  /-- A read of a port, none of another's. -/
  | byte (v : Option UInt8)
  /-- A write to a port, false to another's. -/
  | taken (own : Bool)
  | vector (v : UInt8)
  | line (result : Except LineError UInt8)
  | done (result : Except LineError Unit)

def answer (c : Controller) : Operation → Answer
  | .readPort port => .byte (c.readPort port).1
  | .writePort port v => .taken (c.writePort port v).1
  | .raise _ => .silence
  | .lower _ => .silence
  | .acknowledge => .vector c.acknowledge.1
  | .request device => .line (c.requestIrq device).1
  | .releaseIrq line => .done (c.releaseIrq line).1
  | .releaseLine line => .done (c.releaseLine line).1
  | .setEnabled line on => .done (c.setEnabled line on).1

/-- What is seen of a run: each answer, and the request line to the processor after it. -/
def observations (c : Controller) : List Operation → List (Answer × Bool)
  | [] => []
  | op :: ops => (c.answer op, (c.perform op).intr) :: observations (c.perform op) ops

variable {c d : Controller}

theorem Alike.readPort (h : c.Alike d) (port : UInt16) :
    AnswersAlike (c.readPort port) (d.readPort port) := by
  have hmaster := h.readCommand .master
  have hslave := h.readCommand .slave
  unfold Controller.readPort
  split
  · exact ⟨congrArg some hmaster.answer, hmaster.alike⟩
  · obtain ⟨n, hn⟩ := h.master
    exact ⟨by rw [hn], h⟩
  · exact ⟨congrArg some hslave.answer, hslave.alike⟩
  · obtain ⟨n, hn⟩ := h.slave
    exact ⟨by rw [hn], h⟩
  · exact ⟨rfl, h⟩

theorem Alike.writePort (h : c.Alike d) (port : UInt16) (v : UInt8) :
    AnswersAlike (c.writePort port v) (d.writePort port v) := by
  unfold Controller.writePort
  split
  · exact ⟨rfl, h.writeCommand .master v⟩
  · exact ⟨rfl, h.writeData .master v⟩
  · exact ⟨rfl, h.writeCommand .slave v⟩
  · exact ⟨rfl, h.writeData .slave v⟩
  · exact ⟨rfl, h⟩

/-- One operation tells two alike controllers apart neither by its answer nor by what it leaves. -/
theorem Alike.perform (h : c.Alike d) (op : Operation) :
    d.answer op = c.answer op ∧ (c.perform op).Alike (d.perform op) := by
  cases op with
  | readPort port =>
    have hread := h.readPort port
    exact ⟨congrArg Answer.byte hread.answer, hread.alike⟩
  | writePort port v =>
    have hwrite := h.writePort port v
    exact ⟨congrArg Answer.taken hwrite.answer, hwrite.alike⟩
  | raise line => exact ⟨rfl, h.setIrq line⟩
  | lower line => exact ⟨rfl, h.clearIrq line⟩
  | acknowledge =>
    have hack := h.acknowledge
    exact ⟨congrArg Answer.vector hack.answer, hack.alike⟩
  | request device =>
    have hline : (d.requestIrq device).1 = (c.requestIrq device).1 := by
      simp only [requestIrq, h.registry]
    refine ⟨congrArg Answer.line hline, ?_⟩
    simp only [Controller.perform, requestIrq, h.registry]
    exact h.withRegistry _
  | releaseIrq line =>
    simp only [answer, Controller.perform, releaseIrq]
    have hlow := h.clearIrq line
    split_ifs
    · rw [hlow.registry]
      exact ⟨rfl, hlow.withRegistry _⟩
    · exact ⟨rfl, h⟩
  | releaseLine line =>
    simp only [answer, Controller.perform, releaseLine, h.registry]
    exact ⟨trivial, h.withRegistry _⟩
  | setEnabled line on =>
    simp only [answer, Controller.perform, setEnabled, h.registry]
    exact ⟨trivial, h.withRegistry _⟩

theorem Alike.performAll (h : c.Alike d) (ops : List Operation) :
    (c.performAll ops).Alike (d.performAll ops) := by
  induction ops generalizing c d with
  | nil => exact h
  | cons op ops ih => exact ih (h.perform op).2

theorem Alike.observations (h : c.Alike d) (ops : List Operation) :
    d.observations ops = c.observations ops := by
  induction ops generalizing c d with
  | nil => rfl
  | cons op ops ih =>
    obtain ⟨hanswer, hnext⟩ := h.perform op
    rw [Controller.observations, Controller.observations, hanswer, hnext.intr, ih hnext]

end Observation

section Order

variable (c : Controller) (r : Role)

theorem raise_eq (l : Line) :
    c.raise r l = if (c.chip r).levels.contains l then c
      else (c.modifyChip r fun chip => chip.raise l).service r := by
  cases r <;> rfl

theorem service_of_none (h : (c.chip r).resolve = none) : c.service r = c := by
  cases r with
  | master =>
    change c.serviceMaster = c
    unfold serviceMaster
    rw [show c.master.resolve = none from h]
  | slave =>
    change c.serviceSlave = c
    unfold serviceSlave
    rw [show c.slave.resolve = none from h]

theorem service_levels : ((c.service r).chip r).levels = (c.chip r).levels := by
  cases r with
  | master => exact c.serviceMaster_levels
  | slave =>
    change c.serviceSlave.slave.levels = c.slave.levels
    obtain h | ⟨l, h⟩ := c.serviceSlave_slave
    · rw [h]
    · rw [h]
      rfl

/-- The master signals without a look at the slave. -/
theorem raiseMaster_with_slave (s : Chip) (l : Line) :
    raiseMaster { c with slave := s } l = { c.raiseMaster l with slave := s } := by
  unfold raiseMaster serviceMaster
  split
  · rfl
  · dsimp only
    split <;> rfl

/-- That a chip signalled early is not seen once a line more is raised and it signals again. -/
theorem service_early (l : Line) :
    Alike (((c.service r).modifyChip r fun chip => chip.raise l).service r)
      ((c.modifyChip r fun chip => chip.raise l).service r) := by
  cases hk : (c.chip r).resolve with
  | none =>
    rw [service_of_none c r hk]
    exact .refl _
  | some k =>
    obtain ⟨m, hm⟩ := resolve_raise hk l
    have hheld : (((c.chip r).signal k).raise l).resolve = none :=
      resolve_signal ((c.chip r).raise l) k
    cases r with
    | master =>
      simp only [chip] at hk hm hheld
      simp only [service, serviceMaster, modifyChip, setChip, chip, hk, hm, hheld]
      exact ⟨⟨_, rfl⟩, .refl _, rfl, rfl⟩
    | slave =>
      simp only [chip] at hk hm hheld
      simp only [service, serviceSlave, modifyChip, setChip, chip, hk, hm, hheld,
        raiseMaster_with_slave]
      exact ⟨.refl _, ⟨_, rfl⟩, rfl, rfl⟩

theorem raise_levels (l m : Line) :
    ((c.raise r l).chip r).levels.contains m =
      (decide (m = l) || (c.chip r).levels.contains m) := by
  rw [raise_eq]
  split
  · next h =>
    by_cases hm : m = l
    · simp [hm, h]
    · simp [hm]
  · rw [service_levels, chip_modifyChip]
    exact LineSet.contains_insert _ _ _

/-- Of two lines raised on a chip only the last signal counts. -/
theorem raise_twice {l m : Line} (hl : (c.chip r).levels.contains l = false)
    (hm : (c.chip r).levels.contains m = false) (hne : m ≠ l) :
    ((c.raise r l).raise r m).Alike
      ((c.modifyChip r fun chip => (chip.raise l).raise m).service r) := by
  have hlow : ((c.raise r l).chip r).levels.contains m = false := by
    rw [raise_levels]
    simp [hne, hm]
  rw [raise_eq _ r m, hlow, if_neg Bool.false_ne_true, raise_eq, hl, if_neg Bool.false_ne_true]
  have hearly := service_early (c.modifyChip r fun chip => chip.raise l) r m
  cases r <;> exact hearly

theorem raise_comm_on_chip (l m : Line) :
    ((c.raise r l).raise r m).Alike ((c.raise r m).raise r l) := by
  have hhigh : ∀ k n, (c.chip r).levels.contains k = true →
      ((c.raise r k).raise r n).Alike ((c.raise r n).raise r k) := by
    intro k n hk
    have hk' : ((c.raise r n).chip r).levels.contains k = true := by
      rw [raise_levels, hk, Bool.or_true]
    rw [raise_eq (c.raise r n) r k, if_pos hk', raise_eq c r k, if_pos hk]
    exact .refl _
  by_cases hl : (c.chip r).levels.contains l = true
  · exact hhigh l m hl
  by_cases hm : (c.chip r).levels.contains m = true
  · exact (hhigh m l hm).symm
  by_cases hne : m = l
  · rw [hne]
    exact .refl _
  rw [Bool.not_eq_true] at hl hm
  have hlate := raise_twice c r hm hl (Ne.symm hne)
  simp only [Chip.raise_comm _ m l] at hlate
  exact (raise_twice c r hl hm hne).trans hlate.symm

/-- A line of the slave meets the master over the line between them, which is raised like any
other. -/
theorem raiseMaster_raiseSlave_comm (l m : Line) :
    ((c.raiseMaster l).raiseSlave m).Alike ((c.raiseSlave m).raiseMaster l) := by
  unfold raiseSlave
  rw [raiseMaster_slave]
  split
  · exact .refl _
  · have hraised := raiseMaster_with_slave c (c.slave.raise m) l
    rw [← hraised]
    unfold serviceSlave
    rw [raiseMaster_slave]
    dsimp only
    split
    · next k _ =>
      rw [← raiseMaster_with_slave]
      exact raise_comm_on_chip { c with slave := (c.slave.raise m).signal k } .master l cascadeLine
    · exact .refl _

theorem raise_comm (r' : Role) (l m : Line) :
    ((c.raise r l).raise r' m).Alike ((c.raise r' m).raise r l) := by
  cases r with
  | master =>
    cases r' with
    | master => exact raise_comm_on_chip c .master l m
    | slave => exact raiseMaster_raiseSlave_comm c l m
  | slave =>
    cases r' with
    | master => exact (raiseMaster_raiseSlave_comm c m l).symm
    | slave => exact raise_comm_on_chip c .slave l m

theorem setIrq_registry (line : UInt8) : (c.setIrq line).registry = c.registry := by
  unfold setIrq
  split
  · dsimp only
    rw [raise_eq]
    split
    · rfl
    · generalize (locate line).1 = role
      cases role with
      | master => exact serviceMaster_registry _
      | slave => exact serviceSlave_registry _
  · rfl

theorem setIrq_comm (line line' : UInt8) :
    ((c.setIrq line).setIrq line').Alike ((c.setIrq line').setIrq line) := by
  have hignored : ∀ k, ¬c.registry.isActive k = true → ∀ d : Controller,
      d.registry = c.registry → d.setIrq k = d := by
    intro k hk d hd
    rw [setIrq, hd, if_neg hk]
  by_cases h : c.registry.isActive line = true
  · by_cases h' : c.registry.isActive line' = true
    · have hboth : ∀ k n, c.registry.isActive k = true → c.registry.isActive n = true →
          (c.setIrq k).setIrq n =
            (c.raise (locate k).1 (locate k).2).raise (locate n).1 (locate n).2 := by
        intro k n hk hn
        rw [setIrq, setIrq_registry, if_pos hn, setIrq, if_pos hk]
      rw [hboth _ _ h h', hboth _ _ h' h]
      exact raise_comm c _ _ _ _
    · rw [hignored _ h' c rfl, hignored _ h' _ (c.setIrq_registry line)]
      exact .refl _
  · rw [hignored _ h c rfl, hignored _ h _ (c.setIrq_registry line')]
    exact .refl _

theorem performAll_perm {lines lines' : List UInt8} (h : lines.Perm lines') :
    (c.performAll (lines.map .raise)).Alike (c.performAll (lines'.map .raise)) := by
  induction h generalizing c with
  | nil => exact .refl _
  | cons line _ ih => exact ih (c.setIrq line)
  | swap line line' lines => exact (c.setIrq_comm line' line).performAll (lines.map .raise)
  | trans _ _ ih ih' => exact (ih c).trans (ih' c)

/-- The order in which lines are raised is forgotten: whichever it was, the controllers are alike,
and no operations whatever tell alike controllers apart, which stay alike. -/
theorem arrival_order_forgotten {lines lines' : List UInt8} (h : lines.Perm lines') :
    (c.performAll (lines.map .raise)).Alike (c.performAll (lines'.map .raise)) ∧
      ∀ d e : Controller, d.Alike e → ∀ ops : List Operation,
        e.observations ops = d.observations ops ∧ (d.performAll ops).Alike (e.performAll ops) :=
  ⟨c.performAll_perm h, fun _ _ hd ops => ⟨hd.observations ops, hd.performAll ops⟩⟩

/-- The keyboard and the clock at the same time. The master was last signalled the line that came
first, but the processor hears of the keyboard first either way. -/
theorem keyboard_and_clock_arrive :
    let c := initial.performAll
      [.request .keyboard, .request .clock, .writePort 0x21 0x00, .writePort 0xA1 0x00]
    let d := c.performAll ([1, 8].map .raise)
    let e := c.performAll ([8, 1].map .raise)
    let ops : List Operation := [.acknowledge, .writePort 0x20 0x20, .acknowledge, .readPort 0xA0]
    d ≠ e ∧ d.Alike e ∧ d.answer .acknowledge = .vector 0x09 ∧
      e.observations ops = d.observations ops ∧ (d.performAll ops).Alike (e.performAll ops) := by
  intro c d e ops
  obtain ⟨halike, hseen⟩ := arrival_order_forgotten c (List.Perm.swap 8 1 [])
  exact ⟨by decide, halike, congrArg Answer.vector (by decide), hseen d e halike ops⟩

end Order

end Controller

end Pc8086.Interrupt

import Mathlib.Logic.Relation
import Pc8086.Proofs.Interrupt.Balance
import Pc8086.Proofs.Interrupt.Genuine

namespace Pc8086.Interrupt

open Controller (cascadeLine)

namespace Initialization

/-- A sequence is under way as long as a word is awaited, and ICW3 and ICW4 are awaited only after
an ICW1 that calls for them. -/
structure Orderly (i : Initialization) : Prop where
  active_iff : i.active = true ↔ i.nextWord = 2 ∨ i.nextWord = 3 ∨ i.nextWord = 4
  third : i.nextWord = 3 → i.single = false
  fourth : i.nextWord = 4 → i.needsFourth = true

theorem orderly_default : ({} : Initialization).Orderly :=
  ⟨by decide, nofun, nofun⟩

def Calls (i : Initialization) (n : UInt8) : Prop :=
  n = 0 ∨ n = 3 ∧ i.single = false ∨ n = 4 ∧ i.needsFourth = true

theorem calls_afterThird (i : Initialization) : i.Calls (Chip.afterThird i) := by
  unfold Chip.afterThird
  split
  · exact .inr (.inr ⟨rfl, ‹_›⟩)
  · exact .inl rfl

end Initialization

namespace Chip

variable {c d : Chip}

theorem awaitWord_orderly (h : c.initialization.active = true) {n : UInt8}
    (hn : c.initialization.Calls n) : (c.awaitWord n).initialization.Orderly := by
  unfold awaitWord
  rcases hn with rfl | ⟨rfl, hs⟩ | ⟨rfl, hf⟩
  · exact ⟨by simp, nofun, nofun⟩
  · exact ⟨by simp [h], fun _ => hs, nofun⟩
  · exact ⟨by simp [h], nofun, fun _ => hf⟩

theorem initializationWord_orderly (h : c.initialization.Orderly)
    (ha : c.initialization.active = true) (v : UInt8) :
    (c.initializationWord v).initialization.Orderly := by
  unfold initializationWord
  dsimp only
  rcases h.active_iff.1 ha with hn | hn | hn
  · rw [hn]
    refine awaitWord_orderly ha ?_
    split
    · exact c.initialization.calls_afterThird
    · next hs => exact .inr (.inl ⟨rfl, Bool.eq_false_iff.2 hs⟩)
  · rw [hn]
    exact awaitWord_orderly ha c.initialization.calls_afterThird
  · rw [hn]
    exact awaitWord_orderly ha (.inl rfl)

/-- Requests come from high inputs, the line of lowest priority is a line of the chip, and the
initialization is in order. -/
structure Consistent (c : Chip) : Prop where
  heard : ∀ l, c.irr.contains l = true → c.levels.contains l = true
  priority : c.lowestPriority ≤ 7
  orderly : c.initialization.Orderly

theorem priority_ofLine (l : Line) : UInt8.ofNat l.val ≤ 7 := by
  revert l
  decide

/-- A change of settings or services. It leaves alone the requests, the inputs and the output. -/
inductive Adjustment (c : Chip) : Chip → Prop where
  | mask (s : LineSet) : Adjustment c { c with imr := s }
  | modes (v : UInt8) : Adjustment c (c.setModes v)
  | poll (on : Bool) : Adjustment c { c with polled := on }
  | view (service : Bool) : Adjustment c { c with readsInService := service }
  | rotation (on : Bool) : Adjustment c { c with rotateOnAutoEoi := on }
  | endService (l : Line) : Adjustment c (c.endService l)
  | rotateTo (l : Line) : Adjustment c (c.rotateTo l)
  | word (v : UInt8) (h : c.initialization.active = true) :
    Adjustment c (c.initializationWord v)

structure SameSignals (c d : Chip) : Prop where
  irr : d.irr = c.irr
  levels : d.levels = c.levels
  output : d.output = c.output

theorem Adjustment.sameSignals (h : c.Adjustment d) : c.SameSignals d := by
  cases h with
  | modes v =>
    unfold setModes
    split <;> exact ⟨rfl, rfl, rfl⟩
  | word v h =>
    unfold initializationWord
    dsimp only
    split <;> exact ⟨rfl, rfl, rfl⟩
  | _ => exact ⟨rfl, rfl, rfl⟩

namespace Consistent

theorem congr (h : c.Consistent) (hd : c.SameSignals d)
    (hp : d.lowestPriority = c.lowestPriority) (hi : d.initialization = c.initialization) :
    d.Consistent where
  heard := by
    rw [hd.irr, hd.levels]
    exact h.heard
  priority := by
    rw [hp]
    exact h.priority
  orderly := by
    rw [hi]
    exact h.orderly

theorem adjust (h : c.Consistent) (ha : c.Adjustment d) : d.Consistent := by
  have hd := ha.sameSignals
  cases ha with
  | modes v =>
    refine h.congr hd ?_ ?_ <;> (unfold setModes; split <;> rfl)
  | rotateTo l => exact ⟨h.heard, priority_ofLine l, h.orderly⟩
  | word v ha =>
    refine ⟨?_, ?_, initializationWord_orderly h.orderly ha v⟩
    · rw [hd.irr, hd.levels]
      exact h.heard
    · unfold initializationWord
      dsimp only
      split <;> exact h.priority
  | mask s => exact h.congr hd rfl rfl
  | poll on => exact h.congr hd rfl rfl
  | view service => exact h.congr hd rfl rfl
  | rotation on => exact h.congr hd rfl rfl
  | endService l => exact h.congr hd rfl rfl

theorem withOutput (h : c.Consistent) (on : Bool) : Consistent { c with output := on } :=
  ⟨h.heard, h.priority, h.orderly⟩

theorem signal (h : c.Consistent) (l : Line) : (c.signal l).Consistent :=
  ⟨h.heard, h.priority, h.orderly⟩

theorem raise (h : c.Consistent) (l : Line) : (c.raise l).Consistent where
  heard m hm := by
    have hheard := h.heard m
    simp only [Chip.raise, LineSet.contains_insert, Bool.or_eq_true] at hm ⊢
    exact hm.imp_right hheard
  priority := h.priority
  orderly := h.orderly

theorem lower (h : c.Consistent) (l : Line) : (c.lower l).Consistent where
  heard m hm := by
    have hheard := h.heard m
    simp only [Chip.lower, LineSet.contains_erase, Bool.and_eq_true] at hm ⊢
    exact hm.imp_right hheard
  priority := h.priority
  orderly := h.orderly

theorem take (h : c.Consistent) (l : Line) : (c.take l).Consistent := by
  rw [take_eq]
  refine ⟨fun m hm => ?_, ?_, h.orderly⟩
  · rw [LineSet.contains_erase, Bool.and_eq_true] at hm
    exact h.heard m hm.2
  · dsimp only
    split
    · exact priority_ofLine l
    · exact h.priority

theorem beginInitialization (c : Chip) (v : UInt8) : (c.beginInitialization v).Consistent where
  heard l hl := by
    have hempty : LineSet.empty.contains l = true := hl
    simp at hempty
  priority := UInt8.le_refl 7
  orderly := ⟨by simp [Chip.beginInitialization], nofun, nofun⟩

theorem fresh (isMaster : Bool) (v : UInt8) :
    Consistent { isMaster := isMaster, vectorBase := v } where
  heard _ := id
  priority := UInt8.le_refl 7
  orderly := Initialization.orderly_default

end Consistent

end Chip

namespace Controller

open Chip

variable {c d e : Controller} {r : Role}

section Moves

/-- What operations do to a controller, one thing at a time. -/
inductive Move (c : Controller) : Controller → Prop where
  | adjust (r : Role) {d : Chip} (h : (c.chip r).Adjustment d) : Move c (c.setChip r d)
  | service (r : Role) : Move c (c.service r)
  | raise (r : Role) (l : Line) : Move c (c.modifyChip r fun chip => chip.raise l)
  /-- An input goes low, other than the one that the slave drives. -/
  | lower {r : Role} {l : Line} (h : (r, l) ≠ (.master, cascadeLine)) :
    Move c (c.modifyChip r fun chip => chip.lower l)
  /-- A chip drops its output. -/
  | drop (r : Role) :
    Move c ((c.dropSignal r).modifyChip r fun chip => { chip with output := false })
  /-- A chip drops its output and accepts a line. -/
  | take (r : Role) (l : Line) : Move c ((c.dropSignal r).modifyChip r fun chip => chip.take l)
  | beginInitialization (r : Role) (v : UInt8) : Move c (c.beginInitialization r v)
  | registry {g : Registry} (h : g.lines.size = c.registry.lines.size) :
    Move c { c with registry := g }

abbrev Moves : Controller → Controller → Prop :=
  Relation.ReflTransGen Move

namespace Moves

theorem move (h : Moves c d) (hm : Move d e) : Moves c e :=
  h.tail hm

theorem adjust (h : Moves c d) (r : Role) {e : Chip} (ha : (d.chip r).Adjustment e) :
    Moves c (d.setChip r e) :=
  h.move (.adjust r ha)

theorem service (h : Moves c d) (r : Role) : Moves c (d.service r) :=
  h.move (.service r)

theorem lower (h : Moves c d) {line : UInt8} (hne : line ≠ 2) : Moves c (d.clearIrq line) := by
  unfold clearIrq
  split
  · exact h.move (.lower (locate_ne_cascade hne))
  · exact h

theorem raise (h : Moves c d) (r : Role) (l : Line) : Moves c (d.raise r l) := by
  have hraise : d.raise r l = if (d.chip r).levels.contains l then d
      else (d.modifyChip r fun chip => chip.raise l).service r := by
    cases r <;> rfl
  rw [hraise]
  split
  · exact h
  · exact (h.move (.raise r l)).service r

theorem poll (h : Moves c d) (r : Role) : Moves c (d.poll r).2 := by
  have ha := h.adjust r (.poll false)
  rcases (d.chip r).chosen_or_none with ⟨k, hk⟩ | hk
  · rw [poll_of_chosen hk]
    have ht := (ha.move (.take r k)).service r
    cases r with
    | master => exact ht
    | slave => exact ht
  · rw [poll_of_none hk]
    have ht := ha.move (.drop r)
    cases r with
    | master => exact ht
    | slave => exact ht

theorem readCommand (h : Moves c d) (r : Role) : Moves c (d.readCommand r).2 := by
  unfold Controller.readCommand
  dsimp only
  split_ifs
  · exact h.poll r
  · exact h
  · exact h

theorem modeCommand (h : Moves c d) (r : Role) (v : UInt8) : Moves c (d.modeCommand r v) := by
  have hm : Moves c (d.modifyChip r fun chip => chip.setModes v) := h.adjust r (.modes v)
  unfold Controller.modeCommand
  dsimp only
  split_ifs
  · exact hm.adjust r (.poll true)
  · exact (hm.adjust r (.view _)).service r
  · exact hm.service r

theorem endHighest (h : Moves c d) (r : Role) (rotating : Bool) :
    Moves c (d.endHighest r rotating) := by
  unfold Controller.endHighest
  split
  · next l _ =>
    have he : Moves c (d.modifyChip r fun chip => chip.endService l) := h.adjust r (.endService l)
    cases rotating with
    | false => exact he
    | true =>
      have hr := he.adjust r (.rotateTo l)
      cases r with
      | master => exact hr
      | slave => exact hr
  · exact h

theorem serviceCommand (h : Moves c d) (r : Role) (v : UInt8) :
    Moves c (d.serviceCommand r v) := by
  unfold Controller.serviceCommand
  dsimp only
  generalize (Fin.ofNat 8 v.toNat : Line) = l
  have he : Moves c (d.modifyChip r fun chip => chip.endService l) := h.adjust r (.endService l)
  split_ifs
  · exact h.adjust r (.rotation _)
  · exact (h.endHighest r _).service r
  · split
    · exact he.service r
    · exact (h.adjust r (.rotateTo l)).service r
    · have hr := (he.adjust r (.rotateTo l)).service r
      cases r with
      | master => exact hr
      | slave => exact hr
    · exact h

theorem writeCommand (h : Moves c d) (r : Role) (v : UInt8) : Moves c (d.writeCommand r v) := by
  unfold Controller.writeCommand
  split_ifs
  · exact h.move (.beginInitialization r v)
  · exact h.modeCommand r v
  · exact h.serviceCommand r v

theorem writeData (h : Moves c d) (r : Role) (v : UInt8) : Moves c (d.writeData r v) := by
  unfold Controller.writeData
  split
  · exact h.adjust r (.word v ‹_›)
  · exact (h.adjust r (.mask ⟨v⟩)).service r

end Moves

/-- Handing over to the slave is to accept the slave's line and to lower it. -/
theorem handOver_eq (c : Controller) :
    c.handOver =
      { c with intr := false, master := (c.master.take cascadeLine).lower cascadeLine } := by
  have hirr : (c.master.take cascadeLine).irr.erase cascadeLine =
      (c.master.take cascadeLine).irr := by
    ext l
    simp
  unfold handOver Chip.lower
  rw [hirr]

theorem acknowledge_moves (c : Controller) : Moves c c.acknowledge.2 := by
  have hstart : Moves c c := .refl
  rcases c.master.chosen_or_none with ⟨l, hl⟩ | hn
  · by_cases hc : l = cascadeLine
    · subst hc
      have htaken := hstart.move (.take .master cascadeLine)
      rcases c.slave.chosen_or_none with ⟨m, hm⟩ | hs
      · rw [acknowledge_of_slave_chosen hl hm, handOver_eq]
        exact ((htaken.move (.take .slave m)).service .slave).service .master
      · rw [acknowledge_of_slave_none hl hs, handOver_eq]
        exact htaken.move (.drop .slave)
    · rw [acknowledge_of_chosen hl hc]
      exact (hstart.move (.take .master l)).service .master
  · rw [acknowledge_of_none hn]
    exact hstart.move (.drop .master)

/-- An operation that does not lower the line between the chips is made of moves. -/
theorem perform_moves (c : Controller) {op : Operation}
    (h : op ≠ .lower 2 ∧ op ≠ .releaseIrq 2) : Moves c (c.perform op) := by
  have hstart : Moves c c := .refl
  cases op with
  | readPort port =>
    obtain ⟨r, rfl⟩ | ⟨r, rfl⟩ | hport := port_cases port
    · rw [perform_readCommand]
      exact hstart.readCommand r
    · rw [perform_readData]
    · rw [(hport.2 c).1]
  | writePort port v =>
    obtain ⟨r, rfl⟩ | ⟨r, rfl⟩ | hport := port_cases port
    · rw [perform_writeCommand]
      exact hstart.writeCommand r v
    · rw [perform_writeData]
      exact hstart.writeData r v
    · rw [(hport.2 c).2 v]
  | raise line =>
    change Moves c (c.setIrq line)
    unfold setIrq
    split
    · exact hstart.raise _ _
    · exact hstart
  | lower line => exact hstart.lower fun hl => h.1 (by rw [hl])
  | acknowledge => exact c.acknowledge_moves
  | request device => exact hstart.move (.registry (Registry.request_size _ _))
  | releaseIrq line =>
    have hlow : Moves c (c.clearIrq line) := hstart.lower fun hl => h.2 (by rw [hl])
    change Moves c (c.releaseIrq line).2
    unfold releaseIrq
    split
    · exact hlow.move (.registry (Registry.release_size _ _))
    · exact hstart
  | releaseLine line => exact hstart.move (.registry (Registry.release_size _ _))
  | setEnabled line on => exact hstart.move (.registry (Registry.setEnabled_size _ _ _))

end Moves

section Consistency

/-- The processor sees the master's output, both chips are consistent, the master's line is high
while the slave holds its output, and there are sixteen lines. -/
structure Consistent (c : Controller) : Prop where
  wired : c.Wired
  chip : ∀ r, (c.chip r).Consistent
  carried : c.slave.output = true → c.master.levels.contains cascadeLine = true
  lines : c.registry.lines.size = 16

namespace Consistent

theorem setChip_chip (h : c.Consistent) {d : Chip} (hd : d.Consistent) (r' : Role) :
    ((c.setChip r d).chip r').Consistent := by
  by_cases hr : r' = r
  · subst hr
    rw [chip_setChip]
    exact hd
  · rw [chip_setChip_of_ne c hr]
    exact h.chip r'

theorem setChip (h : c.Consistent) {d : Chip} (hd : d.Consistent)
    (ho : d.output = (c.chip r).output)
    (hl : r = .master → (c.chip r).levels.contains cascadeLine = true →
      d.levels.contains cascadeLine = true) : (c.setChip r d).Consistent where
  wired := h.wired.modifyChip (f := fun _ => d) ho
  chip := h.setChip_chip hd
  carried := by
    cases r with
    | master => exact fun hs => hl rfl (h.carried hs)
    | slave => exact fun hs => h.carried (ho.symm.trans hs)
  lines := by cases r <;> exact h.lines

theorem serviceMaster (h : c.Consistent) : c.serviceMaster.Consistent := by
  unfold Controller.serviceMaster
  split
  · next l _ =>
    exact
      { wired := rfl
        chip := h.setChip_chip (r := .master) ((h.chip .master).signal l)
        carried := h.carried
        lines := h.lines }
  · exact h

/-- A slave that signals raises its line, if it was low. -/
theorem serviceSlave (h : c.Consistent) : c.serviceSlave.Consistent := by
  unfold Controller.serviceSlave
  split
  · next l _ =>
    have hchip := h.setChip_chip (r := .slave) ((h.chip .slave).signal l)
    unfold raiseMaster
    split
    · next hhigh =>
      exact { wired := h.wired, chip := hchip, carried := fun _ => hhigh, lines := h.lines }
    · refine serviceMaster
        { wired := h.wired, chip := ?_, carried := fun _ => ?_, lines := h.lines }
      · intro r
        cases r with
        | master => exact (h.chip .master).raise cascadeLine
        | slave => exact (h.chip .slave).signal l
      · simp [Chip.raise]
  · exact h

/-- When a chip's signal and its output are dropped, its inputs stay as they are. -/
theorem dropped (h : c.Consistent) {d : Chip} (hd : d.Consistent) (ho : d.output = false)
    (hl : d.levels = (c.chip r).levels) : ((c.dropSignal r).setChip r d).Consistent where
  wired := h.wired.dropped (f := fun _ => d) ho
  chip r' := by
    cases r with
    | master =>
      cases r' with
      | master => exact hd
      | slave => exact h.chip .slave
    | slave =>
      cases r' with
      | master => exact (h.chip .master).lower cascadeLine
      | slave => exact hd
  carried := by
    cases r with
    | master =>
      intro hs
      change d.levels.contains cascadeLine = true
      rw [hl]
      exact h.carried hs
    | slave => exact fun hs => absurd (ho.symm.trans hs) Bool.false_ne_true
  lines := by cases r <;> exact h.lines

theorem beginInitialization (h : c.Consistent) (r : Role) (v : UInt8) :
    (c.beginInitialization r v).Consistent := by
  have hd := h.dropped (r := r) (Chip.Consistent.beginInitialization (c.chip r) v) rfl rfl
  cases r with
  | master => exact hd
  | slave => exact hd

theorem move (h : c.Consistent) (hm : Move c d) : d.Consistent := by
  cases hm with
  | adjust r ha =>
    have hd := ha.sameSignals
    exact h.setChip ((h.chip r).adjust ha) hd.output fun _ hl => hd.levels ▸ hl
  | service r =>
    cases r with
    | master => exact h.serviceMaster
    | slave => exact h.serviceSlave
  | raise r l =>
    refine h.setChip ((h.chip r).raise l) rfl fun _ hl => ?_
    simp [Chip.raise, hl]
  | @lower r l hne =>
    refine h.setChip ((h.chip r).lower l) rfl fun hr hl => ?_
    have hk : cascadeLine ≠ l := fun hk => hne (by rw [hr, hk])
    simp [Chip.lower, hl, hk]
  | drop r =>
    rw [modifyChip, chip_dropSignal]
    exact h.dropped ((h.chip r).withOutput false) rfl rfl
  | take r l =>
    rw [modifyChip, chip_dropSignal]
    exact h.dropped ((h.chip r).take l) (take_output _ l) (by rw [take_eq])
  | beginInitialization r v => exact h.beginInitialization r v
  | registry hg =>
    exact { wired := h.wired, chip := h.chip, carried := h.carried, lines := hg.trans h.lines }

theorem moves (h : c.Consistent) (hm : Moves c d) : d.Consistent := by
  induction hm with
  | refl => exact h
  | tail _ hm ih => exact ih.move hm

theorem performAll (h : c.Consistent) {ops : List Operation}
    (hops : ∀ op ∈ ops, op ≠ .lower 2 ∧ op ≠ .releaseIrq 2) : (c.performAll ops).Consistent := by
  induction ops generalizing c with
  | nil => exact h
  | cons op ops ih =>
    have hnext := h.moves (c.perform_moves (hops op List.mem_cons_self))
    exact ih hnext fun op' hop => hops op' (List.mem_cons_of_mem op hop)

end Consistent

theorem withBases_consistent (m s : UInt8) : (withBases m s).Consistent where
  wired := rfl
  chip r := by
    cases r with
    | master => exact .fresh true m
    | slave => exact .fresh false s
  carried := nofun
  lines := rfl

/-- In a run from power-up the registers fit together, unless somebody else lowers the line that the
slave drives. -/
theorem registers_fit (m s : UInt8) {ops : List Operation}
    (hops : ∀ op ∈ ops, op ≠ .lower 2 ∧ op ≠ .releaseIrq 2) :
    ((withBases m s).performAll ops).Consistent :=
  (withBases_consistent m s).performAll hops

/-- The slave holds its output for the clock while the master awaits its last initialization
word. -/
theorem clock_registers_fit :
    let ops : List Operation :=
      [.request .clock, .writePort 0x21 0x00, .writePort 0xA1 0x00, .raise 8, .writePort 0x20 0x11,
        .writePort 0x21 0x08, .writePort 0x21 0x04]
    let c := initial.performAll ops
    (∀ op ∈ ops, op ≠ .lower 2 ∧ op ≠ .releaseIrq 2) ∧ c.slave.output = true ∧
      c.master.initialization.nextWord = 4 ∧ c.Consistent := by
  intro ops c
  have hops : ∀ op ∈ ops, op ≠ .lower 2 ∧ op ≠ .releaseIrq 2 := by decide
  have hout : c.slave.output = true := by decide
  have hword : c.master.initialization.nextWord = 4 := by decide
  exact ⟨hops, hout, hword, registers_fit 0x08 0x70 hops⟩

end Consistency

end Controller

end Pc8086.Interrupt

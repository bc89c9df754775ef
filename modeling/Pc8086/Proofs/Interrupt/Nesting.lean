import Pc8086.Proofs.Interrupt.Lines

/-!
Fully nested mode. A chip keeps no stack of the lines it has accepted, but the lines in service are
one: each stands before all that were accepted earlier, also after a rotation.
-/

namespace Pc8086.Interrupt

open Controller (cascadeLine)

namespace Chip

/-- The line that would be accepted now, whether or not the output is held. -/
def choice (c : Chip) : Option Line :=
  c.eligible.find? c.isPending

theorem choice_eq_resolve (c : Chip) : c.choice = Chip.resolve { c with output := false } :=
  (resolve_eq { c with output := false }).symm

theorem choice_eq_some_iff (c : Chip) (l : Line) : c.choice = some l ↔ c.Chosen l := by
  rw [choice_eq_resolve, resolve_eq_some_iff]
  exact and_iff_right rfl

theorem choice_eq_none_iff (c : Chip) : c.choice = none ↔ ∀ l, ¬c.Qualifies l := by
  rw [choice_eq_resolve, resolve_eq_none_iff]
  exact or_iff_right Bool.false_ne_true

theorem highestInService_eq_some_iff (c : Chip) (l : Line) :
    c.highestInService = some l ↔
      c.isr.contains l = true ∧ ∀ m, c.isr.contains m = true → c.rank l ≤ c.rank m := by
  rw [highestInService, find?_eq_some_iff_of_ranked c.order_ranked]
  simp [mem_order]

structure SameService (c d : Chip) : Prop where
  isr : d.isr = c.isr
  lowestPriority : d.lowestPriority = c.lowestPriority
  specialMask : d.specialMask = c.specialMask
  autoEoi : d.autoEoi = c.autoEoi
  rotateOnAutoEoi : d.rotateOnAutoEoi = c.rotateOnAutoEoi

namespace SameService

variable {c d e : Chip}

theorem refl (c : Chip) : c.SameService c :=
  ⟨rfl, rfl, rfl, rfl, rfl⟩

theorem trans (h : c.SameService d) (h' : d.SameService e) : c.SameService e where
  isr := h'.isr.trans h.isr
  lowestPriority := h'.lowestPriority.trans h.lowestPriority
  specialMask := h'.specialMask.trans h.specialMask
  autoEoi := h'.autoEoi.trans h.autoEoi
  rotateOnAutoEoi := h'.rotateOnAutoEoi.trans h.rotateOnAutoEoi

theorem rank_eq (h : c.SameService d) (l : Line) : d.rank l = c.rank l := by
  rw [rank, rank, first, first, h.lowestPriority]

end SameService

theorem AgreesOffLink.sameService {c d : Chip} (h : c.AgreesOffLink d) : c.SameService d := by
  rw [h.rest]
  exact ⟨rfl, rfl, rfl, rfl, rfl⟩

/-- The lines of `s`, the earliest accepted first, are those in service, and each stands before all
that were accepted earlier. -/
structure Nested (c : Chip) (s : List Line) : Prop where
  specialMask : c.specialMask = false
  autoEoi : c.autoEoi = false
  mem_iff : ∀ l, l ∈ s ↔ c.isr.contains l = true
  ordered : s.Pairwise fun l m => c.rank m < c.rank l

/-- A line that is made the last comes to stand behind all others, whose order stays. -/
theorem rank_rotateTo {c : Chip} {l m : Line} (h : c.rank l < c.rank m) :
    (c.rotateTo l).rank m = c.rank m - c.rank l - 1 := by
  have hl := l.isLt
  have hm := m.isLt
  have hbyte : (UInt8.ofNat l.val).toNat = l.val := by
    rw [UInt8.toNat_ofNat']
    omega
  simp only [rank, first, rotateTo, hbyte, Fin.ofNat, Fin.sub_def] at h ⊢
  omega

namespace Nested

variable {c d : Chip} {s : List Line} {l : Line}

theorem congr (h : c.Nested s) (hd : c.SameService d) : d.Nested s where
  specialMask := hd.specialMask.trans h.specialMask
  autoEoi := hd.autoEoi.trans h.autoEoi
  mem_iff m := by
    rw [hd.isr]
    exact h.mem_iff m
  ordered := h.ordered.imp fun hlt => by rwa [hd.rank_eq, hd.rank_eq]

theorem nodup (h : c.Nested s) : s.Nodup :=
  h.ordered.imp fun hlt heq => by
    rw [heq] at hlt
    exact lt_irrefl _ hlt

/-- A line is accepted only before every line in service. -/
theorem take (h : c.Nested s) (hl : c.Chosen l) : (c.take l).Nested (s ++ [l]) where
  specialMask := (c.take_specialMask l).trans h.specialMask
  autoEoi := by
    rw [take_eq]
    exact h.autoEoi
  mem_iff m := by
    rw [take_isr, h.autoEoi, if_neg Bool.false_ne_true, LineSet.contains_insert, List.mem_append,
      List.mem_singleton, h.mem_iff, Bool.or_eq_true, decide_eq_true_iff]
    exact or_comm
  ordered := by
    obtain ⟨-, -, hbefore⟩ := hl.1
    rw [h.specialMask, if_neg Bool.false_ne_true] at hbefore
    rw [List.pairwise_append]
    refine ⟨h.ordered.imp fun hlt => ?_, List.pairwise_singleton _ _, fun m hm k hk => ?_⟩
    · rwa [take_rank h.autoEoi, take_rank h.autoEoi]
    · rw [List.mem_singleton.1 hk, take_rank h.autoEoi, take_rank h.autoEoi]
      exact hbefore m ((h.mem_iff m).1 hm)

/-- The line of the highest priority in service is the one accepted last. -/
theorem highestInService (h : c.Nested s) : c.highestInService = s.getLast? := by
  rcases s.eq_nil_or_concat with rfl | ⟨s, l, rfl⟩
  · rw [List.getLast?_nil, Chip.highestInService, List.find?_eq_none]
    exact fun l _ hl => List.not_mem_nil ((h.mem_iff l).2 hl)
  · rw [List.concat_eq_append] at h ⊢
    rw [List.getLast?_concat]
    refine (highestInService_eq_some_iff c l).2 ⟨(h.mem_iff l).1 (by simp), fun m hm => ?_⟩
    have hord := (List.pairwise_append.1 h.ordered).2.2
    rcases List.mem_append.1 ((h.mem_iff m).2 hm) with hm | hm
    · exact Nat.le_of_lt (hord m hm l (List.mem_singleton_self l))
    · rw [List.mem_singleton.1 hm]

theorem endService (h : c.Nested (s ++ [l])) : (c.endService l).Nested s where
  specialMask := h.specialMask
  autoEoi := h.autoEoi
  mem_iff m := by
    have hm := h.mem_iff m
    have hl : l ∉ s := fun hl =>
      (List.nodup_append.1 h.nodup).2.2 l hl l (List.mem_singleton_self l) rfl
    rw [Chip.endService, LineSet.contains_erase, Bool.and_eq_true, decide_eq_true_iff, ← hm,
      List.mem_append, List.mem_singleton]
    refine ⟨fun hs => ⟨fun he => hl (he ▸ hs), .inl hs⟩, fun ⟨hne, hs⟩ => hs.resolve_right hne⟩
  ordered := (List.pairwise_append.1 h.ordered).1

theorem endService_rotateTo (h : c.Nested (s ++ [l])) :
    ((c.endService l).rotateTo l).Nested s where
  specialMask := h.specialMask
  autoEoi := h.autoEoi
  mem_iff := h.endService.mem_iff
  ordered := by
    -- the lines left all stand behind `l`, so the rotation moves them by the same distance
    obtain ⟨hs, -, hlast⟩ := List.pairwise_append.1 h.ordered
    refine hs.imp_of_mem fun {a b} ha hb hlt => ?_
    have hla := hlast a ha l (List.mem_singleton_self l)
    have hlb := hlast b hb l (List.mem_singleton_self l)
    have hra : ((c.endService l).rotateTo l).rank a = c.rank a - c.rank l - 1 := rank_rotateTo hla
    have hrb : ((c.endService l).rotateTo l).rank b = c.rank b - c.rank l - 1 := rank_rotateTo hlb
    omega

end Nested

end Chip

namespace Controller

open Chip (SameService Nested)

section History

/-- The line that an operation makes a chip accept. The slave takes part in an acknowledge cycle
when the master accepts the line between them. -/
def accepted (r : Role) (c : Controller) : Operation → Option Line
  | .acknowledge =>
    match r with
    | .master => c.master.choice
    | .slave => if c.master.choice = some cascadeLine then c.slave.choice else none
  | .readPort port =>
    if port = r.commandPort ∧ (c.chip r).polled = true then (c.chip r).choice else none
  | _ => none

/-- The line that an end of interrupt without a line number retires on a chip. -/
def retired (r : Role) (c : Controller) : Operation → Option Line
  | .writePort port v =>
    if port = r.commandPort ∧ (v = 0x20 ∨ v = 0xA0) then (c.chip r).highestInService else none
  | _ => none

def EndsInterrupt (r : Role) : Operation → Prop
  | .writePort port v => port = r.commandPort ∧ (v = 0x20 ∨ v = 0xA0)
  | _ => False

def outstandingNext (r : Role) (c : Controller) (s : List Line) (op : Operation) : List Line :=
  s.filter (fun l => retired r c op ≠ some l) ++ (accepted r c op).toList

/-- The lines accepted and not yet retired after a run, those of `s` included, in the order of their
acceptance. -/
def outstanding (r : Role) (c : Controller) (s : List Line) : List Operation → List Line
  | [] => s
  | op :: ops => outstanding r (c.perform op) (outstandingNext r c s op) ops

/-- The operation leaves a chip in fully nested mode: of the commands to the chip only ends of
interrupt without a line number, polls and the choice of the register to read, of its data only the
mask. -/
def Nesting (r : Role) (c : Controller) : Operation → Prop
  | .writePort port v =>
    (port = r.commandPort →
      v = 0x20 ∨ v = 0xA0 ∨ v &&& 0x18 = 0x08 ∧ (v >>> 5) &&& 3 ≠ 3) ∧
    (port = r.dataPort → (c.chip r).initialization.active = false)
  | _ => True

end History

section Step

variable {r r' : Role} {c d : Controller} {s : List Line}

theorem service_sameService (c : Controller) (r r' : Role) :
    (c.chip r).SameService ((c.service r').chip r) := by
  cases r' with
  | master =>
    cases r with
    | master => exact (serviceMaster_agrees c).sameService
    | slave =>
      change c.slave.SameService c.serviceMaster.slave
      rw [serviceMaster_slave]
      exact .refl _
  | slave =>
    cases r with
    | master => exact (serviceSlave_agrees c).sameService
    | slave =>
      change c.slave.SameService c.serviceSlave.slave
      obtain hs | ⟨l, hs⟩ := c.serviceSlave_slave
      · rw [hs]
        exact .refl _
      · rw [hs]
        exact ⟨rfl, rfl, rfl, rfl, rfl⟩

/-- What is done to the other chip takes no part in the service. -/
theorem ActsOn.sameService (h : ActsOn r' c d) (hr : r ≠ r') :
    (c.chip r).SameService (d.chip r) := by
  cases r with
  | master =>
    cases r' with
    | master => exact absurd rfl hr
    | slave => exact h.master_agrees.sameService
  | slave =>
    cases r' with
    | master =>
      change c.slave.SameService d.slave
      rw [h.slave_eq]
      exact .refl _
    | slave => exact absurd rfl hr

theorem perform_elsewhere {op : Operation} (hr : r ≠ r') (h : op.AddressedTo r') :
    (c.chip r).SameService ((c.perform op).chip r) :=
  (perform_actsOn c h).sameService hr

theorem modifyChip_sameService {f : Chip → Chip} (hf : (c.chip r).SameService (f (c.chip r))) :
    (c.chip r).SameService (((c.modifyChip r f).service r).chip r) := by
  have h := service_sameService (c.modifyChip r f) r r
  rw [chip_modifyChip] at h
  exact hf.trans h

theorem raise_sameService (c : Controller) (r r' : Role) (l : Line) :
    (c.chip r).SameService ((c.raise r' l).chip r) := by
  by_cases hr : r = r'
  · subst hr
    have hraise : c.raise r l = if (c.chip r).levels.contains l then c
        else (c.modifyChip r fun chip => chip.raise l).service r := by
      cases r <;> rfl
    rw [hraise]
    split
    · exact .refl _
    · exact modifyChip_sameService ⟨rfl, rfl, rfl, rfl, rfl⟩
  · exact (ActsOn.refl.raise l).sameService hr

theorem setIrq_sameService (c : Controller) (r : Role) (line : UInt8) :
    (c.chip r).SameService ((c.setIrq line).chip r) := by
  unfold setIrq
  split
  · exact raise_sameService c r _ _
  · exact .refl _

theorem clearIrq_sameService (c : Controller) (r : Role) (line : UInt8) :
    (c.chip r).SameService ((c.clearIrq line).chip r) := by
  by_cases hr : r = (locate line).1
  · subst hr
    unfold clearIrq
    split
    · dsimp only
      rw [chip_modifyChip]
      exact ⟨rfl, rfl, rfl, rfl, rfl⟩
    · exact .refl _
  · exact (ActsOn.refl.clearIrq rfl).sameService hr

theorem releaseIrq_sameService (c : Controller) (r : Role) (line : UInt8) :
    (c.chip r).SameService ((c.releaseIrq line).2.chip r) := by
  unfold releaseIrq
  split
  · exact clearIrq_sameService c r line
  · exact .refl _

/-- A cycle puts the accepted line of each chip into service and changes nothing else there. -/
theorem acknowledge_sameService (c : Controller) (r : Role) :
    Chip.SameService (((accepted r c .acknowledge).map (c.chip r).take).getD (c.chip r))
      (c.acknowledge.2.chip r) := by
  rcases c.master.chosen_or_none with ⟨l, hl⟩ | hn
  · have hm : c.master.choice = some l := (Chip.choice_eq_some_iff _ _).2 hl
    by_cases hc : l = cascadeLine
    · subst hc
      rcases c.slave.chosen_or_none with ⟨k, hk⟩ | hn
      · have hs : c.slave.choice = some k := (Chip.choice_eq_some_iff _ _).2 hk
        rw [acknowledge_of_slave_chosen hl hk]
        -- both chips are serviced, after the master has handed over
        let d : Controller := { c.handOver with slave := c.slave.take k }
        have hd : (d.chip r).SameService ((d.serviceSlave.serviceMaster).chip r) :=
          (service_sameService d r .slave).trans (service_sameService _ r .master)
        cases r with
        | master =>
          have hover : (c.master.take cascadeLine).SameService d.master := ⟨rfl, rfl, rfl, rfl, rfl⟩
          rw [accepted, hm]
          exact hover.trans hd
        | slave =>
          rw [accepted, if_pos hm, hs]
          exact hd
      · have hs : c.slave.choice = none := (Chip.choice_eq_none_iff _).2 hn
        rw [acknowledge_of_slave_none hl hn]
        cases r with
        | master =>
          rw [accepted, hm]
          exact ⟨rfl, rfl, rfl, rfl, rfl⟩
        | slave =>
          rw [accepted, if_pos hm, hs]
          exact ⟨rfl, rfl, rfl, rfl, rfl⟩
    · rw [acknowledge_of_chosen hl hc]
      have hd := service_sameService { c with intr := false, master := c.master.take l } r .master
      cases r with
      | master =>
        rw [accepted, hm]
        exact hd
      | slave =>
        rw [accepted, if_neg (by simpa [hm] using hc)]
        exact hd
  · have hm : c.master.choice = none := (Chip.choice_eq_none_iff _).2 hn
    rw [acknowledge_of_none hn]
    cases r with
    | master =>
      rw [accepted, hm]
      exact ⟨rfl, rfl, rfl, rfl, rfl⟩
    | slave =>
      rw [accepted, if_neg (by simp [hm])]
      exact .refl _

theorem readCommand_sameService (c : Controller) (r : Role) :
    Chip.SameService
      (((accepted r c (.readPort r.commandPort)).map (c.chip r).take).getD (c.chip r))
      ((c.readCommand r).2.chip r) := by
  rw [accepted]
  by_cases hp : (c.chip r).polled = true
  · have hread : c.readCommand r = c.poll r := if_pos hp
    rw [if_pos ⟨rfl, hp⟩, hread]
    rcases (c.chip r).chosen_or_none with ⟨l, hl⟩ | hn
    · rw [(Chip.choice_eq_some_iff _ _).2 hl, poll_of_chosen hl]
      refine SameService.trans ?_ (service_sameService _ r r)
      rw [chip_modifyChip, chip_dropSignal]
      simp only [Option.map_some, Option.getD_some, Chip.take_eq]
      exact ⟨rfl, rfl, rfl, rfl, rfl⟩
    · rw [(Chip.choice_eq_none_iff _).2 hn, poll_of_none hn, chip_modifyChip, chip_dropSignal]
      exact ⟨rfl, rfl, rfl, rfl, rfl⟩
  · have hread : (c.readCommand r).2 = c := by
      unfold readCommand
      dsimp only
      rw [if_neg hp]
      split <;> rfl
    rw [if_neg fun h => hp h.2, hread]
    exact .refl _

theorem nested_accept {d : Chip} {l? : Option Line} (h : (c.chip r).Nested s)
    (hl : ∀ l, l? = some l → (c.chip r).Chosen l)
    (hd : Chip.SameService ((l?.map (c.chip r).take).getD (c.chip r)) d) :
    d.Nested (s ++ l?.toList) := by
  cases l? with
  | none => simpa using h.congr hd
  | some l => exact (h.take (hl l rfl)).congr hd

theorem chosen_of_accepted {op : Operation} {l : Line} (h : accepted r c op = some l) :
    (c.chip r).Chosen l := by
  unfold accepted at h
  split at h
  · cases r with
    | master => exact (Chip.choice_eq_some_iff _ _).1 h
    | slave =>
      dsimp only at h
      split_ifs at h
      exact (Chip.choice_eq_some_iff _ _).1 h
  · split_ifs at h
    exact (Chip.choice_eq_some_iff _ _).1 h
  · cases h

/-- An end of interrupt retires the line accepted last. -/
theorem nested_endHighest (h : (c.chip r).Nested s) (rotating : Bool) :
    (((c.endHighest r rotating).service r).chip r).Nested s.dropLast := by
  refine Nested.congr ?_ (service_sameService _ r r)
  unfold Controller.endHighest
  rw [h.highestInService]
  rcases s.eq_nil_or_concat with rfl | ⟨s, l, rfl⟩
  · exact h
  · rw [List.concat_eq_append] at h ⊢
    rw [List.getLast?_concat, List.dropLast_concat]
    dsimp only
    rw [chip_modifyChip]
    cases rotating with
    | false => exact h.endService
    | true => exact h.endService_rotateTo

theorem filter_retired (h : s.Nodup) : s.filter (fun l => s.getLast? ≠ some l) = s.dropLast := by
  rcases s.eq_nil_or_concat with rfl | ⟨s, l, rfl⟩
  · rfl
  · rw [List.concat_eq_append] at h ⊢
    have hl : ∀ m ∈ s, l ≠ m := fun m hm he =>
      (List.nodup_append.1 h).2.2 m hm l (List.mem_singleton_self l) he.symm
    rw [List.getLast?_concat, List.dropLast_concat, List.filter_append]
    have hs : s.filter (fun m => some l ≠ some m) = s := by
      rw [List.filter_eq_self]
      simpa using hl
    rw [hs]
    simp

theorem modeCommand_sameService {v : UInt8} (hv : (v >>> 5) &&& 3 ≠ 3)
    (hm : (c.chip r).specialMask = false) :
    (c.chip r).SameService ((c.modeCommand r v).chip r) := by
  have hmodes : (c.chip r).SameService ((c.chip r).setModes v) := by
    unfold Chip.setModes
    split
    · exact ⟨rfl, rfl, hm.symm, rfl, rfl⟩
    · exact absurd ‹_› hv
    · exact .refl _
  unfold modeCommand
  dsimp only
  split_ifs
  · rw [chip_modifyChip, chip_modifyChip]
    exact hmodes.trans ⟨rfl, rfl, rfl, rfl, rfl⟩
  · refine SameService.trans ?_ (service_sameService _ r r)
    rw [chip_modifyChip, chip_modifyChip]
    exact hmodes.trans ⟨rfl, rfl, rfl, rfl, rfl⟩
  · refine SameService.trans ?_ (service_sameService _ r r)
    rw [chip_modifyChip]
    exact hmodes

theorem writeCommand_end {v : UInt8} (hv : v = 0x20 ∨ v = 0xA0) :
    c.writeCommand r v = (c.endHighest r (v == 0xA0)).service r := by
  rcases hv with rfl | rfl <;> rfl

theorem outstandingNext_of_none {op : Operation} (hr : retired r c op = none) :
    outstandingNext r c s op = s ++ (accepted r c op).toList := by
  simp [outstandingNext, hr]

theorem retired_of_not_ends {op : Operation} (h : ¬EndsInterrupt r op) : retired r c op = none := by
  cases op with
  | writePort port v => exact if_neg h
  | _ => rfl

theorem readPort_takes (c : Controller) (r : Role) (port : UInt16) :
    Chip.SameService (((accepted r c (.readPort port)).map (c.chip r).take).getD (c.chip r))
      ((c.perform (.readPort port)).chip r) := by
  have hidle : port ≠ r.commandPort → accepted r c (.readPort port) = none := by
    intro hp
    exact if_neg fun hc => hp hc.1
  obtain ⟨r', rfl⟩ | ⟨r', rfl⟩ | hport := port_cases port
  · by_cases hr : r = r'
    · subst hr
      rw [perform_readCommand]
      exact readCommand_sameService c r
    · rw [hidle fun hp => hr (Role.commandPort_injective hp).symm]
      exact perform_elsewhere hr (.inl rfl)
  · rw [hidle (r'.dataPort_ne_commandPort r), perform_readData]
    exact .refl _
  · rw [hidle (hport.1 r), (hport.2 c).1]
    exact .refl _

theorem writePort_sameService {port : UInt16} {v : UInt8} (hm : (c.chip r).specialMask = false)
    (hop : Nesting r c (.writePort port v)) (hend : ¬EndsInterrupt r (.writePort port v)) :
    (c.chip r).SameService ((c.perform (.writePort port v)).chip r) := by
  obtain ⟨r', rfl⟩ | ⟨r', rfl⟩ | hport := port_cases port
  · by_cases hr : r = r'
    · subst hr
      obtain ⟨hmode, hmask⟩ := (hop.1 rfl).resolve_left (fun h => hend ⟨rfl, .inl h⟩)
        |>.resolve_left fun h => hend ⟨rfl, .inr h⟩
      rw [perform_writeCommand, writeCommand_mode c r hmode]
      exact modeCommand_sameService hmask hm
    · exact perform_elsewhere hr (.inl rfl)
  · by_cases hr : r = r'
    · subst hr
      have hmask : c.writeData r v =
          (c.modifyChip r fun chip => { chip with imr := ⟨v⟩ }).service r :=
        if_neg (by simp [hop.2 rfl])
      rw [perform_writeData, hmask]
      exact modifyChip_sameService ⟨rfl, rfl, rfl, rfl, rfl⟩
    · exact perform_elsewhere hr (.inr rfl)
  · rw [(hport.2 c).2 v]
    exact .refl _

/-- Apart from ends of interrupt an operation does no more to the service than it makes the chip
accept. -/
theorem perform_takes {op : Operation} (hm : (c.chip r).specialMask = false)
    (hop : Nesting r c op) (hend : ¬EndsInterrupt r op) :
    Chip.SameService (((accepted r c op).map (c.chip r).take).getD (c.chip r))
      ((c.perform op).chip r) := by
  cases op with
  | readPort port => exact readPort_takes c r port
  | writePort port v => exact writePort_sameService hm hop hend
  | raise line => exact setIrq_sameService c r line
  | lower line => exact clearIrq_sameService c r line
  | acknowledge => exact acknowledge_sameService c r
  | request device => cases r <;> exact .refl _
  | releaseIrq line => exact releaseIrq_sameService c r line
  | releaseLine line => cases r <;> exact .refl _
  | setEnabled line on => cases r <;> exact .refl _

theorem nested_end (h : (c.chip r).Nested s) {v : UInt8} (hv : v = 0x20 ∨ v = 0xA0) :
    ((c.perform (.writePort r.commandPort v)).chip r).Nested
      (outstandingNext r c s (.writePort r.commandPort v)) := by
  have hr : retired r c (.writePort r.commandPort v) = s.getLast? := by
    rw [retired, if_pos ⟨rfl, hv⟩, h.highestInService]
  rw [perform_writeCommand, writeCommand_end hv, outstandingNext, hr, filter_retired h.nodup]
  simpa [accepted] using nested_endHighest h (v == 0xA0)

/-- One operation keeps the stack: it pushes what it makes the chip accept and pops what it
retires. -/
theorem nested_perform (h : (c.chip r).Nested s) {op : Operation} (hop : Nesting r c op) :
    ((c.perform op).chip r).Nested (outstandingNext r c s op) := by
  by_cases hend : EndsInterrupt r op
  · cases op with
    | writePort port v =>
      obtain ⟨rfl, hv⟩ := hend
      exact nested_end h hv
    | _ => exact absurd hend id
  · rw [outstandingNext_of_none (retired_of_not_ends hend)]
    exact nested_accept h (fun _ => chosen_of_accepted) (perform_takes h.specialMask hop hend)

end Step

section Run

variable {r : Role} {c : Controller} {s : List Line}

theorem nested_performAll (h : (c.chip r).Nested s) {ops : List Operation}
    (hops : c.Throughout (Nesting r) ops) :
    ((c.performAll ops).chip r).Nested (outstanding r c s ops) := by
  induction ops generalizing c s with
  | nil => exact h
  | cons op ops ih => exact ih (nested_perform h hops.1) hops.2

theorem outstanding_append (r : Role) (c : Controller) (s : List Line) (ops : List Operation)
    (op : Operation) :
    outstanding r c s (ops ++ [op]) =
      outstandingNext r (c.performAll ops) (outstanding r c s ops) op := by
  induction ops generalizing c s with
  | nil => rfl
  | cons op' ops ih => exact ih (c.perform op') (outstandingNext r c s op')

/-- In fully nested mode the lines in service form a stack. Those accepted and not yet retired are
distinct, they are the ones in service, and each stands before all that were accepted earlier; so an
end of interrupt, rotating or not, retires the one accepted last and no other. -/
theorem services_nest (r : Role) {c : Controller} (hisr : (c.chip r).isr = .empty)
    (hmask : (c.chip r).specialMask = false) (heoi : (c.chip r).autoEoi = false)
    {ops : List Operation} (hops : c.Throughout (Nesting r) ops) :
    let d := c.performAll ops
    let s := outstanding r c [] ops
    s.Nodup ∧ (∀ l, l ∈ s ↔ (d.chip r).isr.contains l = true) ∧
      s.Pairwise (fun l m => (d.chip r).rank m < (d.chip r).rank l) ∧
      ∀ v, v = 0x20 ∨ v = 0xA0 →
        let op := .writePort r.commandPort v
        retired r d op = s.getLast? ∧ outstanding r c [] (ops ++ [op]) = s.dropLast ∧
          ∀ l, ((d.perform op).chip r).isr.contains l = true ↔ l ∈ s.dropLast := by
  intro d s
  have hstart : (c.chip r).Nested [] :=
    { specialMask := hmask
      autoEoi := heoi
      mem_iff := by simp [hisr]
      ordered := .nil }
  have hd : (d.chip r).Nested s := nested_performAll hstart hops
  refine ⟨hd.nodup, hd.mem_iff, hd.ordered, fun v hv => ?_⟩
  intro op
  have hretired : retired r d op = s.getLast? := by
    rw [retired, if_pos ⟨rfl, hv⟩, hd.highestInService]
  have hnext : outstandingNext r d s op = s.dropLast := by
    rw [outstandingNext, hretired, filter_retired hd.nodup]
    exact List.append_nil _
  have hdone : ((d.perform op).chip r).Nested (outstandingNext r d s op) :=
    nested_end hd hv
  rw [hnext] at hdone
  refine ⟨hretired, (outstanding_append r c [] ops op).trans hnext, fun l => ?_⟩
  exact (hdone.mem_iff l).symm

instance (r : Role) (c : Controller) : (op : Operation) → Decidable (Nesting r c op)
  | .writePort _ _ => inferInstanceAs (Decidable ((_ → _) ∧ (_ → _)))
  | .readPort _ | .raise _ | .lower _ | .acknowledge | .request _ | .releaseIrq _ | .releaseLine _
  | .setEnabled _ _ => .isTrue trivial

/-- The keyboard interrupts the serial line's service and is retired with a rotation, after which
the clock interrupts it from the slave. -/
theorem serial_services_nest :
    let ops : List Operation :=
      [.request .keyboard, .request .serial, .request .clock, .writePort 0x21 0x00,
        .writePort 0xA1 0x00, .raise 4, .acknowledge, .raise 1, .acknowledge, .writePort 0x20 0xA0,
        .raise 8, .acknowledge]
    let d := initial.performAll ops
    outstanding .master initial [] ops = [4, 2] ∧ d.master.rank 2 < d.master.rank 4 ∧
      retired .master d (.writePort 0x20 0x20) = some 2 := by
  intro ops d
  have hs : outstanding .master initial [] ops = [4, 2] := by decide
  have hops : initial.Throughout (Nesting .master) ops := by decide
  obtain ⟨-, -, hordered, hend⟩ := services_nest .master (by decide) (by decide) (by decide) hops
  have hretired := (hend 0x20 (.inl rfl)).1
  rw [hs] at hordered hretired
  exact ⟨hs, List.rel_of_pairwise_cons hordered (List.mem_singleton_self 2), hretired⟩

end Run

end Controller

end Pc8086.Interrupt

import Mathlib.Data.Fintype.Card
import Pc8086.Proofs.Interrupt.Nesting

namespace Pc8086.Interrupt

namespace Chip

theorem rank_lt (c : Chip) (l : Line) : c.rank l < 8 :=
  (l - c.first).isLt

theorem rank_rotateTo_self (c : Chip) (l : Line) : (c.rotateTo l).rank l = 7 := by
  have hl := l.isLt
  have hbyte : (UInt8.ofNat l.val).toNat = l.val := by
    rw [UInt8.toNat_ofNat']
    omega
  simp only [rank, first, rotateTo, hbyte, Fin.ofNat, Fin.sub_def]
  omega

/-- The modes of rotating priority: no special mask, and where interrupts end themselves they
rotate. -/
structure Rotates (c : Chip) (auto : Bool) : Prop where
  specialMask : c.specialMask = false
  autoEoi : c.autoEoi = auto
  rotateOnAutoEoi : auto = true → c.rotateOnAutoEoi = true

namespace Rotates

variable {c d : Chip} {auto : Bool}

theorem congr (h : c.Rotates auto) (hd : c.SameService d) : d.Rotates auto where
  specialMask := hd.specialMask.trans h.specialMask
  autoEoi := hd.autoEoi.trans h.autoEoi
  rotateOnAutoEoi ha := hd.rotateOnAutoEoi.trans (h.rotateOnAutoEoi ha)

theorem take (h : c.Rotates auto) (l : Line) : (c.take l).Rotates auto := by
  rw [take_eq]
  exact ⟨h.specialMask, h.autoEoi, h.rotateOnAutoEoi⟩

end Rotates

/-- The lines of `s`, all different, stand behind `m`. -/
structure Overtaken (c : Chip) (m : Line) (s : List Line) : Prop where
  nodup : s.Nodup
  behind : ∀ l ∈ s, c.rank m < c.rank l

namespace Overtaken

variable {c d : Chip} {m l : Line} {s : List Line}

theorem congr (h : c.Overtaken m s) (hd : ∀ k, d.rank k = c.rank k) : d.Overtaken m s where
  nodup := h.nodup
  behind k hk := by
    rw [hd, hd]
    exact h.behind k hk

/-- A line before `m` is none of those behind it. -/
theorem nodup_append (h : c.Overtaken m s) (hl : c.rank l < c.rank m) : (s ++ [l]).Nodup := by
  rw [List.nodup_append]
  refine ⟨h.nodup, List.nodup_singleton l, fun k hk l' hl' heq => ?_⟩
  rw [List.mem_singleton.1 hl'] at heq
  rw [← heq] at hl
  exact Nat.lt_asymm hl (h.behind k hk)

/-- All lines behind the one that is made the last move up by the same distance. -/
theorem rotateTo (h : c.Overtaken m s) (hl : c.rank l < c.rank m) :
    (c.rotateTo l).Overtaken m (s ++ [l]) where
  nodup := h.nodup_append hl
  behind k hk := by
    have hrm : (c.rotateTo l).rank m = c.rank m - c.rank l - 1 := rank_rotateTo hl
    rcases List.mem_append.1 hk with hk | hk
    · have hmk := h.behind k hk
      have hrk : (c.rotateTo l).rank k = c.rank k - c.rank l - 1 := rank_rotateTo (by omega)
      omega
    · have hm := c.rank_lt m
      rw [List.mem_singleton.1 hk, rank_rotateTo_self]
      omega

end Overtaken

/-- The service of a chip while `m` waits, after the lines of `s` were served: none is left in
service or, where a rotation is owed, one is, which is the last of `s` and stood before `m`, or has
been there since before `m` came. -/
inductive Turn (c : Chip) (m : Line) : Bool → List Line → Prop where
  | idle {s : List Line} (hisr : ∀ k, c.isr.contains k = false) (hs : c.Overtaken m s) :
    Turn c m false s
  | serving {s : List Line} {l : Line} (hisr : ∀ k, c.isr.contains k = decide (k = l))
    (hl : c.rank l < c.rank m) (hs : c.Overtaken m s) : Turn c m true (s ++ [l])
  | earlier {l : Line} (hisr : ∀ k, c.isr.contains k = decide (k = l)) : Turn c m true []

namespace Turn

variable {c d : Chip} {m l : Line} {auto owed : Bool} {s : List Line}

theorem nodup (h : c.Turn m owed s) : s.Nodup := by
  cases h with
  | idle _ hs => exact hs.nodup
  | serving _ hl hs => exact hs.nodup_append hl
  | earlier _ => exact .nil

theorem congr (h : c.Turn m owed s) (hd : c.SameService d) : d.Turn m owed s := by
  cases h with
  | idle hisr hs => exact .idle (by rwa [hd.isr]) (hs.congr hd.rank_eq)
  | serving hisr hl hs =>
    exact .serving (by rwa [hd.isr]) (by rwa [hd.rank_eq, hd.rank_eq]) (hs.congr hd.rank_eq)
  | earlier hisr => exact .earlier (by rwa [hd.isr])

/-- With none in service the waiting line qualifies, so the line chosen stands before it. -/
theorem chosen_before (h : c.Turn m false s) (hmask : c.specialMask = false)
    (hm : c.isPending m = true) (hl : c.Chosen l) (hne : l ≠ m) : c.rank l < c.rank m := by
  cases h with
  | idle hisr _ =>
    rw [isPending, Bool.and_eq_true, Bool.not_eq_true'] at hm
    have hmq : c.Qualifies m := by
      refine ⟨hm.1, hm.2, ?_⟩
      rw [hmask, if_neg Bool.false_ne_true]
      intro k hk
      rw [hisr] at hk
      cases hk
    have hle := hl.2 m hmq
    have hrank := c.rank_injective.ne hne
    omega

/-- A line from before the waiting one goes behind it at once, or when the rotation comes that is
owed from now on. -/
theorem take (h : c.Turn m false s) (hmode : c.Rotates auto) (hl : c.rank l < c.rank m) :
    (c.take l).Turn m (!auto) (s ++ [l]) := by
  have hauto := hmode.autoEoi
  cases h with
  | idle hisr hs =>
    cases auto with
    | true =>
      have hrank : ∀ k, (c.take l).rank k = (c.rotateTo l).rank k := by
        intro k
        rw [take_eq]
        simp only [hauto, hmode.rotateOnAutoEoi rfl]
        rfl
      refine .idle ?_ ((hs.rotateTo hl).congr hrank)
      rw [take_isr, hauto]
      exact hisr
    | false =>
      have hrank : ∀ k, (c.take l).rank k = c.rank k := c.take_rank hauto l
      refine .serving (fun k => ?_) (by rwa [hrank, hrank]) (hs.congr hrank)
      rw [take_isr, hauto, if_neg Bool.false_ne_true, LineSet.contains_insert, hisr,
        Bool.or_false]

theorem take_earlier (h : c.Turn m false []) (hmode : c.Rotates auto) :
    (c.take l).Turn m (!auto) [] := by
  have hauto := hmode.autoEoi
  cases h with
  | idle hisr _ =>
    cases auto with
    | true =>
      refine .idle ?_ ⟨.nil, nofun⟩
      rw [take_isr, hauto]
      exact hisr
    | false =>
      refine .earlier (l := l) fun k => ?_
      rw [take_isr, hauto, if_neg Bool.false_ne_true, LineSet.contains_insert, hisr,
        Bool.or_false]

end Turn

end Chip

namespace Controller

open Chip (SameService Turn Rotates)

section History

def acceptances (r : Role) (c : Controller) : List Operation → List Line
  | [] => []
  | op :: ops => (accepted r c op).toList ++ acceptances r (c.perform op) ops

def rotation (r : Role) : Operation :=
  .writePort r.commandPort 0xA0

/-- Whether a rotation is owed after an operation: it is once a line was accepted. -/
def owes (r : Role) (c : Controller) (owed : Bool) (op : Operation) : Bool :=
  !decide (op = rotation r) && (owed || (accepted r c op).isSome)

def RotatesBetween (r : Role) (owed : Bool) (c : Controller) : List Operation → Prop
  | [] => True
  | op :: ops =>
    (owed = true → accepted r c op = none) ∧
      RotatesBetween r (owes r c owed op) (c.perform op) ops

/-- The chip stays in rotating mode: no command to it but rotations, polls and the choice of the
register to read, of its data only the mask. -/
def Rotating (r : Role) (c : Controller) (op : Operation) : Prop :=
  op = rotation r ∨ Nesting r c op ∧ ¬EndsInterrupt r op

/-- A line keeps waiting: it is requested and not masked, and the operation does not make its chip
accept it. -/
def Waits (r : Role) (m : Line) (c : Controller) (op : Operation) : Prop :=
  (c.chip r).isPending m = true ∧ accepted r c op ≠ some m

/-- The chip will rotate after each of its services, by itself or by command. -/
structure ByTurns (r : Role) (auto owed : Bool) (c : Controller) (ops : List Operation) :
    Prop where
  mode : (c.chip r).Rotates auto
  rotating : c.Throughout (Rotating r) ops
  between : auto = false → RotatesBetween r owed c ops
  settled : auto = true → owed = false

end History

section Step

variable {r : Role} {c : Controller} {m : Line} {auto owed : Bool} {s t : List Line}

theorem endHighest_of_idle (h : ∀ k, (c.chip r).isr.contains k = false) (rotating : Bool) :
    c.endHighest r rotating = c := by
  have hnone : (c.chip r).highestInService = none := by
    rw [Chip.highestInService, List.find?_eq_none]
    intro k _ hk
    rw [h k] at hk
    cases hk
  unfold endHighest
  rw [hnone]

/-- A rotation takes the only line in service out of it and puts it last. -/
theorem endHighest_of_single {l : Line} (h : ∀ k, (c.chip r).isr.contains k = decide (k = l)) :
    (c.endHighest r true).chip r = ((c.chip r).endService l).rotateTo l ∧
      ∀ k, ((c.endHighest r true).chip r).isr.contains k = false := by
  have hlast : (c.chip r).highestInService = some l := by
    refine (Chip.highestInService_eq_some_iff _ _).2 ⟨by simp [h], fun k hk => ?_⟩
    rw [h, decide_eq_true_iff] at hk
    rw [hk]
  have hchip : (c.endHighest r true).chip r = ((c.chip r).endService l).rotateTo l := by
    unfold endHighest
    rw [hlast]
    exact chip_modifyChip c r _
  refine ⟨hchip, fun k => ?_⟩
  rw [hchip]
  change ((c.chip r).isr.erase l).contains k = false
  rw [LineSet.contains_erase, h]
  by_cases hk : k = l <;> simp [hk]

theorem turn_rotation (h : (c.chip r).Turn m owed s) :
    ((c.perform (rotation r)).chip r).Turn m false s := by
  rw [rotation, perform_writeCommand, writeCommand_end (.inr rfl)]
  apply Turn.congr _ (service_sameService _ r r)
  cases h with
  | idle hisr hs =>
    rw [endHighest_of_idle hisr]
    exact .idle hisr hs
  | serving hisr hl hs =>
    obtain ⟨hchip, hnone⟩ := endHighest_of_single hisr
    refine .idle hnone ?_
    rw [beq_self_eq_true, hchip]
    exact (hs.rotateTo hl).congr fun _ => rfl
  | earlier hisr => exact .idle (endHighest_of_single hisr).2 ⟨.nil, nofun⟩

theorem rotates_rotation (h : (c.chip r).Rotates auto) :
    ((c.perform (rotation r)).chip r).Rotates auto := by
  rw [rotation, perform_writeCommand, writeCommand_end (.inr rfl)]
  apply Rotates.congr _ (service_sameService _ r r)
  unfold endHighest
  split
  · rw [chip_modifyChip]
    exact ⟨h.specialMask, h.autoEoi, h.rotateOnAutoEoi⟩
  · exact h

/-- With none in service the line that an operation makes the chip accept stands before the one that
waits. -/
theorem accepted_before (hmode : (c.chip r).Rotates auto) (h : (c.chip r).Turn m false s)
    {op : Operation} (hwait : Waits r m c op) {l : Line} (hl : accepted r c op = some l) :
    (c.chip r).rank l < (c.chip r).rank m := by
  apply h.chosen_before hmode.specialMask hwait.1 (chosen_of_accepted hl)
  rintro rfl
  exact hwait.2 hl

/-- One operation of a chip that serves by turns: `t` is what `s` becomes if a line is accepted, and
else stays. -/
theorem turn_perform {op : Operation} {ops : List Operation}
    (hturns : ByTurns r auto owed c (op :: ops)) (h : (c.chip r).Turn m owed s)
    (hnone : accepted r c op = none → t = s)
    (hsome : ∀ l, owed = false → accepted r c op = some l →
      ((c.chip r).take l).Turn m (!auto) t) :
    ByTurns r auto (!auto && owes r c owed op) (c.perform op) ops ∧
      ((c.perform op).chip r).Turn m (!auto && owes r c owed op) t := by
  have hafter : (c.perform op).Throughout (Rotating r) ops := hturns.rotating.2
  have hbetween : auto = false →
      RotatesBetween r (!auto && owes r c owed op) (c.perform op) ops := by
    rintro rfl
    exact (hturns.between rfl).2
  have hsettled : auto = true → (!auto && owes r c owed op) = false := by
    rintro rfl
    rfl
  -- the rotating end of interrupt settles what is owed; any other operation may accept a line
  rcases hturns.rotating.1 with rfl | ⟨hop, hend⟩
  · have hdone : (!auto && owes r c owed (rotation r)) = false := by simp [owes]
    rw [hdone] at hbetween hsettled ⊢
    rw [hnone rfl]
    exact ⟨⟨rotates_rotation hturns.mode, hafter, hbetween, hsettled⟩, turn_rotation h⟩
  · have hd := perform_takes hturns.mode.specialMask hop hend
    have hne : op ≠ rotation r := by
      rintro rfl
      exact hend ⟨rfl, .inr rfl⟩
    cases hl : accepted r c op with
    | none =>
      have hsame : (!auto && owes r c owed op) = owed := by
        cases auto with
        | true => exact (hturns.settled rfl).symm
        | false => simp [owes, hne, hl]
      rw [hl] at hd
      rw [hsame] at hbetween hsettled ⊢
      rw [hnone hl]
      exact ⟨⟨hturns.mode.congr hd, hafter, hbetween, hsettled⟩, h.congr hd⟩
    | some l =>
      -- a line is accepted only while no rotation is owed
      have hidle : owed = false := by
        cases auto with
        | true => exact hturns.settled rfl
        | false =>
          by_contra howed
          have hno := (hturns.between rfl).1 (by simpa using howed)
          rw [hl] at hno
          cases hno
      have hnew : (!auto && owes r c owed op) = !auto := by simp [owes, hne, hl]
      rw [hl] at hd
      rw [hnew] at hbetween hsettled ⊢
      exact ⟨⟨(hturns.mode.take l).congr hd, hafter, hbetween, hsettled⟩,
        (hsome l hidle hl).congr hd⟩

end Step

section Run

variable {r : Role} {c : Controller} {m : Line} {auto owed : Bool} {s : List Line}
  {before ops : List Operation}

/-- Before the line waits, turns are kept all the same. -/
theorem turn_before (hturns : ByTurns r auto owed c (before ++ ops))
    (h : (c.chip r).Turn m owed []) :
    ∃ owed', ByTurns r auto owed' (c.performAll before) ops ∧
      ((c.performAll before).chip r).Turn m owed' [] := by
  induction before generalizing c owed with
  | nil => exact ⟨owed, hturns, h⟩
  | cons op before ih =>
    obtain ⟨hturns', h'⟩ := turn_perform hturns h (fun _ => rfl) fun l hidle _ => by
      subst hidle
      exact h.take_earlier hturns.mode
    exact ih hturns' h'

theorem nodup_acceptances (hturns : ByTurns r auto owed c ops) (h : (c.chip r).Turn m owed s)
    (hwait : c.Throughout (Waits r m) ops) : (s ++ acceptances r c ops).Nodup := by
  induction ops generalizing c s owed with
  | nil => simpa [acceptances] using h.nodup
  | cons op ops ih =>
    obtain ⟨hturns', h'⟩ := turn_perform (t := s ++ (accepted r c op).toList) hturns h
      (fun hnone => by simp [hnone]) fun l hidle hl => by
        subst hidle
        rw [hl]
        exact h.take hturns.mode (accepted_before hturns.mode h hwait.1 hl)
    rw [acceptances, ← List.append_assoc]
    exact ih hturns' h' hwait.2

/-- What is accepted while a line waits is never that line. -/
theorem not_mem_acceptances (hwait : c.Throughout (Waits r m) ops) : m ∉ acceptances r c ops := by
  induction ops generalizing c with
  | nil => exact List.not_mem_nil
  | cons op ops ih =>
    rw [acceptances, List.mem_append, Option.mem_toList]
    rintro (hm | hm)
    · exact hwait.1.2 hm
    · exact ih hwait.2 hm

/-- No line starves. A chip without special mask starts with none in service, and either ends
interrupts itself and rotates, or has a rotation between two acceptances. From any moment on, as
long as a line waits no other is accepted more than once, hence no more than seven are. -/
theorem rotation_is_fair (hisr : (c.chip r).isr = .empty) (hmask : (c.chip r).specialMask = false)
    (hmode : (c.chip r).autoEoi = true ∧ (c.chip r).rotateOnAutoEoi = true ∨
      (c.chip r).autoEoi = false ∧ RotatesBetween r false c (before ++ ops))
    (hops : c.Throughout (Rotating r) (before ++ ops))
    (hwait : (c.performAll before).Throughout (Waits r m) ops) :
    let lines := acceptances r (c.performAll before) ops
    (∀ l, lines.count l ≤ 1) ∧ lines.length ≤ 7 := by
  intro lines
  obtain ⟨auto, hturns⟩ : ∃ auto, ByTurns r auto false c (before ++ ops) := by
    rcases hmode with ⟨hauto, hrot⟩ | ⟨hauto, hbetween⟩
    · exact ⟨true, ⟨hmask, hauto, fun _ => hrot⟩, hops, nofun, fun _ => rfl⟩
    · exact ⟨false, ⟨hmask, hauto, nofun⟩, hops, fun _ => hbetween, nofun⟩
  have hstart : (c.chip r).Turn m false [] := by
    refine .idle (fun k => ?_) ⟨.nil, nofun⟩
    rw [hisr]
    exact LineSet.contains_empty k
  obtain ⟨owed, hturns', hnow⟩ := turn_before hturns hstart
  have hnodup : lines.Nodup := nodup_acceptances hturns' hnow hwait
  refine ⟨List.nodup_iff_count_le_one.1 hnodup, ?_⟩
  have hall : (m :: lines).Nodup := List.nodup_cons.2 ⟨not_mem_acceptances hwait, hnodup⟩
  have hcard := hall.length_le_card
  rw [List.length_cons, Fintype.card_fin] at hcard
  omega

instance (r : Role) : (op : Operation) → Decidable (EndsInterrupt r op)
  | .writePort _ _ => inferInstanceAs (Decidable (_ ∧ _))
  | .readPort _ | .raise _ | .lower _ | .acknowledge | .request _ | .releaseIrq _ | .releaseLine _
  | .setEnabled _ _ => .isFalse id

instance (r : Role) (c : Controller) (op : Operation) : Decidable (Rotating r c op) :=
  inferInstanceAs (Decidable (_ ∨ _ ∧ _))

instance (r : Role) (m : Line) (c : Controller) (op : Operation) : Decidable (Waits r m c op) :=
  inferInstanceAs (Decidable (_ ∧ _))

instance decidableRotatesBetween (r : Role) (owed : Bool) (c : Controller) :
    (ops : List Operation) → Decidable (RotatesBetween r owed c ops)
  | [] => inferInstanceAs (Decidable True)
  | op :: ops =>
    have := decidableRotatesBetween r (owes r c owed op) (c.perform op) ops
    inferInstanceAs (Decidable ((_ → _) ∧ RotatesBetween r _ (c.perform op) ops))

/-- The serial line waits while the timer is served and the keyboard is pressed twice: the keyboard
comes once before it, and then its turn has come. -/
theorem serial_waits_for_keyboard_once :
    let c := initial.performAll
      [.request .timer, .request .keyboard, .request .serial, .writePort 0x21 0x00]
    let before : List Operation := [.raise 0, .acknowledge, .raise 4]
    let ops : List Operation := [.writePort 0x20 0xA0, .raise 1, .acknowledge, .lower 1, .raise 1,
      .writePort 0x20 0xA0]
    let lines := acceptances .master (c.performAll before) ops
    lines = [1] ∧ (∀ l, lines.count l ≤ 1) ∧ lines.length ≤ 7 ∧
      accepted .master (c.performAll (before ++ ops)) .acknowledge = some 4 := by
  intro c before ops lines
  have hops : c.Throughout (Rotating .master) (before ++ ops) := by decide
  have hwait : (c.performAll before).Throughout (Waits .master 4) ops := by decide
  have hbetween : RotatesBetween .master false c (before ++ ops) := by decide
  obtain ⟨hcount, hlength⟩ := rotation_is_fair (by decide) (by decide) (.inr ⟨by decide, hbetween⟩)
    hops hwait
  exact ⟨by decide, hcount, hlength, by decide⟩

end Run

end Controller

end Pc8086.Interrupt

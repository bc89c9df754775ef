import Mathlib.Data.Fin.Basic
import Mathlib.Data.List.TakeWhile
import Pc8086.Interrupt.Chip
import Pc8086.Proofs.Interrupt.LineSet

namespace Pc8086.Interrupt.Chip

def arc : Nat → Line → List Line
  | 0, _ => []
  | n + 1, l => l :: arc n (l + 1)

def isPending (c : Chip) (l : Line) : Bool :=
  c.irr.contains l && !c.imr.contains l

/-- The lines that may interrupt: those before every line in service, or in special mask mode those
that are not in service. -/
def eligible (c : Chip) : List Line :=
  if c.specialMask then c.order.filter fun l => !c.isr.contains l
  else c.order.takeWhile fun l => !c.isr.contains l

section Ring

variable {l m : Line} {n : Nat}

theorem val_sub_self (l : Line) : (l - l).val = 0 := by
  rw [Fin.sub_self]
  rfl

/-- Seen from the next line, another one is a place nearer. -/
theorem val_sub_of_ne (h : m ≠ l) : (m - l).val = (m - (l + 1)).val + 1 := by
  revert l m
  decide

theorem val_sub_succ_self (l : Line) : (l - (l + 1)).val = 7 := by
  revert l
  decide

end Ring

section Arc

variable {ready : Line → Bool} {stop l : Line} {n : Nat}

/-- With a step for every line up to the end the scan finds the first line of that arc which is
ready. -/
theorem scan_eq_find? (h : (stop - (l + 1)).val < n) :
    scan ready stop n l = (arc ((stop - (l + 1)).val + 1) l).find? ready := by
  induction n generalizing l with
  | zero => exact absurd h (Nat.not_lt_zero _)
  | succ n ih =>
    unfold scan
    rw [arc, List.find?_cons]
    cases ready l with
    | true => rfl
    | false =>
      by_cases hstop : l + 1 = stop
      · simp [hstop, arc]
      · have hnext := val_sub_of_ne (Ne.symm hstop)
        rw [if_neg Bool.false_ne_true, if_neg hstop, hnext]
        exact ih (by omega)

/-- A whole turn of steps is enough, so that the count of steps never ends the scan. -/
theorem scan_eight (ready : Line → Bool) (stop l : Line) :
    scan ready stop 8 l =
      if ready l then some l else if l + 1 = stop then none else scan ready stop 8 (l + 1) := by
  have hlt := (stop - (l + 1 + 1)).isLt
  by_cases hstop : l + 1 = stop
  · rw [if_pos hstop]
    conv_lhs => unfold scan
    rw [if_pos hstop]
  · have hnext := val_sub_of_ne (Ne.symm hstop)
    have hle := (stop - (l + 1)).isLt
    have hseven : scan ready stop 7 (l + 1) = scan ready stop 8 (l + 1) := by
      rw [scan_eq_find? (by omega), scan_eq_find? (by omega)]
    rw [← hseven]
    rfl

theorem takeWhile_arc {p : Line → Bool} (h : (arc n l).find? p = some stop) :
    (arc n l).takeWhile (fun m => !p m) = arc (stop - l).val l := by
  induction n generalizing l with
  | zero => cases h
  | succ n ih =>
    rw [arc, List.find?_cons] at h
    rw [arc, List.takeWhile_cons]
    cases hl : p l with
    | true =>
      rw [hl] at h
      cases h
      rw [val_sub_self]
      rfl
    | false =>
      rw [hl] at h
      have hne : stop ≠ l := by
        rintro rfl
        have := List.find?_some h
        rw [hl] at this
        cases this
      rw [ih h, val_sub_of_ne hne]
      rfl

theorem arc_ofNat (n k : Nat) :
    arc n (Fin.ofNat 8 k) = (List.range n).map fun i => Fin.ofNat 8 (k + i) := by
  induction n generalizing k with
  | zero => rfl
  | succ n ih =>
    have hnext : (Fin.ofNat 8 k : Line) + 1 = Fin.ofNat 8 (k + 1) := by
      apply Fin.ext
      simp [Fin.val_add]
    rw [arc, hnext, ih, List.range_succ_eq_map, List.map_cons, List.map_map]
    simp [Function.comp_def, Nat.add_assoc, Nat.add_comm 1]

theorem order_eq_arc (c : Chip) : c.order = arc 8 c.first :=
  (arc_ofNat 8 _).symm

end Arc

theorem contains_unmasked (c : Chip) (l : Line) : c.unmasked.contains l = c.isPending l := by
  unfold isPending unmasked
  rw [LineSet.contains_eq_getLsbD, LineSet.contains_eq_getLsbD, LineSet.contains_eq_getLsbD,
    UInt8.toBitVec_and, UInt8.toBitVec_not, BitVec.getLsbD_and, BitVec.getLsbD_not,
    decide_eq_true l.isLt, Bool.true_and]

section Resolve

variable {c : Chip}

theorem isReady_of_nested (h : c.specialMask = false) : c.isReady = c.isPending := by
  funext l
  unfold isReady
  rw [h, contains_unmasked]
  rfl

theorem scan_turn (c : Chip) : scan c.isReady c.first 8 c.first = c.order.find? c.isReady := by
  have hturn := val_sub_succ_self c.first
  rw [scan_eq_find? (by omega), hturn, order_eq_arc]

theorem scan_of_specialMask (h : c.specialMask = true) :
    scan c.isReady c.first 8 c.first = c.eligible.find? c.isPending := by
  unfold eligible
  rw [if_pos h, List.find?_filter, scan_turn]
  congr 1
  funext l
  unfold isReady
  rw [h, contains_unmasked, Bool.true_and, Bool.decide_and, Bool.decide_eq_true, Bool.decide_eq_true]

theorem scan_of_none_served (h : c.specialMask = false) (hs : c.highestInService = none) :
    scan c.isReady c.first 8 c.first = c.eligible.find? c.isPending := by
  have hall : c.eligible = c.order := by
    unfold eligible
    rw [if_neg (by rw [h]; decide)]
    refine List.takeWhile_eq_self_iff.2 fun l hl => ?_
    simpa using List.find?_eq_none.1 hs l hl
  rw [hall, scan_turn, isReady_of_nested h]

theorem eligible_of_served {s : Line} (h : c.specialMask = false)
    (hs : c.highestInService = some s) : c.eligible = arc (s - c.first).val c.first := by
  unfold highestInService at hs
  unfold eligible
  rw [if_neg (by rw [h]; decide)]
  rw [order_eq_arc] at hs ⊢
  exact takeWhile_arc hs

theorem scan_of_served {s : Line} (h : c.specialMask = false) (hs : c.highestInService = some s)
    (hne : s ≠ c.first) : scan c.isReady s 8 c.first = c.eligible.find? c.isPending := by
  have hlt := (s - (c.first + 1)).isLt
  rw [scan_eq_find? hlt, eligible_of_served h hs, val_sub_of_ne hne, isReady_of_nested h]

theorem find?_eligible_of_unmasked_eq_empty (h : c.unmasked = .empty) :
    c.eligible.find? c.isPending = none := by
  rw [List.find?_eq_none]
  intro l _
  rw [← contains_unmasked, h, LineSet.contains_empty]
  exact Bool.false_ne_true

/-- The search is that for the first unmasked request among the lines that may interrupt. -/
theorem resolve_eq (c : Chip) :
    c.resolve = if c.output then none else c.eligible.find? c.isPending := by
  unfold resolve
  dsimp only
  split
  · rfl
  by_cases hempty : c.unmasked = .empty
  · rw [if_pos hempty, ite_self, find?_eligible_of_unmasked_eq_empty hempty]
  rw [if_neg hempty]
  cases hmask : c.specialMask with
  | true => exact scan_of_specialMask hmask
  | false =>
    rw [if_neg Bool.false_ne_true]
    cases hs : c.highestInService with
    | none => exact scan_of_none_served hmask hs
    | some s =>
      by_cases hfirst : s = c.first
      · rw [if_pos (congrArg some hfirst), eligible_of_served hmask hs, hfirst, val_sub_self]
        rfl
      · rw [if_neg (mt Option.some.inj hfirst)]
        exact scan_of_served hmask hs hfirst

end Resolve

end Pc8086.Interrupt.Chip

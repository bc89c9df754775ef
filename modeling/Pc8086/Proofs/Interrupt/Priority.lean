import Mathlib.Order.Fin.Basic
import Mathlib.Tactic.Tauto
import Pc8086.Proofs.Interrupt.Scan

namespace Pc8086.Interrupt

section Ranked

variable {α : Type} {place : α → Nat} {p : α → Bool} {xs : List α}

theorem find?_eq_some_iff_of_ranked (h : xs.Pairwise fun a b => place a < place b) (a : α) :
    xs.find? p = some a ↔ a ∈ xs ∧ p a ∧ ∀ b ∈ xs, p b → place a ≤ place b := by
  induction xs with
  | nil => simp
  | cons x xs ih =>
    rw [List.pairwise_cons] at h
    -- the head of a ranked list comes before all of it
    have hx_le : ∀ b ∈ x :: xs, place x ≤ place b := by
      intro b hb
      rcases List.mem_cons.1 hb with rfl | hb
      · exact le_rfl
      · exact Nat.le_of_lt (h.1 b hb)
    cases hx : p x with
    | true =>
      rw [List.find?_cons_of_pos hx]
      constructor
      · rintro ⟨rfl⟩
        exact ⟨List.mem_cons_self, hx, fun b hb _ => hx_le b hb⟩
      · rintro ⟨ha, -, hmin⟩
        rcases List.mem_cons.1 ha with rfl | ha
        · rfl
        · have hlt := h.1 a ha
          have hle := hmin x List.mem_cons_self hx
          omega
    | false =>
      have hne : ∀ b ∈ x :: xs, p b → b ∈ xs := by
        intro b hb hpb
        rcases List.mem_cons.1 hb with rfl | hb
        · simp [hx] at hpb
        · exact hb
      rw [List.find?_cons_of_neg (by simp [hx]), ih h.2]
      constructor
      · rintro ⟨ha, hp, hmin⟩
        exact ⟨List.mem_cons_of_mem _ ha, hp, fun b hb hpb => hmin b (hne b hb hpb) hpb⟩
      · rintro ⟨ha, hp, hmin⟩
        exact ⟨hne a ha hp, hp, fun b hb => hmin b (List.mem_cons_of_mem _ hb)⟩

theorem mem_takeWhile_iff_of_ranked (h : xs.Pairwise fun a b => place a < place b) (a : α) :
    a ∈ xs.takeWhile p ↔ a ∈ xs ∧ ∀ b ∈ xs, place b ≤ place a → p b := by
  induction xs with
  | nil => simp
  | cons x xs ih =>
    rw [List.pairwise_cons] at h
    cases hx : p x with
    | true =>
      rw [List.takeWhile_cons_of_pos hx, List.mem_cons, List.mem_cons, ih h.2]
      constructor
      · rintro (rfl | ⟨ha, hall⟩)
        · refine ⟨.inl rfl, fun b hb hle => ?_⟩
          rcases List.mem_cons.1 hb with rfl | hb
          · exact hx
          · have hlt := h.1 b hb
            omega
        · refine ⟨.inr ha, fun b hb hle => ?_⟩
          rcases List.mem_cons.1 hb with rfl | hb
          · exact hx
          · exact hall b hb hle
      · rintro ⟨rfl | ha, hall⟩
        · exact .inl rfl
        · exact .inr ⟨ha, fun b hb => hall b (List.mem_cons_of_mem _ hb)⟩
    | false =>
      rw [List.takeWhile_cons_of_neg (by simp [hx])]
      refine iff_of_false List.not_mem_nil ?_
      rintro ⟨ha, hall⟩
      -- a member would need the head to hold, which comes before it
      have hle : place x ≤ place a := by
        rcases List.mem_cons.1 ha with rfl | ha
        · exact le_rfl
        · exact Nat.le_of_lt (h.1 a ha)
      have hpx := hall x List.mem_cons_self hle
      simp [hx] at hpx

end Ranked

namespace Chip

/-- How many places a line comes after the first one on the ring of eight. -/
def rank (c : Chip) (l : Line) : Nat :=
  (l - c.first).val

/-- A line that may be chosen: requested, not masked, and before every line in service or, in
special mask mode, not in service itself. -/
def Qualifies (c : Chip) (l : Line) : Prop :=
  c.irr.contains l = true ∧ c.imr.contains l = false ∧
    if c.specialMask = true then c.isr.contains l = false
    else ∀ m, c.isr.contains m = true → c.rank l < c.rank m

/-- The line to choose: of those that qualify, the one of the highest priority. -/
def Chosen (c : Chip) (l : Line) : Prop :=
  c.Qualifies l ∧ ∀ m, c.Qualifies m → c.rank l ≤ c.rank m

instance (c : Chip) (l : Line) : Decidable (c.Qualifies l) :=
  inferInstanceAs (Decidable (_ ∧ _ ∧ ite _ _ _))

instance (c : Chip) (l : Line) : Decidable (c.Chosen l) :=
  inferInstanceAs (Decidable (_ ∧ ∀ m, c.Qualifies m → _))

theorem rank_injective (c : Chip) : Function.Injective c.rank := by
  intro l m h
  have hl := l.isLt
  have hm := m.isLt
  have hf := c.first.isLt
  simp only [rank, Fin.sub_def] at h
  exact Fin.ext (by omega)

theorem rank_place (c : Chip) {i : Nat} (hi : i < 8) :
    c.rank (Fin.ofNat 8 (c.lowestPriority.toNat + 1 + i)) = i := by
  simp only [rank, first, Fin.ofNat, Fin.sub_def]
  omega

theorem order_ranked (c : Chip) : c.order.Pairwise fun l m => c.rank l < c.rank m := by
  rw [order, List.pairwise_map]
  refine List.pairwise_lt_range.imp_of_mem fun hi hj h => ?_
  rw [List.mem_range] at hi hj
  rwa [rank_place c hi, rank_place c hj]

theorem mem_order (c : Chip) (l : Line) : l ∈ c.order := by
  have hl : c.rank l < 8 := (l - c.first).isLt
  exact List.mem_map.2 ⟨c.rank l, List.mem_range.2 hl, c.rank_injective (c.rank_place hl)⟩

theorem eligible_ranked (c : Chip) : c.eligible.Pairwise fun l m => c.rank l < c.rank m := by
  unfold eligible
  split
  · exact c.order_ranked.filter _
  · exact c.order_ranked.sublist (List.takeWhile_sublist _)

theorem mem_eligible (c : Chip) (l : Line) :
    l ∈ c.eligible ↔ if c.specialMask = true then c.isr.contains l = false
      else ∀ m, c.isr.contains m = true → c.rank l < c.rank m := by
  unfold eligible
  split
  · simp [mem_order]
  · rw [mem_takeWhile_iff_of_ranked c.order_ranked]
    constructor
    · rintro ⟨-, h⟩ m hm
      by_contra hle
      simpa [hm] using h m (c.mem_order m) (by omega)
    · intro h
      refine ⟨c.mem_order l, fun m _ hle => ?_⟩
      by_contra hm
      have hlt := h m (by simpa using hm)
      omega

theorem qualifies_iff_mem_eligible (c : Chip) (l : Line) :
    c.Qualifies l ↔ l ∈ c.eligible ∧ c.isPending l = true := by
  rw [mem_eligible, isPending, Bool.and_eq_true, Bool.not_eq_true', Qualifies]
  tauto

theorem resolve_eq_some_iff (c : Chip) (l : Line) :
    c.resolve = some l ↔ c.output = false ∧ c.Chosen l := by
  rw [resolve_eq]
  split
  · simp [*]
  · simp only [Chosen, qualifies_iff_mem_eligible, find?_eq_some_iff_of_ranked c.eligible_ranked]
    simp_all [and_assoc]

theorem resolve_eq_none_iff (c : Chip) :
    c.resolve = none ↔ c.output = true ∨ ∀ l, ¬c.Qualifies l := by
  rw [resolve_eq]
  split
  · simp [*]
  · simp only [qualifies_iff_mem_eligible, List.find?_eq_none, not_and]
    simp_all

theorem Chosen.unique {c : Chip} {l m : Line} (hl : c.Chosen l) (hm : c.Chosen m) : l = m :=
  c.rank_injective (le_antisymm (hl.2 m hm.1) (hm.2 l hl.1))

theorem chosen_or_none (c : Chip) : (∃ l, c.Chosen l) ∨ ∀ l, ¬c.Qualifies l := by
  cases h : c.eligible.find? c.isPending with
  | some l =>
    rw [find?_eq_some_iff_of_ranked c.eligible_ranked] at h
    refine .inl ⟨l, (c.qualifies_iff_mem_eligible l).2 ⟨h.1, h.2.1⟩, fun m hm => ?_⟩
    rw [qualifies_iff_mem_eligible] at hm
    exact h.2.2 m hm.1 hm.2
  | none =>
    refine .inr fun l hl => ?_
    rw [qualifies_iff_mem_eligible] at hl
    exact List.find?_eq_none.1 h l hl.1 hl.2

/-- A line in service never qualifies. -/
theorem Qualifies.not_in_service {c : Chip} {l : Line} (h : c.Qualifies l) :
    c.isr.contains l = false := by
  obtain ⟨-, -, h⟩ := h
  split at h
  · exact h
  · by_contra hl
    exact absurd (h l (by simpa using hl)) (lt_irrefl _)

end Chip

end Pc8086.Interrupt

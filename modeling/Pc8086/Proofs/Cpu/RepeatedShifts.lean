import Pc8086.Proofs.Cpu.Shifting

namespace Pc8086.Cpu.Shift

/-- One place at a time, `n` times, with the flags handed on. -/
def singly (op : Shift) (w : Width) (n : Nat) (p : UInt32 × Flags) : UInt32 × Flags :=
  Nat.repeat (fun p => op.apply w p.1 1 p.2) n p

theorem repeat_add {α : Type} (f : α → α) (m n : Nat) (a : α) :
    Nat.repeat f (m + n) a = Nat.repeat f n (Nat.repeat f m a) := by
  induction n with
  | zero => rfl
  | succ n ih => exact congrArg f ih

def SameButOverflow (p q : UInt32 × Flags) : Prop :=
  p.1 = q.1 ∧ { p.2 with overflow := false } = { q.2 with overflow := false }

/-- The overflow flag is cleared where the sign that it tells of is lost. -/
def forget (lost : Prop) [Decidable lost] (q : UInt32 × Flags) : UInt32 × Flags :=
  (q.1, if lost then { q.2 with overflow := false } else q.2)

section Forget

variable (lost : Prop) [Decidable lost] (q : UInt32 × Flags)

theorem sameButOverflow_forget : SameButOverflow (forget lost q) q := by
  refine ⟨rfl, ?_⟩
  unfold forget
  split <;> rfl

theorem forget_eq_iff : forget lost q = q ↔ ¬(lost ∧ q.2.overflow = true) := by
  obtain ⟨r, g⟩ := q
  unfold forget
  by_cases h : lost
  · rw [if_pos h]
    constructor
    · intro he ho
      have hoverflow : false = g.overflow := congrArg (fun p => p.2.overflow) he
      exact Bool.false_ne_true (hoverflow.trans ho.2)
    · intro ho
      rw [← Bool.eq_false_iff.2 fun h' => ho ⟨h, h'⟩]
  · rw [if_neg h]
    exact iff_of_true rfl fun ho => h ho.1

end Forget

variable (op : Shift) (w : Width) (v : UInt32) (a b n : UInt8) (f : Flags)

/-- What a shift leaves in the flags does not depend on what another one left there. -/
theorem outcome_outcome (x y : UInt32) (p q : UInt32 × Bool) :
    op.outcome w (op.outcome w f x p).2 y q = op.outcome w f y q := by
  cases op <;> rfl

/-- Only a logical right shift looks back at the number before it. -/
theorem outcome_before {x : UInt32} (y : UInt32) (q : UInt32 × Bool) (h : top w x = false) :
    op.outcome w f x q = forget (op = shr) (op.outcome w f y q) := by
  cases op with
  | shr =>
    unfold outcome overflow
    rw [h]
    rfl
  | _ => rfl

theorem outcome_of_ne_shr (x y : UInt32) (q : UInt32 × Bool) (h : op ≠ shr) :
    op.outcome w f x q = op.outcome w f y q := by
  cases op with
  | shr => exact absurd rfl h
  | _ => rfl

theorem apply_forget (lost : Prop) [Decidable lost] (p : UInt32 × Flags) (h : n ≠ 0) :
    op.apply w (forget lost p).1 n (forget lost p).2 = op.apply w p.1 n p.2 := by
  rw [apply_of_ne_zero op w _ n _ h, apply_of_ne_zero op w _ n _ h]
  unfold forget
  split
  · cases op <;> rfl
  · rfl

/-- The first place of a logical right shift clears the sign. -/
theorem top_apply_shr (h : a ≠ 0) : top w (shr.apply w v a f).1 = false := by
  obtain ⟨m, hm⟩ := exists_succ a h
  have hw := w.one_lt_bits
  rw [apply_result w v a f rfl, top_ofBitVec, moved, BitVec.msb_eq_getLsbD_last,
    BitVec.getLsbD_ushiftRight, BitVec.getLsbD_of_ge _ _ (by omega)]

theorem overflow_apply_shr (h : a ≠ 0) :
    (shr.apply w v a f).2.overflow = (w.toNat v).testBit (w.bits - 1) := by
  rw [apply_of_ne_zero shr w v a f h, ← w.toNat_truncate, ← top_eq_testBit]
  rfl

theorem toNat_add (h : a.toNat + b.toNat < 256) : (a + b).toNat = a.toNat + b.toNat := by
  rw [UInt8.toNat_add, Nat.mod_eq_of_lt h]

theorem add_ne_zero (ha : a ≠ 0) (h : a.toNat + b.toNat < 256) : a + b ≠ 0 := by
  obtain ⟨m, hm⟩ := exists_succ a ha
  intro hz
  have hsum := toNat_add a b h
  rw [hz, hm, UInt8.toNat_zero] at hsum
  omega

/-- A shift goes on from where the one before ended, but a logical right shift has lost the sign. -/
theorem apply_apply (ha : a ≠ 0) (hb : b ≠ 0) (h : a.toNat + b.toNat < 256) :
    op.apply w (op.apply w v a f).1 b (op.apply w v a f).2 =
      forget (op = shr) (op.apply w v (a + b) f) := by
  have hfits : w.truncate (op.apply w v a f).1 = (op.apply w v a f).1 := by
    rw [← UInt32.toNat_inj, w.toNat_truncate, w.toNat_eq_self (shifted_apply op w v a f ha).fits]
  have hplaces : ((op.apply w v a f).1, (op.apply w v a f).2.carry) =
      Nat.repeat (op.place w) a.toNat (w.truncate v, f.carry) := by
    rw [apply_of_ne_zero op w v a f ha, carry_outcome]
    rfl
  have hflags (y : UInt32) (q : UInt32 × Bool) :
      op.outcome w (op.apply w v a f).2 y q = op.outcome w f y q := by
    rw [apply_of_ne_zero op w v a f ha, outcome_outcome]
  rw [apply_of_ne_zero op w _ b _ hb, apply_of_ne_zero op w v _ f (add_ne_zero a b ha h), hfits,
    hplaces, toNat_add a b h, ← repeat_add, hflags]
  by_cases hop : op = shr
  · subst hop
    exact outcome_before shr w f _ _ (top_apply_shr w v a f ha)
  · rw [outcome_of_ne_shr op w f _ (w.truncate v) _ hop, forget, if_neg hop]

/-- By induction on the places. -/
theorem singly_eq (m : Nat) (h : m + 1 < 256) : op.singly w (m + 1) (v, f) =
    forget (op = shr ∧ 0 < m) (op.apply w v (UInt8.ofNat (m + 1)) f) := by
  induction m with
  | zero =>
    unfold forget
    rw [if_neg (fun h => Nat.lt_irrefl 0 h.2)]
    rfl
  | succ m ih =>
    have hm : (UInt8.ofNat (m + 1)).toNat = m + 1 := UInt8.toNat_ofNat_of_lt' (Nat.lt_of_succ_lt h)
    have hne : UInt8.ofNat (m + 1) ≠ 0 := by
      intro hz
      rw [hz] at hm
      cases hm
    have hnext := apply_apply op w v (UInt8.ofNat (m + 1)) 1 f hne (by decide) (by rwa [hm])
    change op.apply w (op.singly w (m + 1) (v, f)).1 1 (op.singly w (m + 1) (v, f)).2 = _
    rw [ih (Nat.lt_of_succ_lt h), apply_forget op w 1 _ _ (by decide), hnext,
      UInt8.ofNat_add (m + 1) 1]
    simp only [Nat.succ_pos, and_true]
    rfl

/-- A shift by many places, or two shifts for one, give the same result and the same flags as one
place at a time, the overflow flag of a negative number after a logical right shift apart: this tells
the sign before the first place, not before the last. -/
theorem repeated_shift_agrees_iff :
    (∀ n : UInt8, n ≠ 0 →
      SameButOverflow (op.singly w n.toNat (v, f)) (op.apply w v n f) ∧
      (op.singly w n.toNat (v, f) = op.apply w v n f ↔
        ¬(op = shr ∧ 1 < n.toNat ∧ (w.toNat v).testBit (w.bits - 1) = true))) ∧
    ∀ a b : UInt8, a ≠ 0 → b ≠ 0 → a.toNat + b.toNat < 256 →
      let p := op.apply w v a f
      SameButOverflow (op.apply w p.1 b p.2) (op.apply w v (a + b) f) ∧
      (op.apply w p.1 b p.2 = op.apply w v (a + b) f ↔
        ¬(op = shr ∧ (w.toNat v).testBit (w.bits - 1) = true)) := by
  refine ⟨fun n hn => ?_, fun a b ha hb h => ?_⟩
  · obtain ⟨m, hm⟩ := exists_succ n hn
    have hlt := n.toNat_lt
    have hsingly := singly_eq op w v f m (by omega)
    rw [← hm, UInt8.ofNat_toNat] at hsingly
    rw [hsingly, forget_eq_iff]
    refine ⟨sameButOverflow_forget _ _, not_congr ?_⟩
    rw [hm, Nat.lt_add_left_iff_pos, and_assoc]
    apply and_congr_right
    rintro rfl
    rw [overflow_apply_shr w v n f hn]
  · intro p
    rw [apply_apply op w v a b f ha hb h, forget_eq_iff]
    refine ⟨sameButOverflow_forget _ _, not_congr (and_congr_right ?_)⟩
    rintro rfl
    rw [overflow_apply_shr w v _ f (add_ne_zero a b ha h)]

/-- A positive byte, for which two places are twice one place. -/
theorem repeated_shift_agrees_of_positive :
    let p := shr.apply .byte 0x41 1 {}
    (2 : UInt8) ≠ 0 ∧ (1 : UInt8) ≠ 0 ∧ (1 : UInt8).toNat + (1 : UInt8).toNat < 256 ∧
      shr.singly .byte 2 (0x41, {}) = shr.apply .byte 0x41 2 {} ∧
      shr.apply .byte p.1 1 p.2 = shr.apply .byte 0x41 2 {} := by
  intro p
  obtain ⟨hsingly, hagain⟩ := repeated_shift_agrees_iff shr .byte 0x41 {}
  exact ⟨by decide, by decide, by decide, (hsingly 2 (by decide)).2.2 (by decide),
    (hagain 1 1 (by decide) (by decide) (by decide)).2.2 (by decide)⟩

/-- Two places at once tell of a sign that is gone after the first of two single places. -/
theorem negative_shift_overflows :
    shr.singly .byte 2 (0x80, {}) = (0x20, {}) ∧
      shr.apply .byte 0x80 2 {} = (0x20, { overflow := true }) := by
  decide +kernel

end Pc8086.Cpu.Shift

import Pc8086.Cpu.Flags

namespace Pc8086.Cpu

/-- No two flags share a bit. -/
theorem Flag.mask_and_mask (a b : Flag) : a.mask &&& b.mask = if a = b then b.mask else 0 := by
  cases a <;> cases b <;> rfl

theorem Flag.mem_all (flag : Flag) : flag ∈ all := by
  cases flag <;> decide

theorem or_and_distrib (v w x : UInt16) : (v ||| w) &&& x = (v &&& x) ||| (w &&& x) := by
  apply UInt16.eq_of_toBitVec_eq
  apply BitVec.eq_of_getLsbD_eq
  intro i _
  simp [Bool.and_or_distrib_right]

theorem or_and_self (v w : UInt16) : (v ||| w) &&& w = w := by
  apply UInt16.eq_of_toBitVec_eq
  apply BitVec.eq_of_getLsbD_eq
  intro i _
  simp +contextual

namespace Flags

variable (f : Flags) (flag : Flag)

theorem packed_and_mask (flags : List Flag) (w : UInt16) :
    flags.foldl (fun w a => if f.get a then w ||| a.mask else w) w &&& flag.mask =
      if flag ∈ flags ∧ f.get flag = true then flag.mask else w &&& flag.mask := by
  induction flags generalizing w with
  | nil => simp
  | cons a flags ih =>
    rw [List.foldl_cons, ih]
    by_cases ha : a = flag
    · subst ha
      by_cases hf : f.get a = true
      · simp [hf, or_and_self]
      · simp [hf]
    · have hm : (w ||| a.mask) &&& flag.mask = w &&& flag.mask := by
        have hz : a.mask &&& flag.mask = 0 := by
          rw [Flag.mask_and_mask, if_neg ha]
        rw [or_and_distrib, hz, UInt16.or_zero]
      have hne : flag ≠ a := fun h => ha h.symm
      by_cases hf : f.get a = true
      · simp [hf, hm, hne]
      · simp [hf, hne]

/-- A flag's bit is set in the word exactly if the flag is set. -/
theorem toWord_and_mask : f.toWord &&& flag.mask = if f.get flag then flag.mask else 0 := by
  have hfixed : fixedOnes &&& flag.mask = 0 := by
    cases flag <;> rfl
  unfold toWord
  rw [packed_and_mask, hfixed]
  simp [Flag.mem_all]

theorem toWord_and_mask_ne_zero : (f.toWord &&& flag.mask != 0) = f.get flag := by
  have hmask : flag.mask ≠ 0 := by
    cases flag <;> decide
  rw [toWord_and_mask]
  cases f.get flag
  · rfl
  · exact bne_iff_ne.2 hmask

@[simp] theorem ofWord_toWord : ofWord f.toWord = f := by
  unfold ofWord
  simp only [toWord_and_mask_ne_zero]
  rfl

end Flags

end Pc8086.Cpu

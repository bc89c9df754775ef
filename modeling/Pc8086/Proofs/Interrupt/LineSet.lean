import Pc8086.Interrupt.LineSet

namespace Pc8086.Interrupt.LineSet

theorem toBitVec_mask (l : Line) : (mask l).toBitVec = BitVec.twoPow 8 l.val := by
  revert l
  decide

theorem contains_eq_getLsbD (s : LineSet) (l : Line) :
    s.contains l = s.byte.toBitVec.getLsbD l.val := by
  have hz : BitVec.twoPow 8 l.val ≠ 0#8 := by
    revert l
    decide
  have hb : s.contains l ↔ s.byte.toBitVec &&& BitVec.twoPow 8 l.val ≠ 0#8 := by
    rw [contains, bne_iff_ne, ne_eq, ← UInt8.toBitVec_inj, UInt8.toBitVec_and, toBitVec_mask]
    rfl
  rw [Bool.eq_iff_iff, hb, BitVec.and_twoPow]
  cases s.byte.toBitVec.getLsbD l.val <;> simp [hz]

@[ext] theorem ext {s t : LineSet} (h : ∀ l, s.contains l = t.contains l) : s = t := by
  obtain ⟨⟨a⟩⟩ := s
  obtain ⟨⟨b⟩⟩ := t
  congr 2
  apply BitVec.eq_of_getLsbD_eq
  intro i hi
  simpa only [contains_eq_getLsbD] using h ⟨i, hi⟩

@[simp] theorem contains_empty (l : Line) : empty.contains l = false := by
  simp [contains_eq_getLsbD, empty]

@[simp] theorem contains_insert (s : LineSet) (l m : Line) :
    (s.insert l).contains m = (decide (m = l) || s.contains m) := by
  have hm : decide (m = l) = (BitVec.twoPow 8 l.val).getLsbD m.val := by
    simp [Fin.ext_iff, eq_comm]
  rw [hm, Bool.or_comm, contains_eq_getLsbD, contains_eq_getLsbD, insert, UInt8.toBitVec_or,
    toBitVec_mask, BitVec.getLsbD_or]

@[simp] theorem contains_erase (s : LineSet) (l m : Line) :
    (s.erase l).contains m = (decide (m ≠ l) && s.contains m) := by
  have hm : decide (m ≠ l) = !(BitVec.twoPow 8 l.val).getLsbD m.val := by
    simp [Fin.ext_iff, eq_comm]
  rw [hm, Bool.and_comm, contains_eq_getLsbD, contains_eq_getLsbD, erase, UInt8.toBitVec_and,
    UInt8.toBitVec_not, toBitVec_mask, BitVec.getLsbD_and, BitVec.getLsbD_not,
    decide_eq_true m.isLt, Bool.true_and]

end Pc8086.Interrupt.LineSet

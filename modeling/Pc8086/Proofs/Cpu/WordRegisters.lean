import Pc8086.Cpu.Register

namespace Pc8086.Cpu

theorem Reg.ofCode_code (r : Reg) : ofCode r.code = r := by
  cases r <;> rfl

namespace Registers

theorem upper_getLsbD : ∀ i, i < 32 → (0xFFFF0000#32).getLsbD i = decide (16 ≤ i) := by
  decide

theorem splice_getLsbD (x : UInt32) (v : UInt16) {i : Nat} (hi : i < 32) :
    ((x &&& 0xFFFF0000) ||| v.toUInt32).toBitVec.getLsbD i =
      if i < 16 then v.toBitVec.getLsbD i else x.toBitVec.getLsbD i := by
  have hu := upper_getLsbD i hi
  rw [UInt32.toBitVec_or, UInt32.toBitVec_and, BitVec.getLsbD_or, BitVec.getLsbD_and,
    UInt16.toBitVec_toUInt32, BitVec.getLsbD_setWidth, decide_eq_true hi, Bool.true_and]
  change (_ && (0xFFFF0000#32).getLsbD i || _) = _
  rw [hu]
  split
  · next hl =>
    have hn : ¬16 ≤ i := by omega
    simp [hn]
  · next hl =>
    have hn : 16 ≤ i := by omega
    simp [hn]

theorem splice_toUInt16 (x : UInt32) (v : UInt16) :
    ((x &&& 0xFFFF0000) ||| v.toUInt32).toUInt16 = v := by
  apply UInt16.eq_of_toBitVec_eq
  apply BitVec.eq_of_getLsbD_eq
  intro i hi
  rw [UInt32.toBitVec_toUInt16, BitVec.getLsbD_setWidth, splice_getLsbD x v (by omega), if_pos hi,
    decide_eq_true hi, Bool.true_and]

theorem splice_self (x : UInt32) : (x &&& 0xFFFF0000) ||| x.toUInt16.toUInt32 = x := by
  apply UInt32.eq_of_toBitVec_eq
  apply BitVec.eq_of_getLsbD_eq
  intro i hi
  rw [splice_getLsbD x _ hi]
  split
  · next hl => rw [UInt32.toBitVec_toUInt16, BitVec.getLsbD_setWidth, decide_eq_true hl,
      Bool.true_and]
  · rfl

theorem splice_splice (x : UInt32) (u v : UInt16) :
    (((x &&& 0xFFFF0000) ||| u.toUInt32) &&& 0xFFFF0000) ||| v.toUInt32 =
      (x &&& 0xFFFF0000) ||| v.toUInt32 := by
  apply UInt32.eq_of_toBitVec_eq
  apply BitVec.eq_of_getLsbD_eq
  intro i hi
  rw [splice_getLsbD _ _ hi, splice_getLsbD _ _ hi, splice_getLsbD _ _ hi]
  split
  · rfl
  · rfl

@[simp] theorem dword_setDword (r : Registers) (i : Reg) (v : UInt32) :
    (r.setDword i v).dword i = v := by
  cases i <;> rfl

theorem dword_setDword_of_ne (r : Registers) {i j : Reg} (h : j ≠ i) (v : UInt32) :
    (r.setDword i v).dword j = r.dword j := by
  cases i <;> cases j <;> first | rfl | exact absurd rfl h

@[simp] theorem setDword_setDword (r : Registers) (i : Reg) (u v : UInt32) :
    (r.setDword i u).setDword i v = r.setDword i v := by
  cases i <;> rfl

@[simp] theorem setDword_self (r : Registers) (i : Reg) : r.setDword i (r.dword i) = r := by
  cases i <;> rfl

@[simp] theorem word_setWord (r : Registers) (i : Reg) (v : UInt16) :
    (r.setWord i v).word i = v := by
  rw [setWord, word, dword_setDword, splice_toUInt16]

theorem word_setWord_of_ne (r : Registers) {i j : Reg} (h : j ≠ i) (v : UInt16) :
    (r.setWord i v).word j = r.word j := by
  rw [setWord, word, dword_setDword_of_ne r h, word]

@[simp] theorem setWord_setWord (r : Registers) (i : Reg) (u v : UInt16) :
    (r.setWord i u).setWord i v = r.setWord i v := by
  rw [setWord, setWord, dword_setDword, setDword_setDword, splice_splice, setWord]

@[simp] theorem setWord_self (r : Registers) (i : Reg) : r.setWord i (r.word i) = r := by
  rw [setWord, word, splice_self, setDword_self]

end Registers

end Pc8086.Cpu

import Mathlib.Data.BitVec
import Pc8086.Cpu.Shift
import Pc8086.Proofs.Cpu.ArithmeticFlags
import Pc8086.Proofs.Cpu.Supply

namespace Pc8086

namespace Width

variable (w : Width)

def bitVec (v : UInt32) : BitVec w.bits :=
  v.toBitVec.setWidth w.bits

def ofBitVec (x : BitVec w.bits) : UInt32 :=
  ⟨x.setWidth 32⟩

theorem one_lt_bits : 1 < w.bits := by
  cases w <;> decide

theorem bits_le : w.bits ≤ 32 := by
  cases w <;> decide

theorem getLsbD_mask : ∀ i < 32, w.mask.toBitVec.getLsbD i = decide (i < w.bits) := by
  cases w <;> decide

theorem getLsbD_signBit : ∀ i < 32, w.signBit.toBitVec.getLsbD i = decide (i = w.bits - 1) := by
  cases w <;> decide

variable {w}

theorem getLsbD_ofBitVec (x : BitVec w.bits) (i : Nat) :
    (w.ofBitVec x).toBitVec.getLsbD i = x.getLsbD i := by
  change (x.setWidth 32).getLsbD i = _
  rw [BitVec.getLsbD_setWidth]
  by_cases hi : i < 32
  · rw [decide_eq_true hi, Bool.true_and]
  · rw [BitVec.getLsbD_of_ge x i (w.bits_le.trans (not_lt.1 hi)), Bool.and_false]

theorem eq_ofBitVec {u : UInt32} {x : BitVec w.bits}
    (h : ∀ i < 32, u.toBitVec.getLsbD i = x.getLsbD i) : u = w.ofBitVec x := by
  apply UInt32.eq_of_toBitVec_eq
  apply BitVec.eq_of_getLsbD_eq
  intro i hi
  rw [h i hi, getLsbD_ofBitVec]

theorem truncate_eq_ofBitVec (v : UInt32) : w.truncate v = w.ofBitVec (w.bitVec v) := by
  refine eq_ofBitVec fun i hi => ?_
  rw [truncate, UInt32.toBitVec_and, BitVec.getLsbD_and, w.getLsbD_mask i hi, bitVec,
    BitVec.getLsbD_setWidth, Bool.and_comm]

theorem toNat_ofBitVec (x : BitVec w.bits) : (w.ofBitVec x).toNat = x.toNat := by
  change (x.setWidth 32).toNat = _
  rw [BitVec.toNat_setWidth]
  exact Nat.mod_eq_of_lt (x.isLt.trans_le (Nat.pow_le_pow_right (by decide) w.bits_le))

theorem toNat_bitVec (v : UInt32) : (w.bitVec v).toNat = w.toNat v :=
  BitVec.toNat_setWidth _ _

theorem toInt_bitVec (v : UInt32) : (w.bitVec v).toInt = w.toInt v :=
  BitVec.toInt_setWidth _

theorem bitVec_ofBitVec (x : BitVec w.bits) : w.bitVec (w.ofBitVec x) = x := by
  apply BitVec.eq_of_toNat_eq
  rw [toNat_bitVec, w.toNat_eq_self (by rw [toNat_ofBitVec]; exact x.isLt), toNat_ofBitVec]

end Width

namespace Cpu.Shift

section Rotation

variable {k : Nat} (x : BitVec k) (n : Nat)

theorem rotateLeft_rotateLeft_one (h : 1 < k) :
    (x.rotateLeft n).rotateLeft 1 = x.rotateLeft (n + 1) := by
  have hn := Nat.mod_lt n (Nat.zero_lt_of_lt h)
  have hsucc := Nat.add_mod_eq_ite (m := n) (n := 1) (k := k)
  rw [Nat.mod_eq_of_lt h] at hsucc
  ext i hi
  simp only [BitVec.getElem_rotateLeft, hsucc, Nat.mod_eq_of_lt h]
  grind

theorem rotateRight_rotateRight_one (h : 1 < k) :
    (x.rotateRight n).rotateRight 1 = x.rotateRight (n + 1) := by
  have hn := Nat.mod_lt n (Nat.zero_lt_of_lt h)
  have hsucc := Nat.add_mod_eq_ite (m := n) (n := 1) (k := k)
  rw [Nat.mod_eq_of_lt h] at hsucc
  ext i hi
  simp only [BitVec.getElem_rotateRight, hsucc, Nat.mod_eq_of_lt h]
  grind

theorem rotateRight_rotateLeft (h : 0 < k) : (x.rotateLeft n).rotateRight n = x := by
  have hn := Nat.mod_lt n h
  ext i hi
  simp only [BitVec.getElem_rotateLeft, BitVec.getElem_rotateRight]
  grind

end Rotation

def moved {k : Nat} (op : Shift) (n : Nat) (x : BitVec k) : BitVec k :=
  match op with
  | rol | rcl => x.rotateLeft n
  | ror | rcr => x.rotateRight n
  | shl | sal => x <<< n
  | shr => x >>> n
  | sar => x.sshiftRight n

def leaving {k : Nat} (op : Shift) (x : BitVec k) : Bool :=
  match op with
  | rol | rcl | shl | sal => x.msb
  | ror | rcr | shr | sar => x.getLsbD 0

theorem moved_one_moved {k : Nat} (op : Shift) (n : Nat) (x : BitVec k) (h : 1 < k) :
    op.moved 1 (op.moved n x) = op.moved (n + 1) x := by
  cases op with
  | rol | rcl => exact rotateLeft_rotateLeft_one x n h
  | ror | rcr => exact rotateRight_rotateRight_one x n h
  | shl | sal => exact (BitVec.shiftLeft_add x n 1).symm
  | shr => exact (BitVec.shiftRight_add x n 1).symm
  | sar => exact BitVec.sshiftRight_add.symm

variable {w : Width} (x y : BitVec w.bits) (fill c : Bool)

theorem top_ofBitVec : top w (w.ofBitVec x) = x.msb := by
  rw [top, Alu.and_bit_ne_zero w.signBit_toNat, Width.toNat_ofBitVec, BitVec.testBit_toNat,
    BitVec.msb_eq_getLsbD_last]

theorem low_ofBitVec : low (w.ofBitVec x) = x.getLsbD 0 := by
  have hm : (1 : UInt32).toNat = 2 ^ 0 := rfl
  rw [low, Alu.and_bit_ne_zero hm, Width.toNat_ofBitVec, BitVec.testBit_toNat]

theorem getLsbD_toUInt32 (fill : Bool) (i : Nat) :
    fill.toUInt32.toBitVec.getLsbD i = (decide (i = 0) && fill) := by
  cases fill with
  | false =>
    rw [Bool.and_false]
    exact BitVec.getLsbD_zero
  | true =>
    rw [Bool.and_true]
    exact (BitVec.getLsbD_one (w := 32)).trans (Bool.true_and _)

theorem up_ofBitVec {x y : BitVec w.bits} {fill : Bool}
    (h : ∀ i < w.bits, y.getLsbD i = if i = 0 then fill else x.getLsbD (i - 1)) :
    up w (w.ofBitVec x) fill = w.ofBitVec y := by
  refine Width.eq_ofBitVec fun i hi => ?_
  have hshift : (w.ofBitVec x <<< 1).toBitVec.getLsbD i =
      (decide (i ≠ 0) && x.getLsbD (i - 1)) := by
    change ((w.ofBitVec x).toBitVec <<< 1).getLsbD i = _
    rw [BitVec.getLsbD_shiftLeft, Width.getLsbD_ofBitVec]
    grind
  rw [up, Width.truncate, UInt32.toBitVec_and, BitVec.getLsbD_and, w.getLsbD_mask i hi,
    UInt32.toBitVec_or, BitVec.getLsbD_or, getLsbD_toUInt32, hshift]
  by_cases hw : i < w.bits
  · rw [h i hw]
    grind
  · rw [BitVec.getLsbD_of_ge y i (not_lt.1 hw), decide_eq_false hw, Bool.and_false]

theorem down_ofBitVec {x y : BitVec w.bits} {fill : Bool}
    (h : ∀ i < w.bits, y.getLsbD i = if i = w.bits - 1 then fill else x.getLsbD (i + 1)) :
    down w (w.ofBitVec x) fill = w.ofBitVec y := by
  refine Width.eq_ofBitVec fun i hi => ?_
  have hshift : (w.ofBitVec x >>> 1).toBitVec.getLsbD i = x.getLsbD (i + 1) := by
    change ((w.ofBitVec x).toBitVec >>> 1).getLsbD i = _
    rw [BitVec.getLsbD_ushiftRight, Width.getLsbD_ofBitVec, Nat.add_comm]
  have hfill : (if fill then w.signBit else 0).toBitVec.getLsbD i =
      (decide (i = w.bits - 1) && fill) := by
    cases fill with
    | false =>
      rw [Bool.and_false]
      exact BitVec.getLsbD_zero
    | true => rw [if_pos rfl, w.getLsbD_signBit i hi, Bool.and_true]
  rw [down, UInt32.toBitVec_or, BitVec.getLsbD_or, hshift, hfill]
  have hpos := w.one_lt_bits
  by_cases hw : i < w.bits
  · rw [h i hw]
    have hlast := BitVec.getLsbD_of_ge x (i + 1)
    grind
  · rw [BitVec.getLsbD_of_ge y i (not_lt.1 hw), BitVec.getLsbD_of_ge x _ (by omega)]
    grind

def throughCarry : Shift → Bool
  | rcl | rcr => true
  | _ => false

theorem place_ofBitVec {op : Shift} (h : op.throughCarry = false) :
    op.place w (w.ofBitVec x, c) = (w.ofBitVec (op.moved 1 x), op.leaving x) := by
  have hw := w.one_lt_bits
  have h1 := Nat.mod_eq_of_lt hw
  cases op with
  | rol =>
    refine Prod.ext (up_ofBitVec fun i hi => ?_) (top_ofBitVec x)
    rw [top_ofBitVec, moved, BitVec.getLsbD_rotateLeft, BitVec.msb_eq_getLsbD_last, h1]
    grind
  | ror =>
    refine Prod.ext (down_ofBitVec fun i hi => ?_) (low_ofBitVec x)
    rw [low_ofBitVec, moved, BitVec.getLsbD_rotateRight, h1]
    grind
  | shl | sal =>
    refine Prod.ext (up_ofBitVec fun i hi => ?_) (top_ofBitVec x)
    rw [moved, BitVec.getLsbD_shiftLeft]
    grind
  | shr =>
    refine Prod.ext (down_ofBitVec fun i hi => ?_) (low_ofBitVec x)
    rw [moved, BitVec.getLsbD_ushiftRight]
    grind
  | sar =>
    refine Prod.ext (down_ofBitVec fun i hi => ?_) (low_ofBitVec x)
    rw [top_ofBitVec, moved, BitVec.getLsbD_sshiftRight]
    grind
  | rcl | rcr => exact Bool.noConfusion h

def withCarry (w : Width) (y : BitVec (w.bits + 1)) : UInt32 × Bool :=
  (w.ofBitVec (y.setWidth w.bits), y.msb)

theorem withCarry_cons : withCarry w (.cons c x) = (w.ofBitVec x, c) := by
  rw [withCarry, BitVec.setWidth_cons, BitVec.msb_cons]

theorem place_withCarry {op : Shift} (h : op.throughCarry = true) (y : BitVec (w.bits + 1)) :
    op.place w (withCarry w y) = withCarry w (op.moved 1 y) := by
  have hw := w.one_lt_bits
  have h1 : 1 % (w.bits + 1) = 1 := Nat.mod_eq_of_lt (by omega)
  cases op with
  | rcl =>
    refine Prod.ext (up_ofBitVec fun i hi => ?_) ?_
    · rw [moved, BitVec.getLsbD_setWidth, BitVec.getLsbD_rotateLeft, BitVec.msb_eq_getLsbD_last, h1]
      grind
    · change top w (w.ofBitVec _) = (y.rotateLeft 1).msb
      rw [top_ofBitVec, BitVec.msb_eq_getLsbD_last, BitVec.msb_eq_getLsbD_last,
        BitVec.getLsbD_rotateLeft, BitVec.getLsbD_setWidth, h1]
      grind
  | rcr =>
    refine Prod.ext (down_ofBitVec fun i hi => ?_) ?_
    · rw [moved, BitVec.getLsbD_setWidth, BitVec.getLsbD_rotateRight, BitVec.msb_eq_getLsbD_last,
        h1]
      grind
    · change low (w.ofBitVec _) = (y.rotateRight 1).msb
      rw [low_ofBitVec, BitVec.msb_eq_getLsbD_last, BitVec.getLsbD_rotateRight,
        BitVec.getLsbD_setWidth, h1]
      grind
  | _ => exact Bool.noConfusion h

theorem moved_zero {k : Nat} (op : Shift) (x : BitVec k) : op.moved 0 x = x := by
  cases op with
  | rol | rcl =>
    ext i hi
    rw [moved, BitVec.getElem_rotateLeft, dif_neg (by simp)]
    simp
  | ror | rcr =>
    ext i hi
    rw [moved, BitVec.getElem_rotateRight, dif_pos (by simpa)]
    simp
  | shl | sal => exact BitVec.shiftLeft_zero x
  | shr => exact BitVec.ushiftRight_zero x
  | sar => exact BitVec.sshiftRight_zero

/-- By induction on the places: the last bit to leave is the carry. -/
theorem places_ofBitVec {op : Shift} (h : op.throughCarry = false) (n : Nat) :
    Nat.repeat (op.place w) (n + 1) (w.ofBitVec x, c) =
      (w.ofBitVec (op.moved (n + 1) x), op.leaving (op.moved n x)) := by
  induction n with
  | zero =>
    rw [moved_zero]
    exact place_ofBitVec x c h
  | succ n ih =>
    rw [Nat.repeat, ih, place_ofBitVec _ _ h, moved_one_moved op (n + 1) x w.one_lt_bits]

theorem places_withCarry {op : Shift} (h : op.throughCarry = true) (y : BitVec (w.bits + 1))
    (n : Nat) : Nat.repeat (op.place w) n (withCarry w y) = withCarry w (op.moved n y) := by
  induction n with
  | zero => rw [moved_zero, Nat.repeat]
  | succ n ih =>
    rw [Nat.repeat, ih, place_withCarry h,
      moved_one_moved op n y (w.one_lt_bits.trans (Nat.lt_succ_self _))]

section Apply

variable (op : Shift) (w : Width) (v : UInt32) (n : UInt8) (f : Flags)

theorem apply_zero : op.apply w v 0 f = (w.truncate v, f) := rfl

/-- What the number `before` leaves in the flags when its places have ended in `q`. -/
def outcome (before : UInt32) (q : UInt32 × Bool) : UInt32 × Flags :=
  let g := { f with carry := q.2, overflow := op.overflow w before q.1 q.2 }
  (q.1, if op.isRotate then g else Alu.flagResult w q.1 g)

theorem apply_of_ne_zero (h : n ≠ 0) : op.apply w v n f =
    op.outcome w f (w.truncate v)
      (Nat.repeat (op.place w) n.toNat (w.truncate v, f.carry)) := by
  unfold apply
  dsimp only
  rw [if_neg (mt eq_of_beq h)]
  rfl

theorem carry_outcome (before : UInt32) (q : UInt32 × Bool) :
    (op.outcome w f before q).2.carry = q.2 := by
  cases op <;> rfl

theorem exists_succ (h : n ≠ 0) : ∃ m, n.toNat = m + 1 :=
  Nat.exists_eq_succ_of_ne_zero fun hz => h (UInt8.toNat_inj.1 hz)

variable {op}

theorem apply_result (h : op.throughCarry = false) :
    (op.apply w v n f).1 = w.ofBitVec (op.moved n.toNat (w.bitVec v)) := by
  by_cases hn : n = 0
  · rw [hn, apply_zero, UInt8.toNat_zero, moved_zero, Width.truncate_eq_ofBitVec]
  · obtain ⟨m, hm⟩ := exists_succ n hn
    rw [apply_of_ne_zero op w v n f hn, hm, Width.truncate_eq_ofBitVec]
    exact congrArg Prod.fst (places_ofBitVec (w.bitVec v) f.carry h m)

theorem apply_withCarry (h : op.throughCarry = true) :
    ((op.apply w v n f).1, (op.apply w v n f).2.carry) =
      withCarry w (op.moved n.toNat (.cons f.carry (w.bitVec v))) := by
  have hstart : withCarry w (.cons f.carry (w.bitVec v)) = (w.truncate v, f.carry) := by
    rw [withCarry_cons, Width.truncate_eq_ofBitVec]
  by_cases hn : n = 0
  · rw [hn, apply_zero, UInt8.toNat_zero, moved_zero, hstart]
  · rw [apply_of_ne_zero op w v n f hn, carry_outcome, ← places_withCarry h, hstart]
    rfl

end Apply

/-- What the operand `v` with the carry `c` amounts to after `n` places: `r` with the carry `d`. The
rotates move around the bits of the operand, or those of the operand below the carry; otherwise the
carry is the bit that left last. -/
def Amounts (op : Shift) (w : Width) (v : UInt32) (c : Bool) (n : Nat) (r : UInt32) (d : Bool) :
    Prop :=
  match op with
  | shl | sal =>
    r.toNat = w.toNat v * 2 ^ n % 2 ^ w.bits ∧
      d = (decide (n ≤ w.bits) && (w.toNat v).testBit (w.bits - n))
  | shr =>
    r.toNat = w.toNat v / 2 ^ n ∧ d = (decide (n ≤ w.bits) && (w.toNat v).testBit (n - 1))
  | sar =>
    w.toInt r = w.toInt v / (2 ^ n : Nat) ∧
      d = (w.toNat v).testBit (if n < w.bits then n - 1 else w.bits - 1)
  | rol =>
    w.bitVec r = (w.bitVec v).rotateLeft (n % w.bits) ∧
      d = (w.toNat v).testBit (w.bits - 1 - (n - 1) % w.bits)
  | ror =>
    w.bitVec r = (w.bitVec v).rotateRight (n % w.bits) ∧
      d = (w.toNat v).testBit ((n - 1) % w.bits)
  | rcl =>
    BitVec.cons d (w.bitVec r) = (BitVec.cons c (w.bitVec v)).rotateLeft (n % (w.bits + 1))
  | rcr =>
    BitVec.cons d (w.bitVec r) = (BitVec.cons c (w.bitVec v)).rotateRight (n % (w.bits + 1))

theorem testBit_toNat (w : Width) (v : UInt32) (i : Nat) :
    (w.toNat v).testBit i = (w.bitVec v).getLsbD i := by
  rw [← Width.toNat_bitVec, BitVec.testBit_toNat]

theorem amounts_places (op : Shift) (w : Width) (v : UInt32) (c : Bool) (n : Nat) :
    let p := Nat.repeat (op.place w) (n + 1) (w.truncate v, c)
    op.Amounts w v c (n + 1) p.1 p.2 := by
  intro p
  have hw := w.one_lt_bits
  -- place by place is all places at once: on the value, or on the value with the carry on top
  have hplain (h : op.throughCarry = false) :
      p = (w.ofBitVec (op.moved (n + 1) (w.bitVec v)), op.leaving (op.moved n (w.bitVec v))) := by
    rw [← places_ofBitVec _ c h, ← Width.truncate_eq_ofBitVec]
  have hcarry (h : op.throughCarry = true) :
      p = withCarry w (op.moved (n + 1) (.cons c (w.bitVec v))) := by
    rw [← places_withCarry h, withCarry_cons, ← Width.truncate_eq_ofBitVec]
  cases op with
  | shl | sal =>
    rw [hplain rfl]
    refine ⟨?_, ?_⟩
    · rw [Width.toNat_ofBitVec, moved, BitVec.toNat_shiftLeft, Width.toNat_bitVec, Nat.shiftLeft_eq]
    · dsimp only [leaving, moved]
      rw [BitVec.msb_shiftLeft, BitVec.getMsbD_eq_getLsbD, testBit_toNat,
        Nat.sub_sub, Nat.add_comm 1 n]
      rfl
  | shr =>
    rw [hplain rfl]
    refine ⟨?_, ?_⟩
    · rw [Width.toNat_ofBitVec, moved, BitVec.toNat_ushiftRight, Width.toNat_bitVec,
        Nat.shiftRight_eq_div_pow]
    · dsimp only [leaving, moved]
      rw [BitVec.getLsbD_ushiftRight, testBit_toNat]
      -- past the width all bits are shifted out, and zero leaves
      have hge := BitVec.getLsbD_of_ge (w.bitVec v) n
      grind
  | sar =>
    rw [hplain rfl]
    refine ⟨?_, ?_⟩
    · rw [← Width.toInt_bitVec, Width.bitVec_ofBitVec, moved, BitVec.toInt_sshiftRight,
        Width.toInt_bitVec, Int.shiftRight_eq_div_pow]
    · dsimp only [leaving, moved]
      rw [BitVec.getLsbD_sshiftRight, testBit_toNat, BitVec.msb_eq_getLsbD_last]
      grind
  | rol =>
    rw [hplain rfl]
    refine ⟨?_, ?_⟩
    · rw [Width.bitVec_ofBitVec, moved, BitVec.rotateLeft_mod_eq_rotateLeft]
    · have hn := Nat.mod_lt n (Nat.zero_lt_of_lt hw)
      dsimp only [leaving, moved]
      rw [BitVec.msb_eq_getLsbD_last, BitVec.getLsbD_rotateLeft, testBit_toNat]
      grind
  | ror =>
    rw [hplain rfl]
    refine ⟨?_, ?_⟩
    · rw [Width.bitVec_ofBitVec, moved, BitVec.rotateRight_mod_eq_rotateRight]
    · have hn := Nat.mod_lt n (Nat.zero_lt_of_lt hw)
      dsimp only [leaving, moved]
      rw [BitVec.getLsbD_rotateRight, testBit_toNat]
      grind
  | rcl =>
    rw [hcarry rfl, Amounts, withCarry, Width.bitVec_ofBitVec, BitVec.cons_msb_setWidth, moved,
      BitVec.rotateLeft_mod_eq_rotateLeft]
  | rcr =>
    rw [hcarry rfl, Amounts, withCarry, Width.bitVec_ofBitVec, BitVec.cons_msb_setWidth, moved,
      BitVec.rotateRight_mod_eq_rotateRight]

/-- The overflow flag after a single place: whether the sign has changed, but the old sign for a
right shift, and nothing for an arithmetic one. -/
def overflowOfOne (op : Shift) (w : Width) (v r : UInt32) : Bool :=
  match op with
  | shr => (w.toNat v).testBit (w.bits - 1)
  | sar => false
  | rol | ror | rcl | rcr | shl | sal =>
    (w.toNat v).testBit (w.bits - 1) != r.toNat.testBit (w.bits - 1)

structure Shifted (op : Shift) (w : Width) (v : UInt32) (f : Flags) (n : Nat)
    (p : UInt32 × Flags) : Prop where
  fits : p.1.toNat < 2 ^ w.bits
  amounts : op.Amounts w v f.carry n p.1 p.2.carry
  /-- The flags of the result are left alone by rotates. -/
  zero : if op.isRotate then p.2.zero = f.zero else (p.2.zero = true ↔ p.1 = 0)
  sign : if op.isRotate then p.2.sign = f.sign else p.2.sign = p.1.toNat.testBit (w.bits - 1)
  parity : if op.isRotate then p.2.parity = f.parity
    else (p.2.parity = true ↔ Even (Nat.digits 2 (p.1.toNat % 256)).sum)
  overflow : n = 1 → p.2.overflow = op.overflowOfOne w v p.1
  adjust : p.2.adjust = f.adjust
  trap : p.2.trap = f.trap
  interrupt : p.2.interrupt = f.interrupt
  direction : p.2.direction = f.direction

section Flags

variable (op : Shift) (w : Width) (v : UInt32) (n : UInt8) (f : Flags)

/-- The bit below the top one is the old top one. -/
theorem second_down (fill : Bool) :
    (down w v fill &&& (w.signBit >>> 1) != 0) = top w v := by
  have hbit : (w.signBit >>> 1).toNat = 2 ^ (w.bits - 2) := by
    cases w <;> rfl
  have hfill : (if fill then w.signBit else 0).toNat.testBit (w.bits - 2) = false := by
    cases fill with
    | false => exact Nat.zero_testBit _
    | true =>
      rw [if_pos rfl, w.signBit_toNat]
      exact Nat.testBit_two_pow_of_ne (by cases w <;> decide)
  have hnext : w.bits - 1 = 1 + (w.bits - 2) := by
    cases w <;> rfl
  rw [top, Alu.and_bit_ne_zero hbit, Alu.and_bit_ne_zero w.signBit_toNat, down, UInt32.toNat_or,
    Nat.testBit_or, hfill, Bool.or_false, UInt32.toNat_shiftRight, hnext]
  exact Nat.testBit_shiftRight _

theorem top_eq_testBit : top w v = v.toNat.testBit (w.bits - 1) :=
  Alu.and_bit_ne_zero w.signBit_toNat v

theorem overflow_place (c : Bool) :
    let q := op.place w (w.truncate v, c)
    op.overflow w (w.truncate v) q.1 q.2 = op.overflowOfOne w v q.1 := by
  intro q
  unfold overflowOfOne
  rw [← w.toNat_truncate, ← top_eq_testBit, ← top_eq_testBit]
  cases op with
  | rol | rcl | shl | sal => exact bne_comm
  | ror | rcr => exact (congrArg (top w q.1 != ·) (second_down w _ _)).trans bne_comm
  | shr | sar => rfl

theorem places_lt (m : Nat) (c : Bool) :
    (Nat.repeat (op.place w) (m + 1) (w.truncate v, c)).1.toNat < 2 ^ w.bits := by
  rw [Width.truncate_eq_ofBitVec]
  cases h : op.throughCarry with
  | false =>
    rw [places_ofBitVec _ c h, Width.toNat_ofBitVec]
    exact BitVec.isLt _
  | true =>
    rw [← withCarry_cons, places_withCarry h, withCarry, Width.toNat_ofBitVec]
    exact BitVec.isLt _

theorem zero_flagResult (r : UInt32) (h : r.toNat < 2 ^ w.bits) :
    (Alu.flagResult w r f).zero = true ↔ r = 0 := by
  change (w.truncate r == 0) = true ↔ _
  rw [beq_iff_eq, ← UInt32.toNat_inj, ← UInt32.toNat_inj, w.toNat_truncate, w.toNat_eq_self h]

theorem shifted_apply (h : n ≠ 0) : op.Shifted w v f n.toNat (op.apply w v n f) := by
  obtain ⟨m, hm⟩ := exists_succ n h
  obtain ⟨q, hq⟩ : ∃ q, q = Nat.repeat (op.place w) (m + 1) (w.truncate v, f.carry) := ⟨_, rfl⟩
  have hlt : q.1.toNat < 2 ^ w.bits := hq ▸ places_lt op w v m f.carry
  have hamounts : op.Amounts w v f.carry (m + 1) q.1 q.2 := hq ▸ amounts_places op w v f.carry m
  have hoverflow (hone : m + 1 = 1) :
      op.overflow w (w.truncate v) q.1 q.2 = op.overflowOfOne w v q.1 := by
    obtain rfl : m = 0 := by omega
    rw [hq]
    exact overflow_place op w v f.carry
  rw [apply_of_ne_zero op w v n f h, hm, ← hq]
  unfold outcome
  cases hr : op.isRotate with
  | true => exact
    { fits := hlt, amounts := hamounts, overflow := hoverflow
      zero := by rw [if_pos hr]; rfl
      sign := by rw [if_pos hr]; rfl
      parity := by rw [if_pos hr]; rfl
      adjust := rfl, trap := rfl, interrupt := rfl, direction := rfl }
  | false =>
    have hnot : ¬op.isRotate = true := Bool.eq_false_iff.1 hr
    exact
    { fits := hlt, amounts := hamounts, overflow := hoverflow
      zero := by
        rw [if_neg hnot]
        exact zero_flagResult w _ q.1 hlt
      sign := by
        rw [if_neg hnot]
        exact top_eq_testBit w q.1
      parity := by
        rw [if_neg hnot]
        exact Alu.parity_iff q.1
      adjust := rfl, trap := rfl, interrupt := rfl, direction := rfl }

theorem ror_apply_rol :
    (ror.apply w (rol.apply w v n f).1 n (rol.apply w v n f).2).1 = w.truncate v := by
  rw [apply_result w _ n _ rfl, apply_result w v n f rfl, Width.bitVec_ofBitVec, moved, moved,
    rotateRight_rotateLeft _ _ (Nat.zero_lt_of_lt w.one_lt_bits), Width.truncate_eq_ofBitVec]

/-- The carry comes back with the operand. -/
theorem rcr_apply_rcl :
    let p := rcl.apply w v n f
    let q := rcr.apply w p.1 n p.2
    (q.1, q.2.carry) = (w.truncate v, f.carry) := by
  intro p q
  have hp : (p.1, p.2.carry) = _ := apply_withCarry w v n f rfl
  have hq : (q.1, q.2.carry) = _ := apply_withCarry w p.1 n p.2 rfl
  obtain ⟨hresult, hcarry⟩ := Prod.mk.inj hp
  rw [hq, hresult, hcarry, Width.bitVec_ofBitVec, BitVec.cons_msb_setWidth, moved, moved,
    rotateRight_rotateLeft _ _ (Nat.succ_pos _), withCarry_cons, Width.truncate_eq_ofBitVec]

end Flags

end Cpu.Shift

namespace Cpu

open Exec Shift

/-- An operand that can be read is shifted with its flags, and written unless the count is zero. -/
theorem execute_shift {β : Type} [Bus β] {op : Shift} {w : Width} {target : Place} {n : UInt8}
    {s u : System β} {v : UInt32} (h : readPlace w target s = .ok v u) :
    execute (.shift op w target n) s =
      (if n ≠ 0 then writePlace w (op.apply w v n u.cpu.registers.flags).1 target else pure ())
        { u with cpu.registers.flags := (op.apply w v n u.cpu.registers.flags).2 } := by
  change (do
    let v ← readPlace w target
    let result ← withFlags (op.apply w v n)
    if n != 0 then writePlace w result target) s = _
  rw [bind_ok _ h]
  simp only [bne_iff_ne]
  rfl

/-- Shifts and rotates by any count. A count of zero changes nothing, not even in memory. A rotate
to the right undoes one to the left, through the carry together with the carry. -/
theorem results_and_flags_of_shifts {β : Type} [Bus β] (w : Width) (v : UInt32) (f : Flags) :
    (∀ (op : Shift) (n : UInt8), n ≠ 0 → op.Shifted w v f n.toNat (op.apply w v n f)) ∧
    (∀ op : Shift, op.apply w v 0 f = (w.truncate v, f)) ∧
    (∀ (op : Shift) (n : UInt8) (target : Place) (s u : System β),
      readPlace w target s = .ok v u → u.cpu.registers.flags = f →
      execute (.shift op w target n) s =
        (if n ≠ 0 then writePlace w (op.apply w v n f).1 target else pure ())
          { u with cpu.registers.flags := (op.apply w v n f).2 }) ∧
    (∀ n : UInt8,
      let p := rol.apply w v n f
      (ror.apply w p.1 n p.2).1 = w.truncate v) ∧
    ∀ n : UInt8,
      let p := rcl.apply w v n f
      let q := rcr.apply w p.1 n p.2
      (q.1, q.2.carry) = (w.truncate v, f.carry) := by
  refine ⟨fun op n => shifted_apply op w v n f, fun op => apply_zero op w v f, ?_,
    fun n => ror_apply_rol w v n f, fun n => rcr_apply_rcl w v n f⟩
  rintro op n target s u h rfl
  exact execute_shift h

def negativeByte : System (Board ExpansionCard) where
  cpu := { registers := { ecx := 0x81 } }
  bus := loaded []

/-- Behind its last bit nothing but the sign of the byte is left. -/
theorem results_and_flags_of_long_shift :
    let p := sar.apply .byte 0x81 9 {}
    (9 : UInt8) ≠ 0 ∧ sar.Shifted .byte 0x81 {} 9 p ∧ p.1 = 0xFF ∧ p.2.carry = true ∧
      readPlace .byte (.register .cx) negativeByte = .ok 0x81 negativeByte ∧
      execute (.shift .sar .byte (.register .cx) 9) negativeByte =
        writePlace .byte 0xFF (.register .cx) { negativeByte with cpu.registers.flags := p.2 } := by
  intro p
  obtain ⟨hshifted, -, hexecute, -, -⟩ :=
    results_and_flags_of_shifts (β := Board ExpansionCard) .byte 0x81 {}
  have hread : readPlace .byte (.register .cx) negativeByte = .ok 0x81 negativeByte := rfl
  refine ⟨by decide, hshifted sar 9 (by decide), by decide +kernel, by decide +kernel, hread, ?_⟩
  exact hexecute sar 9 _ _ _ hread rfl

end Cpu

end Pc8086

import Mathlib.Logic.Function.Basic
import Pc8086.Cpu.RegisterCells
import Pc8086.Proofs.Cpu.RegisterFile

namespace Pc8086.Cpu

def joined (hi lo : UInt16) : UInt32 :=
  hi.toUInt32 <<< 16 ||| lo.toUInt32

section Halves

variable (hi lo : UInt16)

theorem toBitVec_joined : (joined hi lo).toBitVec = hi.toBitVec ++ lo.toBitVec := by
  have hlt : hi.toNat <<< 16 < 2 ^ 32 := by
    have h := hi.toNat_lt
    rw [Nat.shiftLeft_eq]
    omega
  apply BitVec.eq_of_toNat_eq
  rw [UInt32.toNat_toBitVec, joined, UInt32.toNat_or, UInt32.toNat_shiftLeft,
    UInt16.toNat_toUInt32, UInt16.toNat_toUInt32, BitVec.toNat_append]
  exact congrArg (· ||| lo.toNat) (Nat.mod_eq_of_lt hlt)

theorem joined_toNat : (joined hi lo).toNat = hi.toNat * 2 ^ 16 + lo.toNat := by
  rw [← UInt32.toNat_toBitVec, toBitVec_joined, BitVec.toNat_append,
    ← Nat.shiftLeft_add_eq_or_of_lt lo.toBitVec.isLt, Nat.shiftLeft_eq]
  rfl

@[simp] theorem joined_toUInt16 : (joined hi lo).toUInt16 = lo := by
  have h := lo.toNat_lt
  rw [← UInt16.toNat_inj, UInt32.toNat_toUInt16, joined_toNat]
  omega

theorem joined_upper : (joined hi lo >>> 16).toUInt16 = hi := by
  have h := hi.toNat_lt
  have h' := lo.toNat_lt
  rw [← UInt16.toNat_inj, UInt32.toNat_toUInt16, UInt32.toNat_shiftRight, joined_toNat]
  change (_ >>> 16) % 2 ^ 16 = _
  rw [Nat.shiftRight_eq_div_pow]
  omega

theorem joined_halves (v : UInt32) : joined (v >>> 16).toUInt16 v.toUInt16 = v := by
  have h := v.toNat_lt
  rw [← UInt32.toNat_inj, joined_toNat, UInt32.toNat_toUInt16, UInt32.toNat_toUInt16,
    UInt32.toNat_shiftRight]
  change (v.toNat >>> 16) % 2 ^ 16 * 2 ^ 16 + _ = _
  rw [Nat.shiftRight_eq_div_pow]
  omega

theorem joined_injective {hi' lo' : UInt16} (h : joined hi lo = joined hi' lo') :
    hi = hi' ∧ lo = lo' := by
  constructor
  · rw [← joined_upper hi lo, h, joined_upper]
  · rw [← joined_toUInt16 hi lo, h, joined_toUInt16]

theorem joined_and (hi' lo' : UInt16) :
    joined hi lo &&& joined hi' lo' = joined (hi &&& hi') (lo &&& lo') := by
  apply UInt32.eq_of_toBitVec_eq
  rw [UInt32.toBitVec_and, toBitVec_joined, toBitVec_joined, toBitVec_joined, BitVec.and_append]
  rfl

theorem joined_or (hi' lo' : UInt16) :
    joined hi lo ||| joined hi' lo' = joined (hi ||| hi') (lo ||| lo') := by
  apply UInt32.eq_of_toBitVec_eq
  rw [UInt32.toBitVec_or, toBitVec_joined, toBitVec_joined, toBitVec_joined, BitVec.or_append]
  rfl

/-- Masks that spare the upper half let only the lower one be replaced. -/
theorem joined_splice {mask : UInt32} {low : UInt16} (hmask : mask = joined 0xFFFF low)
    {v : UInt32} {u : UInt16} (hv : v = joined 0 u) :
    (joined hi lo &&& mask) ||| v = joined hi ((lo &&& low) ||| u) := by
  have hhi : hi &&& 0xFFFF = hi := UInt16.and_neg_one
  rw [hmask, hv, joined_and, joined_or, hhi, UInt16.or_zero]

theorem joined_zero (u : UInt16) : joined 0 u = u.toUInt32 :=
  UInt32.zero_or

end Halves

namespace Cell

/-- Disjoint bits add up without carries. -/
theorem add_eq_or {x y : UInt16} (h : x &&& y = 0) : x + y = x ||| y := by
  apply UInt16.eq_of_toBitVec_eq
  rw [UInt16.toBitVec_add, UInt16.toBitVec_or]
  exact BitVec.add_eq_or_of_and_eq_zero _ _ (congrArg UInt16.toBitVec h)

section Bytes

variable (v : UInt8)

theorem toUInt16_and : v.toUInt16 &&& 0xFF = v.toUInt16 := by
  rw [← UInt16.toNat_inj, UInt16.toNat_and, UInt8.toNat_toUInt16]
  exact (Nat.and_two_pow_sub_one_eq_mod _ 8).trans (Nat.mod_eq_of_lt v.toNat_lt)

theorem shifted_toNat : (v.toUInt16 <<< 8).toNat = v.toNat * 2 ^ 8 := by
  have hv := v.toNat_lt
  rw [UInt16.toNat_shiftLeft, UInt8.toNat_toUInt16]
  change v.toNat <<< 8 % 2 ^ 16 = _
  rw [Nat.shiftLeft_eq]
  omega

theorem shifted_and : v.toUInt16 <<< 8 &&& 0xFF = 0 := by
  rw [← UInt16.toNat_inj, UInt16.toNat_and, shifted_toNat]
  exact (Nat.and_two_pow_sub_one_eq_mod _ 8).trans (Nat.mul_mod_left _ _)

end Bytes

variable (c : Cell) (v : UInt8)

theorem setLow_value : (c.setLow v).value = (c.value &&& 0xFF00) ||| v.toUInt16 := by
  have hmasks : (0xFF00 : UInt16) &&& 0xFF = 0 := rfl
  apply add_eq_or
  rw [← toUInt16_and v, UInt16.and_comm v.toUInt16, UInt16.and_assoc, ← UInt16.and_assoc 0xFF00,
    hmasks, UInt16.zero_and, UInt16.and_zero]

theorem setHigh_value : (c.setHigh v).value = (c.value &&& (0xFF : UInt16)) ||| v.toUInt16 <<< 8 := by
  apply add_eq_or
  rw [UInt16.and_assoc, UInt16.and_comm 0xFF, shifted_and, UInt16.and_zero]

theorem low_toNat : c.low.toNat = c.value.toNat % 2 ^ 8 := by
  rw [low, UInt16.toNat_toUInt8, UInt16.toNat_and]
  change (c.value.toNat &&& 2 ^ 8 - 1) % 2 ^ 8 = _
  rw [Nat.and_two_pow_sub_one_eq_mod, Nat.mod_mod]

theorem high_toNat : c.high.toNat = c.value.toNat / 2 ^ 8 := by
  have hv := c.value.toNat_lt
  rw [high, UInt16.toNat_toUInt8, UInt16.toNat_shiftRight]
  change (c.value.toNat >>> 8) % 2 ^ 8 = _
  rw [Nat.shiftRight_eq_div_pow]
  omega

section Laws

theorem setLow_toNat : (c.setLow v).value.toNat = (c.value.toNat &&& 0xFF00) ||| v.toNat := by
  rw [setLow_value, UInt16.toNat_or, UInt16.toNat_and, UInt8.toNat_toUInt16]
  rfl

theorem setHigh_toNat :
    (c.setHigh v).value.toNat = (c.value.toNat &&& 0xFF) ||| v.toNat * 2 ^ 8 := by
  rw [setHigh_value, UInt16.toNat_or, UInt16.toNat_and, shifted_toNat]
  rfl

/-- Each byte of a cell reads what was last written to it. -/
theorem bytes_set :
    ((c.setLow v).low = v ∧ (c.setLow v).high = c.high) ∧
      (c.setHigh v).high = v ∧ (c.setHigh v).low = c.low := by
  have hv := v.toNat_lt
  have hc := c.value.toNat_lt
  have hupper : c.value.toNat / 2 ^ 8 &&& 0xFF = c.value.toNat / 2 ^ 8 := by
    rw [Nat.and_two_pow_sub_one_eq_mod _ 8]
    omega
  refine ⟨⟨?_, ?_⟩, ?_, ?_⟩ <;> rw [← UInt8.toNat_inj]
  · rw [low_toNat, setLow_toNat, Nat.or_mod_two_pow, Nat.and_mod_two_pow, Nat.and_zero, Nat.zero_or]
    omega
  · rw [high_toNat, high_toNat, setLow_toNat, Nat.or_div_two_pow, Nat.and_div_two_pow, hupper,
      Nat.div_eq_of_lt hv, Nat.or_zero]
  · rw [high_toNat, setHigh_toNat, Nat.or_div_two_pow, Nat.and_div_two_pow, Nat.and_zero,
      Nat.zero_or, Nat.mul_div_cancel _ (by decide)]
  · rw [low_toNat, low_toNat, setHigh_toNat, Nat.or_mod_two_pow, Nat.mul_mod_left, Nat.or_zero,
      Nat.and_two_pow_sub_one_eq_mod _ 8, Nat.mod_mod]

end Laws

theorem low_joined (hi : UInt16) : (joined hi c.value).toUInt8 = c.low := by
  rw [← UInt8.toNat_inj, low_toNat, UInt32.toNat_toUInt8, joined_toNat]
  omega

theorem high_joined (hi : UInt16) : (joined hi c.value >>> 8).toUInt8 = c.high := by
  have hv := c.value.toNat_lt
  rw [← UInt8.toNat_inj, high_toNat, UInt32.toNat_toUInt8, UInt32.toNat_shiftRight, joined_toNat]
  change (_ >>> 8) % 2 ^ 8 = _
  rw [Nat.shiftRight_eq_div_pow]
  omega

theorem setLow_joined (hi : UInt16) :
    (joined hi c.value &&& 0xFFFFFF00) ||| v.toUInt32 = joined hi (c.setLow v).value := by
  have hv : v.toUInt32 = joined 0 v.toUInt16 := by
    rw [joined_zero, UInt8.toUInt32_toUInt16]
  have hmask : (0xFFFFFF00 : UInt32) = joined 0xFFFF 0xFF00 := rfl
  rw [setLow_value, ← joined_splice hi c.value hmask hv]

theorem setHigh_joined (hi : UInt16) :
    (joined hi c.value &&& (0xFFFF00FF : UInt32)) ||| v.toUInt32 <<< 8 =
      joined hi (c.setHigh v).value := by
  have hv : v.toUInt32 <<< 8 = joined 0 (v.toUInt16 <<< 8) := by
    have hlt : v.toNat * 2 ^ 8 < 2 ^ 32 := by
      have h := v.toNat_lt
      omega
    rw [← UInt32.toNat_inj, joined_zero, UInt16.toNat_toUInt32, shifted_toNat,
      UInt32.toNat_shiftLeft, UInt8.toNat_toUInt32]
    change v.toNat <<< 8 % 2 ^ 32 = _
    rw [Nat.shiftLeft_eq, Nat.mod_eq_of_lt hlt]
  have hmask : (0xFFFF00FF : UInt32) = joined 0xFFFF 0xFF := rfl
  rw [setHigh_value, ← joined_splice hi c.value hmask hv]

end Cell

section Banks

variable {α : Type} {n : Nat} {i j : Fin n} (bank : Vector α n)

theorem get_put_self (x : α) : (put bank i x).get i = x :=
  Vector.getElem_set_self _

theorem get_put_of_ne (h : j ≠ i) (x : α) : (put bank i x).get j = bank.get j :=
  Vector.getElem_set_ne _ _ fun hij => h (Fin.ext hij.symm)

theorem put_get_self : put bank i (bank.get i) = bank :=
  Vector.set_getElem_self _

theorem get_ofFn (f : Fin n → α) : (Vector.ofFn f).get i = f i :=
  Vector.getElem_ofFn i.isLt

end Banks

theorem Reg.place_injective : Function.Injective fun i : Reg => (RegisterName.dword i).place := by
  intro i j h
  cases i <;> cases j <;> first | rfl | exact absurd h (by decide)

theorem Segment.place_injective : Function.Injective Segment.place := by
  intro s t h
  cases s <;> cases t <;> first | rfl | exact absurd h (by decide)

theorem RegisterName.place_eq (n : RegisterName) : n.place = (dword n.generalRegister).place := by
  cases n with
  | lowByte i | highByte i | word i | dword i => cases i <;> rfl
  | segment s => cases s <;> rfl
  | ip => rfl

namespace Registers

theorem ext_of_views {r r' : Registers} (hdword : ∀ i, r.dword i = r'.dword i)
    (hsegment : ∀ s, r.segment s = r'.segment s) (hip : r.ip = r'.ip) (hflags : r.flags = r'.flags) :
    r = r' := by
  have hax := hdword .ax
  have hcx := hdword .cx
  have hdx := hdword .dx
  have hbx := hdword .bx
  have hsp := hdword .sp
  have hbp := hdword .bp
  have hsi := hdword .si
  have hdi := hdword .di
  have hes := hsegment .es
  have hcs := hsegment .cs
  have hss := hsegment .ss
  have hds := hsegment .ds
  cases r
  cases r'
  simp_all [dword, segment]

variable (r : Registers) (i : Reg) (v : UInt32)

theorem segment_setDword (s : Segment) : (r.setDword i v).segment s = r.segment s := by
  cases i <;> cases s <;> rfl

theorem ip_setDword : (r.setDword i v).ip = r.ip := by
  cases i <;> rfl

theorem flags_setDword : (r.setDword i v).flags = r.flags := by
  cases i <;> rfl

theorem dword_setSegment (s : Segment) (v : UInt16) : (r.setSegment s v).dword i = r.dword i := by
  cases s <;> cases i <;> rfl

end Registers

namespace RegisterCells

variable (c : RegisterCells)

def dwordAt (p : Fin 8) : UInt32 :=
  joined (c.upper.get p) (c.general.get p).value

@[simp] theorem dword_registers (i : Reg) :
    c.registers.dword i = c.dwordAt (RegisterName.dword i).place := by
  cases i <;> rfl

@[simp] theorem segment_registers (s : Segment) :
    c.registers.segment s = (c.segments.get s.place).value := by
  cases s <;> rfl

variable (n : RegisterName)

theorem dword_generalRegister : c.registers.dword n.generalRegister = c.dwordAt n.place := by
  rw [dword_registers, n.place_eq]

theorem registers_setGeneral (hi : UInt16) (lo : Cell) :
    { c with
      upper := put c.upper n.place hi
      general := put c.general n.place lo }.registers =
      c.registers.setDword n.generalRegister (joined hi lo.value) := by
  apply Registers.ext_of_views
  · intro i
    by_cases hi : i = n.generalRegister
    · rw [hi, Registers.dword_setDword, dword_generalRegister, dwordAt, get_put_self, get_put_self]
    · have hplace : (RegisterName.dword i).place ≠ n.place := by
        rw [n.place_eq]
        exact fun h => hi (Reg.place_injective h)
      rw [Registers.dword_setDword_of_ne _ hi, dword_registers, dword_registers, dwordAt, dwordAt,
        get_put_of_ne _ hplace, get_put_of_ne _ hplace]
  · intro s
    rw [Registers.segment_setDword, segment_registers, segment_registers]
  · rw [Registers.ip_setDword]
    rfl
  · rw [Registers.flags_setDword]
    rfl

theorem registers_setCell_general (x : Cell) :
    { c with general := put c.general n.place x }.registers =
      c.registers.setDword n.generalRegister (joined (c.upper.get n.place) x.value) := by
  rw [← registers_setGeneral, put_get_self]

theorem registers_setSegment (s : Segment) (x : Cell) :
    { c with segments := put c.segments s.place x }.registers =
      c.registers.setSegment s x.value := by
  apply Registers.ext_of_views
  · intro i
    rw [Registers.dword_setSegment, dword_registers, dword_registers]
    rfl
  · intro t
    by_cases ht : t = s
    · rw [ht, segment_registers, Registers.segment_setSegment, get_put_self]
    · have hplace : t.place ≠ s.place := fun h => ht (Segment.place_injective h)
      rw [Registers.segment_setSegment_of_ne _ ht, segment_registers, segment_registers,
        get_put_of_ne _ hplace]
  · cases s <;> rfl
  · cases s <;> rfl

section Operations

theorem byteOf_registers : c.registers.byteOf n = c.byteOf n := by
  rw [Registers.byteOf, Registers.highByte, Registers.lowByte, dword_generalRegister, dwordAt,
    Cell.high_joined, Cell.low_joined]
  rfl

theorem setByteOf_registers (v : UInt8) :
    (c.setByteOf n v).registers = c.registers.setByteOf n v := by
  rw [setByteOf, registers_setCell_general, Registers.setByteOf, Registers.setHighByte,
    Registers.setLowByte, dword_generalRegister, dwordAt, Cell.setHigh_joined, Cell.setLow_joined]
  split <;> rfl

theorem word_generalRegister :
    c.registers.word n.generalRegister = (c.general.get n.place).value := by
  rw [Registers.word, dword_generalRegister, dwordAt, joined_toUInt16]

theorem wordOf_registers : c.registers.wordOf n = c.wordOf n := by
  cases n with
  | segment s => exact c.segment_registers s
  | ip => rfl
  | lowByte i | highByte i | word i | dword i => exact c.word_generalRegister _

theorem setWord_generalRegister (x : Cell) :
    { c with general := put c.general n.place x }.registers =
      c.registers.setWord n.generalRegister x.value := by
  have hmask : (0xFFFF0000 : UInt32) = joined 0xFFFF 0 := rfl
  have hword : x.value.toUInt32 = joined 0 x.value := (joined_zero x.value).symm
  rw [registers_setCell_general, Registers.setWord, dword_generalRegister, dwordAt,
    joined_splice _ _ hmask hword, UInt16.and_zero, UInt16.zero_or]

/-- A cell put in the place of another is a word written. -/
theorem setCell_registers (x : Cell) :
    (c.setCell n x).registers = c.registers.setWordOf n x.value := by
  cases n with
  | segment s => exact c.registers_setSegment s x
  | ip => rfl
  | lowByte i | highByte i | word i | dword i => exact c.setWord_generalRegister _ x

theorem dwordOf_registers : c.registers.dwordOf n = c.dwordOf n :=
  c.dword_generalRegister n

theorem setDwordOf_registers (v : UInt32) :
    (c.setDwordOf n v).registers = c.registers.setDwordOf n v := by
  rw [setDwordOf, registers_setGeneral, joined_halves]
  rfl

theorem get_registers : c.registers.get n = c.get n := by
  cases n with
  | lowByte i | highByte i =>
    rw [get, ← byteOf_registers, Registers.byteOf, RegisterName.generalRegister,
      RegisterName.index, Reg.ofCode_code]
    rfl
  | dword i =>
    rw [get, ← dwordOf_registers, Registers.dwordOf, RegisterName.generalRegister,
      RegisterName.index, Reg.ofCode_code]
    rfl
  | word | segment | ip => exact congrArg UInt16.toUInt32 (c.wordOf_registers _)

theorem set_registers (v : UInt32) : (c.set n v).registers = c.registers.set n v := by
  cases n with
  | lowByte i | highByte i =>
    rw [set, setByteOf_registers, Registers.setByteOf, RegisterName.generalRegister,
      RegisterName.index, Reg.ofCode_code]
    rfl
  | dword i =>
    rw [set, setDwordOf_registers, Registers.setDwordOf, RegisterName.generalRegister,
      RegisterName.index, Reg.ofCode_code]
    rfl
  | word | segment | ip => exact c.setCell_registers _ _

end Operations

section Runs

open RegisterName

def view (c : RegisterCells) (w : Width) (n : RegisterName) : UInt32 :=
  match w with
  | .byte => (c.byteOf n).toUInt32
  | .word => (c.wordOf n).toUInt32
  | .dword => c.dwordOf n

def setView (c : RegisterCells) (w : Width) (n : RegisterName) (v : UInt32) : RegisterCells :=
  match w with
  | .byte => c.setByteOf n v.toUInt8
  | .word => c.setWordOf n v.toUInt16
  | .dword => c.setDwordOf n v

def read? (c : RegisterCells) : Access → Option UInt32
  | .name s => c.getText? s
  | .cell s => (c.cellText? s).map (·.value.toUInt32)
  | .number w code | .decoded w code => some (c.view w (ofCode w code))
  | .segment code => some (c.wordOf (ofSegmentCode code)).toUInt32

def write? (c : RegisterCells) (v : UInt32) : Access → Option RegisterCells
  | .name s => c.setText? s v
  | .cell s => c.modifyCellText? s fun _ => ⟨v.toUInt16⟩
  | .number w code | .decoded w code => some (c.setView w (ofCode w code) v)
  | .segment code => some (c.setWordOf (ofSegmentCode code) v.toUInt16)

def writeAll (c : RegisterCells) (writes : List (Access × UInt32)) : RegisterCells :=
  writes.foldl (fun c w => (c.write? w.2 w.1).getD c) c

variable (w : Width) (v : UInt32)

theorem view_registers : c.registers.view w n = c.view w n := by
  cases w with
  | byte => exact congrArg UInt8.toUInt32 (c.byteOf_registers n)
  | word => exact congrArg UInt16.toUInt32 (c.wordOf_registers n)
  | dword => exact c.dwordOf_registers n

theorem setView_registers : (c.setView w n v).registers = c.registers.setView w n v := by
  cases w with
  | byte => exact c.setByteOf_registers n _
  | word => exact c.setCell_registers n _
  | dword => exact c.setDwordOf_registers n v

theorem read?_registers (a : Access) : c.registers.read? a = c.read? a := by
  cases a with
  | name s =>
    have hget : c.registers.get = c.get := funext c.get_registers
    rw [Registers.read?, Registers.getText?, hget]
    rfl
  | cell s =>
    rw [Registers.read?, read?, cellText?, Option.map_map]
    exact Option.map_congr fun n _ => congrArg UInt16.toUInt32 (c.wordOf_registers n)
  | number w code =>
    rw [Registers.read?, Registers.read_eq_get, ← Registers.view_ofReg, ← ofCode_eq,
      view_registers]
    rfl
  | decoded w code => exact congrArg some (c.view_registers _ w)
  | segment code => exact congrArg (some ·.toUInt32) (c.segment_registers _)

theorem modifyCellText?_registers (s : String) (f : Cell → Cell) :
    (c.modifyCellText? s f).map registers =
      (ofText? s).map fun n => c.registers.setWordOf n (f ⟨c.registers.wordOf n⟩).value := by
  rw [modifyCellText?, Option.map_map]
  apply Option.map_congr
  intro n _
  rw [wordOf_registers]
  exact c.setCell_registers n _

theorem write?_registers (a : Access) :
    (c.write? v a).map registers = c.registers.write? v a := by
  cases a with
  | name s =>
    rw [write?, setText?, Registers.write?, Registers.setText?]
    split
    · rfl
    · rw [Option.map_map]
      exact Option.map_congr fun n _ => c.set_registers n v
  | cell s => exact c.modifyCellText?_registers s fun _ => ⟨v.toUInt16⟩
  | number w code =>
    rw [Registers.write?, Registers.write_eq_set, ← Registers.setView_ofReg, ← ofCode_eq,
      ← setView_registers]
    rfl
  | decoded w code => exact congrArg some (c.setView_registers _ w v)
  | segment code => exact congrArg some (c.setCell_registers (ofSegmentCode code) _)

theorem writeAll_registers (writes : List (Access × UInt32)) :
    (c.writeAll writes).registers = c.registers.writeAll writes := by
  unfold writeAll Registers.writeAll
  induction writes generalizing c with
  | nil => rfl
  | cons w writes ih =>
    have hstep : ((c.write? w.2 w.1).getD c).registers =
        (c.registers.write? w.2 w.1).getD c.registers := by
      rw [← write?_registers, Option.getD_map]
    rw [List.foldl_cons, List.foldl_cons, ih, hstep]

/-- Through any writes the cells hold what the fields hold: the same bits, read in the same way. -/
theorem cells_hold_registers (writes : List (Access × UInt32)) :
    (c.writeAll writes).registers = c.registers.writeAll writes ∧
      (c.writeAll writes).registers.contents = c.registers.contents.writeAll writes ∧
      ∀ a, (c.writeAll writes).read? a = (c.registers.writeAll writes).read? a := by
  refine ⟨c.writeAll_registers writes, ?_, fun a => ?_⟩
  · rw [writeAll_registers, Registers.contents_writeAll]
  · rw [← writeAll_registers, read?_registers]

end Runs

section Bijection

def ofRegisters (r : Registers) : RegisterCells where
  general := .ofFn fun p => ⟨r.word (Reg.ofCode (.ofNat p))⟩
  upper := .ofFn fun p => (r.dword (Reg.ofCode (.ofNat p)) >>> 16).toUInt16
  segments := .ofFn fun p => ⟨r.segment (Segment.ofCode (.ofNat p))⟩
  ip := ⟨r.ip⟩
  flags := r.flags

theorem registers_ofRegisters (r : Registers) : (ofRegisters r).registers = r := by
  apply Registers.ext_of_views
  · intro i
    have hplace : Reg.ofCode (.ofNat (RegisterName.dword i).place) = i := by
      cases i <;> rfl
    rw [dword_registers, dwordAt, ofRegisters, get_ofFn, get_ofFn, hplace]
    exact joined_halves (r.dword i)
  · intro s
    have hplace : Segment.ofCode (.ofNat s.place) = s := by
      cases s <;> rfl
    rw [segment_registers, ofRegisters, get_ofFn, hplace]
  · rfl
  · rfl

theorem registers_injective : Function.Injective registers := by
  intro c c' h
  have hgeneral : ∀ p : Fin 8, c.upper.get p = c'.upper.get p ∧
      (c.general.get p).value = (c'.general.get p).value := by
    intro p
    have hplace : ∀ p : Fin 8, (RegisterName.dword (Reg.ofCode (.ofNat p))).place = p := by
      decide
    have hdword := congrArg (·.dword (Reg.ofCode (.ofNat p))) h
    simp only [dword_registers, hplace] at hdword
    exact joined_injective _ _ hdword
  have hsegment : ∀ p : Fin 4, (c.segments.get p).value = (c'.segments.get p).value := by
    intro p
    have hplace : ∀ p : Fin 4, (Segment.ofCode (.ofNat p)).place = p := by
      decide
    have hsegment := congrArg (·.segment (Segment.ofCode (.ofNat p))) h
    simpa only [segment_registers, hplace] using hsegment
  obtain ⟨general, upper, segments, ip, flags⟩ := c
  obtain ⟨general', upper', segments', ip', flags'⟩ := c'
  have hip : ip = ip' := congrArg (Cell.mk ·.ip) h
  have hflags : flags = flags' := congrArg (·.flags) h
  have hcells : general = general' :=
    Vector.ext fun i hi => congrArg Cell.mk (hgeneral ⟨i, hi⟩).2
  have hupper : upper = upper' := Vector.ext fun i hi => (hgeneral ⟨i, hi⟩).1
  have hsegments : segments = segments' :=
    Vector.ext fun i hi => congrArg Cell.mk (hsegment ⟨i, hi⟩)
  rw [hcells, hupper, hsegments, hip, hflags]

/-- The fields hold what the cells hold, no more and no less. -/
theorem registers_bijective : Function.Bijective registers :=
  ⟨registers_injective, fun r => ⟨ofRegisters r, registers_ofRegisters r⟩⟩

end Bijection

end RegisterCells

end Pc8086.Cpu

import Mathlib.Data.List.Nodup
import Mathlib.Data.Nat.Bitwise
import Mathlib.Tactic.IntervalCases
import Pc8086.Cpu.RegisterName
import Pc8086.Proofs.Cpu.Encoding
import Pc8086.Proofs.Cpu.FlagEffects
import Pc8086.Proofs.Cpu.WordRegisters

/-!
The register file as bits. Each name and each number stands for some bits, which it reads and
replaces; names that overlap share their bits, and no write reaches any other bit. The flags word
has nine bits that are flags, and seven that are the same whatever is written.
-/

namespace Pc8086.Cpu

inductive Bit where
  | general (r : Reg) (i : Nat)
  | segment (s : Segment) (i : Nat)
  | ip (i : Nat)
  | flag (f : Flag)
  | reserved (i : Nat)
  deriving DecidableEq

namespace Bit

def isReserved : Bit → Bool
  | reserved _ => true
  | _ => false

/-- `n` bits of a register from bit `low` on. -/
def window (bit : Nat → Bit) (low n : Nat) : List Bit :=
  (List.range n).map fun i => bit (low + i)

def flagsWord : List Bit :=
  [flag .carry, reserved 1, flag .parity, reserved 3, flag .adjust, reserved 5, flag .zero,
   flag .sign, flag .trap, flag .interrupt, flag .direction, flag .overflow, reserved 12,
   reserved 13, reserved 14, reserved 15]

/-- The general register with number `k`; as bytes, four of them have a second number. -/
def numbered (w : Width) (k : Nat) : List Bit :=
  match w with
  | .byte => window (general (Reg.all.getD (k % 4) .ax)) (if k < 4 then 0 else 8) 8
  | .word => window (general (Reg.all.getD k .ax)) 0 16
  | .dword => window (general (Reg.all.getD k .ax)) 0 32

def segmentNumbered (k : Nat) : List Bit :=
  window (segment (Segment.all.getD k .es)) 0 16

def names : Width → List String
  | .byte => ["al", "cl", "dl", "bl", "ah", "ch", "dh", "bh"]
  | .word => ["ax", "cx", "dx", "bx", "sp", "bp", "si", "di"]
  | .dword => ["eax", "ecx", "edx", "ebx", "esp", "ebp", "esi", "edi"]

def layout : List (String × List Bit) :=
  ("flags", flagsWord) ::
    ([.byte, .word, .dword].flatMap fun w => (names w).mapIdx fun k s => (s, numbered w k)) ++
    (["es", "cs", "ss", "ds"].mapIdx fun k s => (s, segmentNumbered k)) ++
    [("ip", window ip 0 16)]

def wordAround : List Bit → Option (List Bit)
  | general r _ :: _ => some (window (general r) 0 16)
  | segment s _ :: _ => some (window (segment s) 0 16)
  | ip _ :: _ => some (window ip 0 16)
  | _ => none

end Bit

abbrev Contents := Bit → Bool

namespace Contents

def value (m : Contents) (bits : List Bit) : Nat :=
  Nat.ofBits fun i : Fin bits.length => m bits[i]

/-- Reserved bits stay as they are. -/
def write (m : Contents) (bits : List Bit) (v : Nat) : Contents := fun b =>
  if b ∈ bits ∧ b.isReserved = false then v.testBit (bits.idxOf b) else m b

end Contents

inductive Access where
  /-- A name, in any case. -/
  | name (s : String)
  /-- The whole word register that a name belongs to. -/
  | cell (s : String)
  /-- A register operand. -/
  | number (w : Width) (code : UInt8)
  /-- The name with a number. -/
  | decoded (w : Width) (code : UInt8)
  | segment (code : UInt8)

def Access.bits? : Access → Option (List Bit)
  | name s => Bit.layout.lookup s.toLower
  | cell s => (Bit.layout.lookup s.toLower).bind Bit.wordAround
  | number w code | decoded w code => some (Bit.numbered w (code.toNat % 8))
  | segment code => some (Bit.segmentNumbered (code.toNat % 4))

def RegisterName.ofCode (w : Width) (code : UInt8) : RegisterName :=
  match w with
  | .byte => ofByteCode code
  | .word => ofWordCode code
  | .dword => ofDwordCode code

namespace Registers

def contents (r : Registers) : Contents
  | .general i k => (r.dword i).toNat.testBit k
  | .segment s k => (r.segment s).toNat.testBit k
  | .ip k => r.ip.toNat.testBit k
  | .flag f => r.flags.get f
  | .reserved k => Flags.fixedOnes.toNat.testBit k

def view (r : Registers) (w : Width) (n : RegisterName) : UInt32 :=
  match w with
  | .byte => (r.byteOf n).toUInt32
  | .word => (r.wordOf n).toUInt32
  | .dword => r.dwordOf n

def setView (r : Registers) (w : Width) (n : RegisterName) (v : UInt32) : Registers :=
  match w with
  | .byte => r.setByteOf n v.toUInt8
  | .word => r.setWordOf n v.toUInt16
  | .dword => r.setDwordOf n v

def read? (r : Registers) : Access → Option UInt32
  | .name s => r.getText? s
  | .cell s => (RegisterName.ofText? s).map (r.view .word)
  | .number w code => some (r.read w (Reg.ofCode code))
  | .decoded w code => some (r.view w (.ofCode w code))
  | .segment code => some (r.segment (Segment.ofCode code)).toUInt32

def write? (r : Registers) (v : UInt32) : Access → Option Registers
  | .name s => r.setText? s v
  | .cell s => (RegisterName.ofText? s).map fun n => r.setView .word n v
  | .number w code => some (r.write w (Reg.ofCode code) v)
  | .decoded w code => some (r.setView w (.ofCode w code) v)
  | .segment code => some (r.setSegment (Segment.ofCode code) v.toUInt16)

/-- A write that fails leaves the registers as they are. -/
def writeAll (r : Registers) (writes : List (Access × UInt32)) : Registers :=
  writes.foldl (fun r w => (r.write? w.2 w.1).getD r) r

end Registers

def Contents.writeAll (m : Contents) (writes : List (Access × UInt32)) : Contents :=
  writes.foldl (fun m w => (w.1.bits?.map fun bits => m.write bits w.2.toNat).getD m) m

namespace Contents

theorem value_congr {m m' : Contents} {bits : List Bit} (h : ∀ b ∈ bits, m b = m' b) :
    m.value bits = m'.value bits := by
  unfold value
  congr 1
  funext i
  exact h _ (List.getElem_mem i.isLt)

theorem write_of_not_mem {m : Contents} {bits : List Bit} {b : Bit} (h : b ∉ bits) (v : Nat) :
    m.write bits v b = m b :=
  if_neg fun hb => h hb.1

theorem value_write {m : Contents} {x y : List Bit} (h : x.Disjoint y) (v : Nat) :
    (m.write y v).value x = m.value x := by
  apply value_congr
  intro b hb
  exact write_of_not_mem (h hb) v

theorem value_writeAll {m : Contents} {x : List Bit} {writes : List (Access × UInt32)}
    (h : ∀ w ∈ writes, ∀ y ∈ w.1.bits?, x.Disjoint y) : (m.writeAll writes).value x = m.value x := by
  unfold writeAll
  induction writes generalizing m with
  | nil => rfl
  | cons w writes ih =>
    rw [List.foldl_cons, ih fun u hu => h u (List.mem_cons_of_mem w hu)]
    cases hw : w.1.bits? with
    | none => rfl
    | some y => exact value_write (h w List.mem_cons_self y hw) w.2.toNat

end Contents

section Windows

open Bit

variable {bit : Nat → Bit} {low n : Nat}

theorem getElem_window {i : Nat} (h : i < (window bit low n).length) :
    (window bit low n)[i] = bit (low + i) := by
  simp [window]

theorem length_window : (window bit low n).length = n := by
  simp [window]

theorem nodup_window (hbit : Function.Injective bit) : (window bit low n).Nodup := by
  apply List.Nodup.map _ List.nodup_range
  intro i j h
  have hij := hbit h
  omega

theorem mem_window (hbit : Function.Injective bit) {k : Nat} :
    bit k ∈ window bit low n ↔ low ≤ k ∧ k < low + n := by
  simp only [window, List.mem_map, List.mem_range]
  constructor
  · rintro ⟨i, hi, h⟩
    have hik := hbit h
    omega
  · rintro ⟨hlow, hk⟩
    exact ⟨k - low, by omega, congrArg bit (by omega)⟩

theorem idxOf_window (hbit : Function.Injective bit) {k : Nat} (hlow : low ≤ k)
    (hk : k < low + n) : (window bit low n).idxOf (bit k) = k - low := by
  have hlen : k - low < (window bit low n).length := by
    rw [length_window]
    omega
  have hget : (window bit low n)[k - low] = bit k := by
    rw [getElem_window, Nat.add_sub_cancel' hlow]
  rw [← hget, (nodup_window hbit).idxOf_getElem]

theorem value_window {m : Contents} {x : Nat} (hx : ∀ k, m (bit k) = x.testBit k) (low n : Nat) :
    m.value (window bit low n) = x / 2 ^ low % 2 ^ n := by
  apply Nat.eq_of_testBit_eq
  intro i
  have hlen : (window bit low n).length = n := length_window
  rw [Contents.value, Nat.testBit_ofBits, Nat.testBit_mod_two_pow, Nat.testBit_div_two_pow]
  split
  · next h =>
    have hi : i < n := hlen ▸ h
    rw [Fin.getElem_fin, getElem_window, hx, decide_eq_true hi, Bool.true_and, Nat.add_comm]
  · next h =>
    have hi : ¬i < n := hlen ▸ h
    rw [decide_eq_false hi, Bool.false_and]

theorem value_whole {m : Contents} {x : Nat} (hx : ∀ k, m (bit k) = x.testBit k)
    (hlt : x < 2 ^ n) : m.value (window bit 0 n) = x := by
  rw [value_window hx, Nat.pow_zero, Nat.div_one, Nat.mod_eq_of_lt hlt]

/-- A write to a window, by what it does to the bits of the register and to all others. -/
theorem write_window (hbit : Function.Injective bit) (hstored : ∀ k, (bit k).isReserved = false)
    {m m' : Contents} {v : Nat}
    (hin : ∀ k, m' (bit k) = if low ≤ k ∧ k < low + n then v.testBit (k - low) else m (bit k))
    (hout : ∀ b, (∀ k, b ≠ bit k) → m' b = m b) : m' = m.write (window bit low n) v := by
  funext b
  by_cases hb : ∃ k, b = bit k
  · obtain ⟨k, rfl⟩ := hb
    rw [hin k, Contents.write]
    by_cases hk : low ≤ k ∧ k < low + n
    · rw [if_pos hk, if_pos ⟨(mem_window hbit).2 hk, hstored k⟩, idxOf_window hbit hk.1 hk.2]
    · rw [if_neg hk, if_neg fun h => hk ((mem_window hbit).1 h.1)]
  · have hb : ∀ k, b ≠ bit k := fun k h => hb ⟨k, h⟩
    have hmem : b ∉ window bit low n := by
      intro h
      obtain ⟨i, -, hi⟩ := List.mem_map.1 h
      exact hb _ hi.symm
    rw [hout b hb, Contents.write_of_not_mem hmem]

end Windows

/-- A part of a register is replaced by masking it out and putting the new bits in its place. -/
theorem splice_testBit {x mask y : UInt32} {low n v : Nat} (hn : low + n ≤ 32)
    (hmask : ∀ k < 32, mask.toNat.testBit k = decide (¬(low ≤ k ∧ k < low + n)))
    (hy : y.toNat = (v % 2 ^ n) <<< low) (k : Nat) :
    ((x &&& mask) ||| y).toNat.testBit k =
      if low ≤ k ∧ k < low + n then v.testBit (k - low) else x.toNat.testBit k := by
  rw [UInt32.toNat_or, UInt32.toNat_and, Nat.testBit_or, Nat.testBit_and, hy,
    Nat.testBit_shiftLeft, Nat.testBit_mod_two_pow]
  by_cases hk : k < 32
  · rw [hmask k hk]
    split
    · next h =>
      have hlow : k - low < n := by omega
      simp [h, hlow]
    · next h =>
      have hout : (decide (k ≥ low) && decide (k - low < n)) = false := by
        simp only [ge_iff_le, Bool.and_eq_false_iff, decide_eq_false_iff_not]
        omega
      rw [← Bool.and_assoc, hout]
      simp [h]
  -- No number has a bit here, and the window ends before it.
  · have hx : x.toNat.testBit k = false :=
      Nat.testBit_lt_two_pow (x.toNat_lt.trans_le (Nat.pow_le_pow_right (by omega) (by omega)))
    have hout : ¬k - low < n := by omega
    have hk' : ¬(low ≤ k ∧ k < low + n) := by omega
    simp [hx, hout, hk']

theorem and_lowBits (code : UInt8) {m : UInt8} {n : Nat} (hm : m.toNat = 2 ^ n - 1) :
    code &&& m = UInt8.ofNat (code.toNat % 2 ^ n) := by
  have hlt : code.toNat % 2 ^ n < 2 ^ 8 := (Nat.mod_le _ _).trans_lt code.toNat_lt
  rw [← UInt8.toNat_inj, UInt8.toNat_and, hm, Nat.and_two_pow_sub_one_eq_mod,
    UInt8.toNat_ofNat_of_lt' hlt]

theorem Reg.ofCode_eq_getD (code : UInt8) : ofCode code = all.getD (code.toNat % 8) .ax := by
  have hk : code.toNat % 2 ^ 3 < 8 := Nat.mod_lt _ (by decide)
  unfold ofCode
  rw [and_lowBits (n := 3) code rfl]
  change _ = all.getD (code.toNat % 2 ^ 3) .ax
  generalize code.toNat % 2 ^ 3 = k at hk
  interval_cases k <;> rfl

theorem Segment.ofCode_eq_getD (code : UInt8) : ofCode code = all.getD (code.toNat % 4) .es := by
  have hk : code.toNat % 2 ^ 2 < 4 := Nat.mod_lt _ (by decide)
  unfold ofCode
  rw [and_lowBits (n := 2) code rfl]
  change _ = all.getD (code.toNat % 2 ^ 2) .es
  generalize code.toNat % 2 ^ 2 = k at hk
  interval_cases k <;> rfl

namespace RegisterName

def bits : RegisterName → List Bit
  | lowByte r => Bit.window (.general r) 0 8
  | highByte r => Bit.window (.general r) 8 8
  | word r => Bit.window (.general r) 0 16
  | dword r => Bit.window (.general r) 0 32
  | segment s => Bit.window (.segment s) 0 16
  | ip => Bit.window .ip 0 16

def cell : RegisterName → RegisterName
  | lowByte r | highByte r | word r | dword r => word r
  | segment s => segment s
  | ip => ip

theorem wordAround_bits (n : RegisterName) : Bit.wordAround n.bits = some n.cell.bits := by
  cases n <;> rfl

theorem layout_eq : Bit.layout = ("flags", Bit.flagsWord) :: table.map fun e => (e.1, e.2.bits) :=
  rfl

theorem lookup_map {α β γ : Type} [BEq α] (f : β → γ) (l : List (α × β)) (a : α) :
    (l.map fun e => (e.1, f e.2)).lookup a = (l.lookup a).map f := by
  induction l with
  | nil => rfl
  | cons e l ih =>
    rw [List.map_cons, List.lookup_cons, List.lookup_cons, ih]
    cases a == e.1 <;> rfl

theorem lookup_layout (s : String) : Bit.layout.lookup s =
    if s == "flags" then some Bit.flagsWord else (table.lookup s).map bits := by
  rw [layout_eq, List.lookup_cons, lookup_map]
  cases s == "flags" <;> rfl

/-- The flags have no cell of their own. -/
theorem lookup_flags {s : String} (h : (s == "flags") = true) : table.lookup s = none := by
  rw [eq_of_beq h]
  decide

def ofReg (w : Width) (r : Reg) : RegisterName :=
  match w with
  | .byte => if r.byteHost.2 then highByte r.byteHost.1 else lowByte r.byteHost.1
  | .word => word r
  | .dword => dword r

theorem ofCode_eq (w : Width) (code : UInt8) : ofCode w code = ofReg w (Reg.ofCode code) := by
  unfold ofCode ofByteCode
  cases w with
  | byte => cases Reg.ofCode code <;> rfl
  | word | dword => rfl

theorem ofReg_bits (w : Width) (code : UInt8) :
    (ofReg w (Reg.ofCode code)).bits = Bit.numbered w (code.toNat % 8) := by
  have hk : code.toNat % 8 < 8 := Nat.mod_lt _ (by decide)
  rw [Reg.ofCode_eq_getD]
  generalize code.toNat % 8 = k at hk
  interval_cases k <;> cases w <;> rfl

theorem segment_ofCode_bits (code : UInt8) :
    (segment (.ofCode code)).bits = Bit.segmentNumbered (code.toNat % 4) := by
  rw [Segment.ofCode_eq_getD]
  rfl

end RegisterName

namespace Registers

variable (r : Registers)

section Names

theorem view_cell (n : RegisterName) : r.view .word n = r.get n.cell := by
  cases n with
  | lowByte i | highByte i | word i | dword i => cases i <;> rfl
  | segment | ip => rfl

theorem setView_cell (n : RegisterName) (v : UInt32) : r.setView .word n v = r.set n.cell v := by
  cases n with
  | lowByte i | highByte i | word i | dword i => cases i <;> rfl
  | segment | ip => rfl

variable (w : Width) (i : Reg)

theorem view_ofReg : r.view w (.ofReg w i) = r.get (.ofReg w i) := by
  cases w <;> cases i <;> rfl

theorem setView_ofReg (v : UInt32) : r.setView w (.ofReg w i) v = r.set (.ofReg w i) v := by
  cases w <;> cases i <;> rfl

theorem read_eq_get : r.read w i = r.get (.ofReg w i) := by
  cases w <;> cases i <;> rfl

theorem write_eq_set (v : UInt32) : r.write w i v = r.set (.ofReg w i) v := by
  cases w <;> cases i <;> rfl

end Names

theorem value_general (i : Reg) (low n : Nat) :
    r.contents.value (Bit.window (.general i) low n) = (r.dword i).toNat / 2 ^ low % 2 ^ n :=
  value_window (fun _ => rfl) low n

theorem get_toNat (n : RegisterName) : (r.get n).toNat = r.contents.value n.bits := by
  cases n with
  | lowByte i =>
    rw [RegisterName.bits, value_general]
    simp [get, lowByte]
  | highByte i =>
    rw [RegisterName.bits, value_general]
    simp [get, highByte, Nat.shiftRight_eq_div_pow]
  | word i =>
    have hword : r.wordOf (.word i) = r.word i := by
      cases i <;> rfl
    rw [RegisterName.bits, value_general]
    simp [get, hword, word]
  | dword i => exact (value_whole (fun _ => rfl) (r.dword i).toNat_lt).symm
  | segment s =>
    rw [RegisterName.bits, value_whole (fun _ => rfl) (r.segment s).toNat_lt]
    exact UInt16.toNat_toUInt32 _
  | ip =>
    rw [RegisterName.bits, value_whole (fun _ => rfl) r.ip.toNat_lt]
    exact UInt16.toNat_toUInt32 _

theorem contents_setDword (i : Reg) {v : UInt32} {low n u : Nat}
    (hv : ∀ k, v.toNat.testBit k =
      if low ≤ k ∧ k < low + n then u.testBit (k - low) else (r.dword i).toNat.testBit k) :
    (r.setDword i v).contents = r.contents.write (Bit.window (.general i) low n) u := by
  apply write_window (fun _ _ h => (Bit.general.inj h).2) fun _ => rfl
  · intro k
    rw [contents, dword_setDword, hv k]
    rfl
  · intro b hb
    cases b with
    | general j k =>
      have hj : j ≠ i := by
        rintro rfl
        exact hb k rfl
      exact congrArg (·.toNat.testBit k) (r.dword_setDword_of_ne hj v)
    | segment | ip | flag | reserved => cases i <;> rfl

/-- All bits of a number, those past its width among them. -/
theorem testBit_truncated {v n : Nat} {x : Nat} (hx : x < 2 ^ n) (k : Nat) :
    (v % 2 ^ n).testBit k = if 0 ≤ k ∧ k < 0 + n then v.testBit (k - 0) else x.testBit k := by
  rw [Nat.testBit_mod_two_pow]
  split
  · next h =>
    have hk : k < n := by omega
    simp [hk]
  · next h =>
    have hk : ¬k < n := by omega
    rw [decide_eq_false hk, Bool.false_and, Nat.testBit_lt_two_pow]
    exact hx.trans_le (Nat.pow_le_pow_right (by omega) (by omega))

theorem segment_setSegment (s : Segment) (v : UInt16) : (r.setSegment s v).segment s = v := by
  cases s <;> rfl

theorem segment_setSegment_of_ne {s t : Segment} (h : t ≠ s) (v : UInt16) :
    (r.setSegment s v).segment t = r.segment t := by
  cases s <;> cases t <;> first | rfl | exact absurd rfl h

theorem contents_setSegment (s : Segment) (v : UInt32) :
    (r.setSegment s v.toUInt16).contents =
      r.contents.write (Bit.window (.segment s) 0 16) v.toNat := by
  apply write_window (fun _ _ h => (Bit.segment.inj h).2) fun _ => rfl
  · intro k
    rw [contents, segment_setSegment, UInt32.toNat_toUInt16]
    exact testBit_truncated (r.segment s).toNat_lt k
  · intro b hb
    cases b with
    | segment t k =>
      have ht : t ≠ s := by
        rintro rfl
        exact hb k rfl
      exact congrArg (·.toNat.testBit k) (r.segment_setSegment_of_ne ht v.toUInt16)
    | general i k => cases s <;> cases i <;> rfl
    | ip | flag | reserved => cases s <;> rfl

theorem contents_setIp (v : UInt32) :
    { r with ip := v.toUInt16 }.contents = r.contents.write (Bit.window .ip 0 16) v.toNat := by
  apply write_window (fun _ _ h => Bit.ip.inj h) fun _ => rfl
  · intro k
    rw [contents, UInt32.toNat_toUInt16]
    exact testBit_truncated r.ip.toNat_lt k
  · intro b hb
    cases b with
    | ip k => exact absurd rfl (hb k)
    | general i k => cases i <;> rfl
    | segment s k => cases s <;> rfl
    | flag | reserved => rfl

theorem contents_set (n : RegisterName) (v : UInt32) :
    (r.set n v).contents = r.contents.write n.bits v.toNat := by
  cases n with
  | lowByte i =>
    apply r.contents_setDword i
    apply splice_testBit (by omega) (by decide)
    simp
  | highByte i =>
    apply r.contents_setDword i
    apply splice_testBit (by omega) (by decide)
    have hlt : (v.toNat % 256) <<< 8 < 2 ^ 32 := by
      rw [Nat.shiftLeft_eq]
      omega
    simpa using hlt
  | word i =>
    have hword : r.set (.word i) v = r.setWord i v.toUInt16 := by
      cases i <;> rfl
    rw [hword]
    apply r.contents_setDword i
    apply splice_testBit (by omega) (by decide)
    simp
  | dword i =>
    apply r.contents_setDword i
    intro k
    rw [← testBit_truncated (r.dword i).toNat_lt, Nat.mod_eq_of_lt v.toNat_lt]
  | segment s => exact r.contents_setSegment s v
  | ip => exact r.contents_setIp v

section FlagsWord

open Bit

/-- The flags have different bits of the word, and no flag has a reserved one. -/
theorem flagsWord_getElem : ∀ i : Fin flagsWord.length,
    (∃ f ∈ Flag.all, flagsWord[i] = .flag f ∧ f.mask.toNat = 2 ^ i.val) ∨
      (flagsWord[i] = .reserved i ∧ ∀ f ∈ Flag.all, f.mask.toNat.testBit i = false) := by
  decide

theorem mask_toNat (f : Flag) : f.mask.toNat = 2 ^ flagsWord.idxOf (.flag f) := by
  cases f <;> rfl

theorem idxOf_flag_lt (f : Flag) : flagsWord.idxOf (.flag f) < 16 := by
  cases f <;> decide

/-- A bit that no flag has is not changed by packing them. -/
theorem packed_testBit (f : Flags) {i : Nat} {flags : List Flag}
    (h : ∀ a ∈ flags, a.mask.toNat.testBit i = false) (w : UInt16) :
    (flags.foldl (fun w a => if f.get a then w ||| a.mask else w) w).toNat.testBit i =
      w.toNat.testBit i := by
  induction flags generalizing w with
  | nil => rfl
  | cons a flags ih =>
    rw [List.foldl_cons, ih fun b hb => h b (List.mem_cons_of_mem a hb)]
    split
    · rw [UInt16.toNat_or, Nat.testBit_or, h a List.mem_cons_self, Bool.or_false]
    · rfl

theorem bit_ne_zero {m : UInt16} {k : Nat} (h : m.toNat = 2 ^ k) (x : UInt16) :
    (x &&& m != 0) = x.toNat.testBit k := by
  rw [Bool.eq_iff_iff, bne_iff_ne, ne_eq, ← UInt16.toNat_inj, UInt16.toNat_and, h,
    Nat.and_two_pow, UInt16.toNat_zero]
  cases x.toNat.testBit k <;> simp

theorem flags_toNat : r.flags.toWord.toNat = r.contents.value flagsWord := by
  apply Nat.eq_of_testBit_eq
  intro i
  rw [Contents.value, Nat.testBit_ofBits]
  split
  · next h =>
    obtain ⟨f, -, hbit, hmask⟩ | ⟨hbit, hmask⟩ := flagsWord_getElem ⟨i, h⟩
    · rw [hbit, ← bit_ne_zero hmask]
      exact r.flags.toWord_and_mask_ne_zero f
    -- What the packing starts from shows in the reserved bits.
    · rw [hbit]
      exact packed_testBit r.flags hmask Flags.fixedOnes
  · next h =>
    have hi : 16 ≤ i := Nat.le_of_not_lt h
    exact Nat.testBit_lt_two_pow
      (r.flags.toWord.toNat_lt.trans_le (Nat.pow_le_pow_right (by omega) hi))

theorem contents_setFlags (v : UInt32) :
    { r with flags := Flags.ofWord v.toUInt16 }.contents =
      r.contents.write flagsWord v.toNat := by
  funext b
  cases b with
  | flag f =>
    have hmem : .flag f ∈ flagsWord := List.idxOf_lt_length_iff.1 (idxOf_flag_lt f)
    rw [Contents.write, if_pos ⟨hmem, rfl⟩, contents, get_ofWord, bit_ne_zero (mask_toNat f),
      UInt32.toNat_toUInt16, Nat.testBit_mod_two_pow, decide_eq_true (idxOf_flag_lt f),
      Bool.true_and]
  | reserved i => exact (if_neg fun h => Bool.noConfusion h.2).symm
  | general i k =>
    rw [Contents.write_of_not_mem (by simp [flagsWord])]
    cases i <;> rfl
  | segment s k =>
    rw [Contents.write_of_not_mem (by simp [flagsWord])]
    cases s <;> rfl
  | ip k =>
    rw [Contents.write_of_not_mem (by simp [flagsWord])]
    rfl

end FlagsWord

end Registers

inductive Part where
  | flags
  | named (n : RegisterName)

namespace Part

def bits : Part → List Bit
  | flags => Bit.flagsWord
  | named n => n.bits

def get (r : Registers) : Part → UInt32
  | flags => r.flags.toWord.toUInt32
  | named n => r.get n

def set (r : Registers) (v : UInt32) : Part → Registers
  | flags => { r with flags := Flags.ofWord v.toUInt16 }
  | named n => r.set n v

theorem get_toNat (r : Registers) (p : Part) : (p.get r).toNat = r.contents.value p.bits := by
  cases p with
  | flags => exact (UInt16.toNat_toUInt32 _).trans r.flags_toNat
  | named n => exact r.get_toNat n

theorem contents_set (r : Registers) (v : UInt32) (p : Part) :
    (p.set r v).contents = r.contents.write p.bits v.toNat := by
  cases p with
  | flags => exact r.contents_setFlags v
  | named n => exact r.contents_set n v

end Part

namespace Access

open RegisterName

def part? : Access → Option Part
  | name s => if s.toLower == "flags" then some .flags else (ofText? s).map .named
  | cell s => (ofText? s).map fun n => .named n.cell
  | number w code | decoded w code => some (.named (ofReg w (Reg.ofCode code)))
  | segment code => some (.named (.segment (.ofCode code)))

theorem bits?_eq (a : Access) : a.bits? = a.part?.map Part.bits := by
  cases a with
  | name s =>
    rw [bits?, part?, lookup_layout]
    split
    · rfl
    · rw [Option.map_map]
      rfl
  | cell s =>
    rw [bits?, part?, lookup_layout, ofText?]
    split
    · next h =>
      rw [lookup_flags h]
      rfl
    · cases table.lookup s.toLower with
      | none => rfl
      | some n => exact n.wordAround_bits
  | number w code | decoded w code => exact congrArg some (ofReg_bits w code).symm
  | segment code => exact congrArg some (segment_ofCode_bits code).symm

theorem read?_eq (r : Registers) (a : Access) : r.read? a = a.part?.map (Part.get r) := by
  cases a with
  | name s =>
    rw [Registers.read?, Registers.getText?, part?]
    split
    · rfl
    · rw [Option.map_map]
      rfl
  | cell s =>
    rw [Registers.read?, part?, Option.map_map]
    exact Option.map_congr fun n _ => r.view_cell n
  | number w code => exact congrArg some (r.read_eq_get w (Reg.ofCode code))
  | decoded w code =>
    rw [Registers.read?, ofCode_eq]
    exact congrArg some (r.view_ofReg w (Reg.ofCode code))
  | segment code => rfl

theorem write?_eq (r : Registers) (v : UInt32) (a : Access) :
    r.write? v a = a.part?.map (Part.set r v) := by
  cases a with
  | name s =>
    rw [Registers.write?, Registers.setText?, part?]
    split
    · rfl
    · rw [Option.map_map]
      rfl
  | cell s =>
    rw [Registers.write?, part?, Option.map_map]
    exact Option.map_congr fun n _ => r.setView_cell n v
  | number w code => exact congrArg some (r.write_eq_set w (Reg.ofCode code) v)
  | decoded w code =>
    rw [Registers.write?, ofCode_eq]
    exact congrArg some (r.setView_ofReg w (Reg.ofCode code) v)
  | segment code => rfl

end Access

namespace Registers

variable (r : Registers)

theorem read?_toNat (a : Access) : (r.read? a).map UInt32.toNat = a.bits?.map r.contents.value := by
  rw [a.bits?_eq, Access.read?_eq, Option.map_map, Option.map_map]
  exact Option.map_congr fun p _ => p.get_toNat r

theorem write?_contents (a : Access) (v : UInt32) :
    (r.write? v a).map contents = a.bits?.map fun bits => r.contents.write bits v.toNat := by
  rw [a.bits?_eq, Access.write?_eq, Option.map_map, Option.map_map]
  exact Option.map_congr fun p _ => p.contents_set r v

theorem contents_writeAll (writes : List (Access × UInt32)) :
    (r.writeAll writes).contents = r.contents.writeAll writes := by
  unfold writeAll Contents.writeAll
  induction writes generalizing r with
  | nil => rfl
  | cons w writes ih =>
    -- A write that fails keeps the registers, and their bits with them.
    have hstep : ((r.write? w.2 w.1).getD r).contents =
        (w.1.bits?.map fun bits => r.contents.write bits w.2.toNat).getD r.contents := by
      rw [← write?_contents, Option.getD_map]
    rw [List.foldl_cons, List.foldl_cons, ih, hstep]

/-- The registers are their bits through any writes: every name and number reads its own bits, of
what the writes have left there. What stands for no bits cannot be written, and in a run of writes
it changes nothing. -/
theorem registers_are_bits (writes : List (Access × UInt32)) :
    (r.writeAll writes).contents = r.contents.writeAll writes ∧
      (∀ a, ((r.writeAll writes).read? a).map UInt32.toNat =
        a.bits?.map (r.contents.writeAll writes).value) ∧
      ∀ a v, (r.writeAll writes).write? v a = none ↔ a.bits? = none := by
  refine ⟨r.contents_writeAll writes, fun a => ?_, fun a v => ?_⟩
  · rw [read?_toNat, contents_writeAll]
  · rw [← Option.map_eq_none_iff (f := contents), write?_contents, Option.map_eq_none_iff]

/-- What no write overlaps reads as before. -/
theorem read?_writeAll_of_disjoint {a : Access} {writes : List (Access × UInt32)}
    (h : ∀ w ∈ writes, ∀ x ∈ a.bits?, ∀ y ∈ w.1.bits?, x.Disjoint y) :
    (r.writeAll writes).read? a = r.read? a := by
  have hread : ((r.writeAll writes).read? a).map UInt32.toNat = (r.read? a).map UInt32.toNat := by
    rw [read?_toNat, read?_toNat, contents_writeAll]
    apply Option.map_congr
    intro x hx
    exact Contents.value_writeAll fun w hw => h w hw x hx
  exact Option.map_injective (fun _ _ => UInt32.toNat_inj.1) hread

end Registers

end Pc8086.Cpu

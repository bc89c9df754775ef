import Pc8086.Proofs.Cpu.AlternateEncodings
import Pc8086.Proofs.Cpu.ArithmeticFlags

namespace Pc8086.Cpu

open Exec Alu AddSub

/-- What a condition asks of two numbers of some width after their comparison. -/
def Compared (w : Width) (a b : UInt32) (code : UInt8) : Prop :=
  match code with
  | 0 => ¬w.Signed (w.toInt a - w.toInt b)
  | 1 => w.Signed (w.toInt a - w.toInt b)
  | 2 => w.toNat a < w.toNat b
  | 3 => ¬w.toNat a < w.toNat b
  | 4 => w.toNat a = w.toNat b
  | 5 => ¬w.toNat a = w.toNat b
  | 6 => w.toNat a ≤ w.toNat b
  | 7 => ¬w.toNat a ≤ w.toNat b
  | 8 => w.toInt (a - b) < 0
  | 9 => 0 ≤ w.toInt (a - b)
  | 10 => Even (Nat.digits 2 ((a - b).toNat % 256)).sum
  | 11 => ¬Even (Nat.digits 2 ((a - b).toNat % 256)).sum
  | 12 => w.toInt a < w.toInt b
  | 13 => w.toInt b ≤ w.toInt a
  | 14 => w.toInt a ≤ w.toInt b
  | _ => w.toInt b < w.toInt a

section Flags

variable (w : Width) (a b : UInt32) (f : Flags)

/-- The difference may as well be cut to the width at the end only. -/
theorem sub_toNat : (sub w a b false f).1.toNat = w.toNat (a - b) := by
  have h := compute_result difference w a b false f
  simp only [compute, exact, Bool.toNat_false, Width.toNat, UInt32.toNat_sub] at h ⊢
  have ha := a.toNat_lt
  have hb := b.toNat_lt
  cases w <;> simp only [Width.bits] at h ⊢ <;> omega

theorem sub_overflow_iff :
    (sub w a b false f).2.overflow = true ↔ ¬w.Signed (w.toInt a - w.toInt b) := by
  have h := compute_overflow difference w a b false f
  rwa [exact, Bool.toNat_false, Nat.cast_zero, sub_zero] at h

theorem sub_carry_iff : (sub w a b false f).2.carry = true ↔ w.toNat a < w.toNat b := by
  have h := compute_carry difference w a b false f
  have ha := w.toNat_lt a
  simp only [compute, exact, Bool.toNat_false, Width.Unsigned] at h
  rw [h]
  omega

theorem sub_zero_iff : (sub w a b false f).2.zero = true ↔ w.toNat a = w.toNat b := by
  have h := compute_cases difference w a b false f
  have hr := compute_lt difference w a b false f
  have ha := w.toNat_lt a
  have hb := w.toNat_lt b
  have hz := compute_zero difference w a b false f
  rw [← UInt32.toNat_inj, UInt32.toNat_zero] at hz
  simp only [compute, exact, Bool.toNat_false] at h hr hz
  rw [hz]
  omega

/-- The top bit is set in what reads as a negative number. -/
theorem testBit_iff_toInt_neg (v : UInt32) :
    (w.toNat v).testBit (w.bits - 1) = true ↔ w.toInt v < 0 := by
  have hv := w.toNat_lt v
  have hm := w.two_pow_bits
  rw [testBit_top (by rwa [← hm]), decide_eq_true_iff, w.toInt_eq]
  split <;> omega

theorem sub_sign_iff : (sub w a b false f).2.sign = true ↔ w.toInt (a - b) < 0 := by
  have h := compute_sign difference w a b false f
  simp only [compute, sub_toNat] at h
  rw [h, testBit_iff_toInt_neg]

theorem sub_parity_iff : (sub w a b false f).2.parity = true ↔
    Even (Nat.digits 2 ((a - b).toNat % 256)).sum := by
  have h := compute_parity difference w a b false f
  have hbyte : w.toNat (a - b) % 256 = (a - b).toNat % 256 :=
    Nat.mod_mod_of_dvd _ (by cases w <;> decide)
  simp only [compute, sub_toNat] at h
  rw [h, hbyte]

theorem toInt_eq_toInt_iff : w.toInt a = w.toInt b ↔ w.toNat a = w.toNat b := by
  have ha := w.toNat_lt a
  have hb := w.toNat_lt b
  rw [w.toInt_eq, w.toInt_eq]
  split <;> split <;> omega

/-- The sign of the difference is that of its value, unless the value has no place. -/
theorem sub_sign_ne_overflow_iff :
    ((sub w a b false f).2.sign != (sub w a b false f).2.overflow) = true ↔
      w.toInt a < w.toInt b := by
  have hcut := compute_cases difference w a b false f
  have hm := w.two_pow_bits
  have ha := w.toNat_lt a
  have hb := w.toNat_lt b
  have hd := w.toNat_lt (a - b)
  simp only [compute, exact, Bool.toNat_false, sub_toNat] at hcut
  rw [bne_iff_ne, ne_eq, Bool.eq_iff_iff, sub_sign_iff, sub_overflow_iff, Width.Signed, w.toInt_eq,
    w.toInt_eq, w.toInt_eq]
  split <;> split <;> split <;> omega

theorem contrary {x : Bool} {p : Prop} (h : x = true ↔ p) : (!x) = true ↔ ¬p := by
  rw [Bool.not_eq_true', ← h, Bool.not_eq_true]

theorem condition_sub_iff {code : UInt8} (h : code < 16) :
    condition code (sub w a b false f).2 = true ↔ Compared w a b code := by
  have hequal : (sub w a b false f).2.zero = true ↔ w.toInt a = w.toInt b :=
    (sub_zero_iff w a b f).trans (toInt_eq_toInt_iff w a b).symm
  obtain ⟨n, hn, rfl⟩ : ∃ n < 16, code = UInt8.ofNat n :=
    ⟨code.toNat, UInt8.lt_iff_toNat_lt.1 h, UInt8.ofNat_toNat.symm⟩
  have hbelow : ((sub w a b false f).2.carry || (sub w a b false f).2.zero) = true ↔
      w.toNat a ≤ w.toNat b := by
    rw [Bool.or_eq_true, sub_carry_iff, sub_zero_iff, le_iff_lt_or_eq]
  have hless : ((sub w a b false f).2.zero ||
      ((sub w a b false f).2.sign != (sub w a b false f).2.overflow)) = true ↔
      w.toInt a ≤ w.toInt b := by
    rw [Bool.or_eq_true, hequal, sub_sign_ne_overflow_iff, le_iff_lt_or_eq, or_comm]
  match n, hn with
  | 0, _ => exact sub_overflow_iff w a b f
  | 1, _ => exact (contrary (sub_overflow_iff w a b f)).trans not_not
  | 2, _ => exact sub_carry_iff w a b f
  | 3, _ => exact contrary (sub_carry_iff w a b f)
  | 4, _ => exact sub_zero_iff w a b f
  | 5, _ => exact contrary (sub_zero_iff w a b f)
  | 6, _ => exact hbelow
  | 7, _ => exact contrary hbelow
  | 8, _ => exact sub_sign_iff w a b f
  | 9, _ => exact (contrary (sub_sign_iff w a b f)).trans not_lt
  | 10, _ => exact sub_parity_iff w a b f
  | 11, _ => exact contrary (sub_parity_iff w a b f)
  | 12, _ => exact sub_sign_ne_overflow_iff w a b f
  | 13, _ => exact (contrary (sub_sign_ne_overflow_iff w a b f)).trans not_lt
  | 14, _ => exact hless
  | 15, _ => exact (contrary hless).trans not_le
  | n + 16, hn => exact absurd hn (by omega)

end Flags

section Instructions

variable {β : Type} [Bus β] {c : Cpu} {code : UInt8} {e : List UInt8} {effect : Bool → Exec β Unit}

def hop (distance : UInt16) (taken : Bool) : Exec β Unit :=
  if taken then jumpBy distance else pure ()

/-- The bytes of the instructions that ask a condition, and what each does with the answer. The
processor has come to the opcode. -/
inductive Asks (c : Cpu) (code : UInt8) : List UInt8 → (Bool → Exec β Unit) → Prop where
  | jump (d : UInt8) : Asks c code [0x70 + code, d] (hop (distanceOf d))
  | jumpNear (low high : UInt8) :
    Asks c code [0x0F, 0x80 + code, low, high] (hop (wordOf low high))
  | store {x : UInt8} {place : List UInt8} (h : place.length = (ModRM.ofByte x).trailing) :
    Asks c code ([0x0F, 0x90 + code, x] ++ place) fun holds =>
      writePlace .byte (if holds then 1 else 0) ((ModRM.ofByte x).place c place)

theorem ofEscaped_setIf (h : code < 16) : Opcode.ofEscaped (0x90 + code) = .setIf code := by
  obtain ⟨hnot, hrow, hlow⟩ := byte_of_below (n := 16) (P := fun code =>
    ¬((0x90 + code) &&& 0xF0 == 0x80) = true ∧ ((0x90 + code) &&& 0xF0 == 0x90) = true ∧
      (0x90 + code) &&& 0x0F = code)
    (by decide) (UInt8.lt_iff_toNat_lt.1 h)
  unfold Opcode.ofEscaped
  rw [if_neg hnot, if_pos hrow, hlow]

theorem encodes_setIf (h : code < 16) {x : UInt8} {place : List UInt8}
    (hx : place.length = (ModRM.ofByte x).trailing) :
    Encodes c ([0x0F, 0x90 + code, x] ++ place)
      (.setIf code ((ModRM.ofByte x).place c place)) := by
  refine ⟨0x0F, _, rfl, by decide, nofun, fun β _ => ?_⟩
  have hplace : Reads c (x :: place)
      (decode [0x0F, 0x90 + code] (Opcode.ofEscaped (0x90 + code)) : Exec β Instruction)
      (.setIf code ((ModRM.ofByte x).place c place)) := by
    rw [ofEscaped_setIf h]
    exact .last (reads_decodeModRM hx) (reads_pure _)
  exact (reads_fetchByte (0x90 + code)).bind hplace

/-- The instruction acts on what the condition says of the flags. -/
theorem Asks.encodes (ha : Asks c code e effect) (h : code < 16) :
    ∃ i, Encodes c e i ∧
      ∀ s : System β, execute i s = effect (condition code s.cpu.registers.flags) s := by
  cases ha with
  | jump d => exact ⟨_, encodes_jumpIf h d, fun _ => rfl⟩
  | jumpNear low high => exact ⟨_, encodes_jumpIfNear h low high, fun _ => rfl⟩
  | store hx => exact ⟨_, encodes_setIf h hx, fun _ => rfl⟩

theorem Asks.run {ps : List UInt8} {s t : System β} (ha : Asks (noted ps s.cpu) code e effect)
    (h : code < 16) (hs : Supplies s (ps ++ e) t) (hp : ∀ p ∈ ps, IsPrefix p)
    (hn : ps.length < segmentSize) :
    runInstruction none segmentSize s =
      effect (condition code s.cpu.registers.flags)
        { t with cpu.prefixes := collected ps s.cpu.prefixes } := by
  obtain ⟨i, he, hi⟩ := ha.encodes h
  have hflags : t.cpu.registers.flags = s.cpu.registers.flags := by
    rw [hs.cpu]
  rw [he.run_supplied rfl hs hp none hn, hi, ← hflags]

end Instructions

/-- With these flags a condition tells whether `p`, and every instruction that asks it acts
accordingly, behind any prefixes. -/
structure Decides (f : Flags) (code : UInt8) (p : Prop) : Prop where
  tells : condition code f = true ↔ p
  acts {β : Type} [Bus β] {s t : System β} {ps e : List UInt8} {effect : Bool → Exec β Unit}
    (hf : s.cpu.registers.flags = f) (ha : Asks (noted ps s.cpu) code e effect)
    (hs : Supplies s (ps ++ e) t) (hp : ∀ q ∈ ps, IsPrefix q) (hn : ps.length < segmentSize)
    (holds : Bool) (h : holds = true ↔ p) :
    runInstruction none segmentSize s =
      effect holds { t with cpu.prefixes := collected ps s.cpu.prefixes }

theorem Decides.of_tells {f : Flags} {code : UInt8} {p : Prop} (hcode : code < 16)
    (h : condition code f = true ↔ p) : Decides f code p where
  tells := h
  acts hf ha hs hp hn holds hholds := by
    rw [ha.run hcode hs hp hn, hf, Bool.eq_iff_iff.2 (h.trans hholds.symm)]

/-- Of three conditions that exclude each other one holds. -/
theorem existsUnique_of_trichotomy {f : Flags} {x y z : UInt8} {p q r : Prop}
    (hx : condition x f = true ↔ p) (hy : condition y f = true ↔ q)
    (hz : condition z f = true ↔ r)
    (h : p ∧ ¬q ∧ ¬r ∨ ¬p ∧ q ∧ ¬r ∨ ¬p ∧ ¬q ∧ r) :
    ∃! code, code ∈ [x, y, z] ∧ condition code f = true := by
  simp only [List.mem_cons, List.not_mem_nil, or_false]
  rw [← hx, ← hy, ← hz] at h
  obtain ⟨hx, hy, hz⟩ | ⟨hx, hy, hz⟩ | ⟨hx, hy, hz⟩ := h
  · refine ⟨x, ⟨.inl rfl, hx⟩, ?_⟩
    rintro _ ⟨rfl | rfl | rfl, hc⟩
    · rfl
    · exact absurd hc hy
    · exact absurd hc hz
  · refine ⟨y, ⟨.inr (.inl rfl), hy⟩, ?_⟩
    rintro _ ⟨rfl | rfl | rfl, hc⟩
    · exact absurd hc hx
    · rfl
    · exact absurd hc hz
  · refine ⟨z, ⟨.inr (.inr rfl), hz⟩, ?_⟩
    rintro _ ⟨rfl | rfl | rfl, hc⟩
    · exact absurd hc hx
    · exact absurd hc hy
    · rfl

/-- Once two numbers have been compared, each condition decides its relation between them. So
exactly one of below, equal and above holds, and exactly one of less, equal and greater. -/
theorem comparison_decides_conditions {β : Type} [Bus β] {w : Width} {target : Place}
    {source : Source} {s u v : System β} {a b : UInt32} (ha : readPlace w target s = .ok a u)
    (hb : readSource w source u = .ok b v) :
    ∃ f : Flags,
      execute (.arithmetic .compare w target source) s =
        .ok () { v with cpu.registers.flags := f } ∧
      (∀ code < 16, Decides f code (Compared w a b code)) ∧
      (∃! code, code ∈ [2, 4, 7] ∧ condition code f = true) ∧
      ∃! code, code ∈ [12, 4, 15] ∧ condition code f = true := by
  have hcode {code : UInt8} (h : code < 16) :=
    condition_sub_iff w a b v.cpu.registers.flags h
  have hequal := toInt_eq_toInt_iff w a b
  refine ⟨_, execute_arithmetic ha hb, fun code h => .of_tells h (hcode h), ?_, ?_⟩
  · apply existsUnique_of_trichotomy (hcode (by decide)) (hcode (by decide)) (hcode (by decide))
    change w.toNat a < w.toNat b ∧ ¬w.toNat a = w.toNat b ∧ ¬¬w.toNat a ≤ w.toNat b ∨
      ¬w.toNat a < w.toNat b ∧ w.toNat a = w.toNat b ∧ ¬¬w.toNat a ≤ w.toNat b ∨
      ¬w.toNat a < w.toNat b ∧ ¬w.toNat a = w.toNat b ∧ ¬w.toNat a ≤ w.toNat b
    omega
  · apply existsUnique_of_trichotomy (hcode (by decide)) (hcode (by decide)) (hcode (by decide))
    change w.toInt a < w.toInt b ∧ ¬w.toNat a = w.toNat b ∧ ¬w.toInt b < w.toInt a ∨
      ¬w.toInt a < w.toInt b ∧ w.toNat a = w.toNat b ∧ ¬w.toInt b < w.toInt a ∨
      ¬w.toInt a < w.toInt b ∧ ¬w.toNat a = w.toNat b ∧ w.toInt b < w.toInt a
    omega

def leastAndOne : System (Board ExpansionCard) where
  cpu := { registers := (({} : Registers).setWord .ax 0x8000).setWord .bx 1 }
  bus := loaded []

/-- Their difference overflows: the least number is above as well as less. -/
theorem comparison_decides_conditions_of_overflow :
    readPlace .word (.register .ax) leastAndOne = .ok 0x8000 leastAndOne ∧
    readSource .word (.register .bx) leastAndOne = .ok 1 leastAndOne ∧
    ∃ f : Flags,
      execute (.arithmetic .compare .word (.register .ax) (.register .bx)) leastAndOne =
        .ok () { leastAndOne with cpu.registers.flags := f } ∧
      condition 0 f = true ∧ condition 7 f = true ∧ condition 12 f = true ∧
      ∃! code, code ∈ [12, 4, 15] ∧ condition code f = true := by
  have ha : readPlace .word (.register .ax) leastAndOne = .ok 0x8000 leastAndOne := rfl
  have hb : readSource .word (.register .bx) leastAndOne = .ok 1 leastAndOne := rfl
  obtain ⟨f, he, hdecides, -, hone⟩ := comparison_decides_conditions ha hb
  have hless : Width.word.toInt 0x8000 < Width.word.toInt 1 := by decide
  have hplace : ¬Width.word.Signed (Width.word.toInt 0x8000 - Width.word.toInt 1) := by
    unfold Width.Signed
    decide
  exact ⟨ha, hb, f, he, (hdecides 0 (by decide)).tells.2 hplace,
    (hdecides 7 (by decide)).tells.2 (show ¬(32768 : Nat) ≤ 1 by decide),
    (hdecides 12 (by decide)).tells.2 hless, hone⟩

end Pc8086.Cpu

import Mathlib.Algebra.Ring.Int.Defs
import Pc8086.Proofs.Cpu.Encoding
import Pc8086.Proofs.Cpu.Stack

namespace Pc8086.Cpu

open Exec

theorem distanceOf_toNat (b : UInt8) :
    ((distanceOf b).toNat : Int) = (b.toNat : Int).bmod 256 % 65536 :=
  byte_of_below (n := 256)
    (P := fun b => ((distanceOf b).toNat : Int) = (b.toNat : Int).bmod 256 % 65536)
    (by decide +kernel) b.toNat_lt

theorem code_ofCode {code : UInt8} (h : code.toNat < 8) : (Reg.ofCode code).code = code :=
  byte_of_below (n := 8) (P := fun code => (Reg.ofCode code).code = code) (by decide) h

theorem code_cases {code : UInt8} (h : code.toNat < 8) : code = 0 ∨ code = 1 ∨ code = 2 ∨
    code = 3 ∨ code = 4 ∨ code = 5 ∨ code = 6 ∨ code = 7 :=
  byte_of_below (P := fun code => code = 0 ∨ code = 1 ∨ code = 2 ∨ code = 3 ∨ code = 4 ∨ code = 5 ∨
    code = 6 ∨ code = 7) (by decide) h

namespace ModRM

theorem ofByte_toNat (x : UInt8) :
    (ofByte x).mode.toNat = x.toNat / 64 ∧ (ofByte x).reg.toNat = x.toNat / 8 % 8 ∧
      (ofByte x).rm.toNat = x.toNat % 8 :=
  byte_of_below (n := 256)
    (P := fun x => (ofByte x).mode.toNat = x.toNat / 64 ∧ (ofByte x).reg.toNat = x.toNat / 8 % 8 ∧
      (ofByte x).rm.toNat = x.toNat % 8)
    (by decide +kernel) x.toNat_lt

/-- The base and index registers that an operand in memory lies at the sum of. -/
def summands (m : ModRM) : List Reg :=
  if m.isDirect then []
  else
    match m.rm with
    | 0 => [.bx, .si]
    | 1 => [.bx, .di]
    | 2 => [.bp, .si]
    | 3 => [.bp, .di]
    | 4 => [.si]
    | 5 => [.di]
    | 6 => [.bp]
    | _ => [.bx]

/-- How far from the sum the operand lies: a byte counts with its sign. -/
def distance : List UInt8 → Int
  | [b] => (b.toNat : Int).bmod 256
  | [low, high] => 256 * high.toNat + low.toNat
  | _ => 0

/-- The operand that an addressing byte selects with the bytes behind it. -/
inductive Selects (m : ModRM) (c : Cpu) (bytes : List UInt8) : Place → Prop
  | register {i : Reg} (hmode : m.mode = 3) (hcode : i.code = m.rm) :
    Selects m c bytes (.register i)
  | memory {l : Location} (hmode : m.mode ≠ 3)
    (hoffset : (l.offset.toNat : Int) =
      ((m.summands.map fun i => ((c.registers.word i).toNat : Int)).sum + distance bytes) % 65536)
    (hsegment : l.segment =
      c.prefixes.segmentOverride.getD (if .bp ∈ m.summands then .ss else .ds)) :
    Selects m c bytes (.memory l)

theorem displacement_toNat :
    (bytes : List UInt8) → ((displacement bytes).toNat : Int) = distance bytes % 65536
  | [] => rfl
  | [b] => distanceOf_toNat b
  | [low, high] => by
    have hlow := low.toNat_lt
    have hhigh := high.toNat_lt
    have hword : (wordOf low high).toNat = high.toNat * 256 + low.toNat := joined_toNat low high
    change ((wordOf low high).toNat : Int) = (256 * high.toNat + low.toNat) % 65536
    omega
  | _ :: _ :: _ :: _ => rfl

theorem base_toNat {m : ModRM} (h : ¬m.isDirect = true) (hrm : m.rm.toNat < 8) (r : Registers) :
    (((BaseIndex.ofCode m.rm).offset r).toNat : Int) =
      (m.summands.map fun i => ((r.word i).toNat : Int)).sum % 65536 := by
  have htwo : ∀ a b : UInt16, ((a + b).toNat : Int) = (a.toNat + (b.toNat + 0)) % 65536 := by
    intro a b
    rw [UInt16.toNat_add]
    omega
  have hone : ∀ a : UInt16, (a.toNat : Int) = (a.toNat + 0) % 65536 := by
    intro a
    have ha := a.toNat_lt
    omega
  unfold summands
  rw [if_neg h]
  rcases code_cases hrm with h | h | h | h | h | h | h | h <;> rw [h]
  · exact htwo ..
  · exact htwo ..
  · exact htwo ..
  · exact htwo ..
  · exact hone _
  · exact hone _
  · exact hone _
  · exact hone _

/-- A sum with the base pointer lies in the stack segment. -/
theorem defaultSegment_eq {m : ModRM} (h : ¬m.isDirect = true) (hrm : m.rm.toNat < 8) :
    (BaseIndex.ofCode m.rm).defaultSegment = if .bp ∈ m.summands then .ss else .ds := by
  unfold summands
  rw [if_neg h]
  rcases code_cases hrm with h | h | h | h | h | h | h | h <;> rw [h] <;> decide

theorem selects_place {m : ModRM} (hrm : m.rm.toNat < 8) (c : Cpu) (bytes : List UInt8) :
    m.Selects c bytes (m.place c bytes) := by
  have hdistance := displacement_toNat bytes
  unfold place
  dsimp only
  by_cases hmode : m.mode = 3
  · rw [if_pos (beq_iff_eq.2 hmode)]
    exact .register hmode (code_ofCode hrm)
  · rw [if_neg (mt beq_iff_eq.1 hmode)]
    by_cases hd : m.isDirect = true
    · rw [if_pos hd]
      have hnone : m.summands = [] := if_pos hd
      refine .memory hmode ?_ ?_
      · rw [hnone, hdistance, List.map_nil, List.sum_nil, Int.zero_add]
      · rw [hnone, if_neg List.not_mem_nil]
        rfl
    · rw [if_neg hd]
      have hbase := base_toNat hd hrm c.registers
      refine .memory hmode ?_ ?_
      · rw [UInt16.toNat_add]
        omega
      · rw [← defaultSegment_eq hd hrm]
        rfl

end ModRM

section Boards

variable {δ : Type} [Peripheral δ]

/-- Decoding takes an addressing byte and as many bytes behind it as its mode says, and of the
system only the instruction pointer moves, past them. The fields are the top two bits, the middle
three and the low three, and the operand is what they select. Nothing else is asked of the bus. -/
theorem decodeModRM_selects {s : System (Board δ)} {x : UInt8} {bytes : List UInt8}
    (hlength : bytes.length = (ModRM.ofByte x).trailing)
    (hcode : s.bus.memory.Spells s.cpu.registers.cs s.cpu.registers.ip (x :: bytes)) :
    ∃ m p, decodeModRM s = .ok (m, p) (advanced (1 + bytes.length) s) ∧
      m.mode.toNat = x.toNat / 64 ∧ m.reg.toNat = x.toNat / 8 % 8 ∧ m.rm.toNat = x.toNat % 8 ∧
      m.Selects s.cpu bytes p ∧
      ∃ u, decodeModRM (recorded s) = .ok (m, p) u ∧
        u.bus.latestFirst.reverse = fetches s.cpu.registers (1 + bytes.length) := by
  obtain ⟨hmode, hreg, hrm⟩ := ModRM.ofByte_toNat x
  have hsupplies := supplies_board hcode
  have hrecorded := supplies_recorded (s := recorded s) hcode
  rw [List.length_cons, Nat.add_comm] at hsupplies hrecorded
  refine ⟨ModRM.ofByte x, _, reads_decodeModRM hlength s _ rfl hsupplies, hmode, hreg, hrm,
    ModRM.selects_place (by omega) s.cpu bytes, _,
    reads_decodeModRM hlength (recorded s) _ rfl hrecorded, ?_⟩
  change ((fetches s.cpu.registers (1 + bytes.length)).reverse ++ []).reverse = _
  rw [List.append_nil, List.reverse_reverse]

/-- The operand of `[bp-2]` lies behind the end of the stack segment, where its offset goes around
to. -/
theorem decodeModRM_selects_below_base :
    let s : System (Board ExpansionCard) :=
      ⟨{ registers := { ebp := 1, ip := 3 } }, loaded [0, 0, 0, 0x46, 0xFE]⟩
    [0xFE].length = (ModRM.ofByte 0x46).trailing ∧
      s.bus.memory.Spells s.cpu.registers.cs s.cpu.registers.ip [0x46, 0xFE] ∧
      decodeModRM s = .ok (⟨1, 0, 6⟩, .memory ⟨.ss, 0xFFFF⟩) (advanced 2 s) := by
  intro s
  have hlength : [0xFE].length = (ModRM.ofByte 0x46).trailing := rfl
  have hcode : s.bus.memory.Spells s.cpu.registers.cs s.cpu.registers.ip [0x46, 0xFE] := by decide
  obtain ⟨⟨mode, reg, rm⟩, p, hrun, hmode, hreg, hrm, hselects, -⟩ :=
    decodeModRM_selects hlength hcode
  obtain rfl : mode = 1 := UInt8.toNat_inj.1 hmode
  obtain rfl : reg = 0 := UInt8.toNat_inj.1 hreg
  obtain rfl : rm = 6 := UInt8.toNat_inj.1 hrm
  refine ⟨hlength, hcode, ?_⟩
  cases hselects with
  | register h => exact absurd h (by decide)
  | @memory l _ hoffset hsegment =>
    obtain ⟨segment, offset⟩ := l
    obtain rfl : segment = .ss := hsegment
    obtain rfl : offset = 0xFFFF := UInt16.toNat_inj.1 (Int.ofNat.inj (hoffset.trans (by decide)))
    exact hrun

end Boards

end Pc8086.Cpu

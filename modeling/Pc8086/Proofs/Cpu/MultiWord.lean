import Pc8086.Proofs.Cpu.FlagEffects
import Pc8086.Proofs.Cpu.InstructionLength
import Pc8086.Proofs.Cpu.Limbs
import Pc8086.Proofs.Cpu.Operands

namespace Pc8086.Cpu

open Exec
open Alu (AddSub)

section Carry

variable {β : Type} [Bus β]

def carryFlag (r : Registers) : Bool :=
  r.flags.carry

/-- Steps up and down, moves and loops: the instructions that are found between limbs. -/
def Instruction.betweenLimbs (i : Instruction) : Bool :=
  i.isMove ||
    match i with
    | .unary .increment .. | .unary .decrement .. | .unary .complement .. | .loop ..
    | .jumpIfCountZero _ | .jumpIf .. | .jumpRelative _ => true
    | _ => false

theorem carry_not_mem_affected {i : Instruction} (h : i.betweenLimbs = true) :
    .carry ∉ i.affected := by
  cases i with
  | unary op =>
    cases op with
    | increment | decrement =>
      exact show .carry ∉ [Flag.parity, .adjust, .zero, .sign, .overflow] by decide
    | complement => exact List.not_mem_nil
    | negate => exact Bool.noConfusion h
  | _ => first | exact Bool.noConfusion h | exact List.not_mem_nil

theorem keepsCarry_execute {i : Instruction} (h : i.betweenLimbs = true) :
    Keeps carryFlag (execute i : Exec β Unit) :=
  keepsFlag_execute (carry_not_mem_affected h)

end Carry

variable {δ : Type} [Peripheral δ] {s t u v : System (Board δ)} {i : Instruction}

theorem Completes.unique (h : Completes s i t) (h' : Completes s i u) : t = u := by
  have heq := h.step.symm.trans h'.step
  cases heq
  rfl

/-- Decoding touches no operand and no flag. -/
theorem Begins.sameOperands (h : Begins s i u) :
    SameOperands s u ∧ u.cpu.registers.flags = s.cpu.registers.flags := by
  obtain ⟨q, rfl, -⟩ := decodeInstruction_code h.decodes
  exact ⟨sameOperands_of_registers rfl rfl, rfl⟩

theorem sameOperands_retire (v : System (Board δ)) : SameOperands v (retire v) :=
  sameOperands_of_registers rfl rfl

theorem Completes.keepsCarry (h : Completes s i t)
    (hi : Keeps carryFlag (execute i : Exec (Board δ) Unit)) :
    t.cpu.registers.flags.carry = s.cpu.registers.flags.carry := by
  obtain ⟨u, v, hu, he, rfl⟩ := h
  have hkept := hi u
  rw [he] at hkept
  exact hkept.trans (congrArg Flags.carry hu.sameOperands.2)

section Limb

variable {op : AddSub} {chained : Bool} {w : Width} {target : Place} {source : Source}
  {a b r : UInt32}

def Alu.AddSub.operation : AddSub → Bool → Alu.Operation
  | .sum, false => .add
  | .sum, true => .adc
  | .difference, false => .sub
  | .difference, true => .sbb

theorem apply_operation (op : AddSub) (chained : Bool) (w : Width) (a b : UInt32) (f : Flags) :
    (op.operation chained).apply w a b f = op.compute w a b (chained && f.carry) f := by
  cases op <;> cases chained <;> rfl

theorem storesResult_operation (op : AddSub) (chained : Bool) :
    (op.operation chained).storesResult = true := by
  cases op <;> cases chained <;> rfl

structure LimbStep (op : AddSub) (chained : Bool) (w : Width) (target : Place) (source : Source)
    (s : System (Board δ)) (a b r : UInt32) (t : System (Board δ)) : Prop where
  completes : Completes s (.arithmetic (op.operation chained) w target source) t
  left : readPlace w target s = .ok a s
  right : readSource w source s = .ok b s
  result : readPlace w target t = .ok r t

/-- Limbs that can be read are added or subtracted. -/
theorem exists_limbStep (h : Begins s (.arithmetic (op.operation chained) w target source) u)
    (ha : readPlace w target s = .ok a s) (hb : readSource w source s = .ok b s) :
    let p := op.compute w a b (chained && s.cpu.registers.flags.carry) s.cpu.registers.flags
    ∃ r t, LimbStep op chained w target source s a b r t ∧ r.toNat = p.1.toNat ∧
      t.cpu.registers.flags = p.2 := by
  intro p
  obtain ⟨hsame, hflags⟩ := h.sameOperands
  have hexecute : execute (.arithmetic (op.operation chained) w target source) u = _ :=
    execute_arithmetic (hsame.readPlace ha) (hsame.readSource hb)
  rw [storesResult_operation, if_pos rfl, apply_operation, hflags] at hexecute
  -- the result is written where its first operand was read
  have hset : SameOperands u { u with cpu.registers.flags := p.2 } :=
    sameOperands_of_registers rfl rfl
  obtain ⟨r, v, hwrite, hkept, hread, hr⟩ :=
    exists_writePlace (hset.readPlace (hsame.readPlace ha)) p.1
  refine ⟨r, retire v, ⟨⟨u, v, h, hexecute.trans hwrite, rfl⟩, ha, hb, ?_⟩, ?_, hkept⟩
  · exact (sameOperands_retire v).readPlace hread
  · rw [hr, w.toNat_eq_self (AddSub.compute_lt ..)]

theorem LimbStep.effect (h : LimbStep op chained w target source s a b r t) :
    let p := op.compute w a b (chained && s.cpu.registers.flags.carry) s.cpu.registers.flags
    r.toNat = p.1.toNat ∧ t.cpu.registers.flags = p.2 := by
  obtain ⟨u, v, hu, -, -⟩ := h.completes
  obtain ⟨r', t', h', hr, hf⟩ := exists_limbStep hu h.left h.right
  obtain rfl := h.completes.unique h'.completes
  have hsame := h.result.symm.trans h'.result
  cases hsame
  exact ⟨hr, hf⟩

end Limb

/-- Steps that leave the carry flag alone. -/
inductive Interlude : System (Board δ) → System (Board δ) → Prop
  | done (s : System (Board δ)) : Interlude s s
  | step {s t u : System (Board δ)} {i : Instruction} (h : Completes s i t)
    (hi : Keeps carryFlag (execute i : Exec (Board δ) Unit)) (hrest : Interlude t u) :
    Interlude s u

theorem Interlude.carry (h : Interlude s t) :
    t.cpu.registers.flags.carry = s.cpu.registers.flags.carry := by
  induction h with
  | done s => rfl
  | step h hi _ ih => exact ih.trans (h.keepsCarry hi)

/-- Two numbers are added or subtracted limb by limb, the lowest first. -/
inductive Ripple (op : AddSub) (w : Width) : List UInt32 → List UInt32 → List UInt32 →
    System (Board δ) → Prop
  | first {target : Place} {source : Source} {s t : System (Board δ)} {a b r : UInt32}
    (h : LimbStep op false w target source s a b r t) : Ripple op w [a] [b] [r] t
  | next {target : Place} {source : Source} {as bs rs : List UInt32} {s t u : System (Board δ)}
    {a b r : UInt32} (hrest : Ripple op w as bs rs s) (hi : Interlude s t)
    (h : LimbStep op true w target source t a b r u) :
    Ripple op w (as ++ [a]) (bs ++ [b]) (rs ++ [r]) u

variable {op : AddSub} {w : Width} {as bs rs : List UInt32}

/-- By induction on the chain: the carry goes from limb to limb. -/
theorem Ripple.carries (h : Ripple op w as bs rs t) :
    op.Carries w as bs rs t.cpu.registers.flags.carry := by
  induction h with
  | first h =>
    obtain ⟨hr, hf⟩ := h.effect
    rw [hf]
    exact (AddSub.carries_nil op w).append hr
  | next _ hi h ih =>
    obtain ⟨hr, hf⟩ := h.effect
    rw [← hi.carry] at ih
    rw [hf]
    exact ih.append hr

theorem Ripple.yields (h : Ripple op w as bs rs t) :
    op.Yields w as bs rs t.cpu.registers.flags := by
  cases h with
  | first h =>
    obtain ⟨hr, hf⟩ := h.effect
    rw [hf]
    exact (AddSub.carries_nil op w).yields hr
  | next hrest hi h =>
    have hcarries := hrest.carries
    obtain ⟨hr, hf⟩ := h.effect
    rw [← hi.carry] at hcarries
    rw [hf]
    exact hcarries.yields hr

/-- Sums and differences of numbers of any size. Limbs that can be read are added or subtracted, and
steps up and down, moves and loops keep the carry flag. Whatever leaves that flag alone between the
limbs, the results are the limbs of the sum or difference cut to the size of the numbers; in the end
the carry tells whether it was cut, and the overflow whether in two's complement it has no place. -/
theorem limbs_make_sum_or_difference (op : AddSub) (w : Width) :
    (∀ i : Instruction, i.betweenLimbs = true →
      Keeps carryFlag (execute i : Exec (Board δ) Unit)) ∧
    (∀ chained target source (s u : System (Board δ)) a b,
      Begins s (.arithmetic (op.operation chained) w target source) u →
      readPlace w target s = .ok a s → readSource w source s = .ok b s →
      ∃ r t, LimbStep op chained w target source s a b r t) ∧
    ∀ as bs rs (t : System (Board δ)), Ripple op w as bs rs t →
      op.Yields w as bs rs t.cpu.registers.flags := by
  refine ⟨fun i => keepsCarry_execute, fun chained target source s u a b h ha hb => ?_,
    fun as bs rs t => Ripple.yields⟩
  obtain ⟨r, t, hstep, -, -⟩ := exists_limbStep h ha hb
  exact ⟨r, t, hstep⟩

/-- The greatest positive number of two words and a one. The program adds the low words, steps SI up
and adds the high words. -/
def greatestAndOne : System (Board ExpansionCard) where
  cpu := { registers := { eax := 0xFFFF, edx := 0x7FFF, ebx := 1 } }
  bus := loaded [0x01, 0xD8, 0x46, 0x11, 0xCA]

/-- The sum has a place without a sign, but none in two's complement. -/
theorem limbs_make_overflowing_sum :
    let t := stepped greatestAndOne 3
    Ripple .sum .word [0xFFFF, 0x7FFF] [1, 0] [0, 0x8000] t ∧
      Width.word.number [0, 0x8000] = 0x80000000 ∧ t.cpu.registers.flags.carry = false ∧
      t.cpu.registers.flags.overflow = true := by
  have hlow : LimbStep .sum false .word (.register .ax) (.register .bx) greatestAndOne 0xFFFF 1 0
      (stepped greatestAndOne 1) :=
    { completes := completes_of_decodes (by decide +kernel) (by decide +kernel)
        (by decide +kernel) (by decide +kernel) rfl (by decide +kernel)
      left := readPlace_register (by decide +kernel)
      right := readPlace_register (by decide +kernel)
      result := readPlace_register (by decide +kernel) }
  have hstep : Completes (stepped greatestAndOne 1) (.unary .increment .word (.register .si))
      (stepped greatestAndOne 2) :=
    completes_of_decodes (by decide +kernel) (by decide +kernel) (by decide +kernel)
      (by decide +kernel) rfl (by decide +kernel)
  have hhigh : LimbStep .sum true .word (.register .dx) (.register .cx)
      (stepped greatestAndOne 2) 0x7FFF 0 0x8000 (stepped greatestAndOne 3) :=
    { completes := completes_of_decodes (by decide +kernel) (by decide +kernel)
        (by decide +kernel) (by decide +kernel) rfl (by decide +kernel)
      left := readPlace_register (by decide +kernel)
      right := readPlace_register (by decide +kernel)
      result := readPlace_register (by decide +kernel) }
  obtain ⟨hkeeps, -, hyields⟩ := limbs_make_sum_or_difference (δ := ExpansionCard) .sum .word
  have hchain : Ripple .sum .word [0xFFFF, 0x7FFF] [1, 0] [0, 0x8000] (stepped greatestAndOne 3) :=
    .next (.first hlow) (.step hstep (hkeeps _ rfl) (.done _)) hhigh
  obtain ⟨-, -, -, -, hcarry, hoverflow⟩ := hyields _ _ _ _ hchain
  refine ⟨hchain, by decide +kernel, Bool.eq_false_iff.2 (hcarry.not.2 ?_), hoverflow.2 ?_⟩
  · decide +kernel
  · decide +kernel

end Pc8086.Cpu

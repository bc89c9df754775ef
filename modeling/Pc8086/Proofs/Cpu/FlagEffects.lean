import Pc8086.Proofs.Cpu.Keeping
import Pc8086.Proofs.Cpu.PackedFlags

namespace Pc8086.Cpu

open Exec

def Flag.status : List Flag :=
  [carry, parity, adjust, zero, sign, overflow]

/-- Shifts leave the adjust flag alone, and rotates all flags but those of the carries. -/
def Shift.affected (op : Shift) : List Flag :=
  if op.isRotate then [.carry, .overflow] else [.carry, .parity, .zero, .sign, .overflow]

def FlagChange.affected : FlagChange → List Flag
  | complementCarry | clearCarry | setCarry => [.carry]
  | disableInterrupts | enableInterrupts => [.interrupt]
  | clearDirection | setDirection => [.direction]

/-- The flags that the instruction may change. -/
def Instruction.affected : Instruction → List Flag
  | arithmetic .. | test .. | unary .negate .. | string .compare _ | string .scan _ => Flag.status
  | unary .increment .. | unary .decrement .. => [.parity, .adjust, .zero, .sign, .overflow]
  | accumulator .multiply .. | accumulator .multiplySigned .. | multiplyTruncated .. =>
    [.carry, .overflow]
  | shift op _ _ count => if count = 0 then [] else op.affected
  | adjustAfterAdd | adjustAfterSub | storeFlags => [.carry, .parity, .adjust, .zero, .sign]
  | adjustDigitAfterAdd | adjustDigitAfterSub => [.carry, .adjust]
  | splitDigits _ | joinDigits _ => [.parity, .zero, .sign]
  | popFlags | returnInterrupt => Flag.all
  | interrupt _ | interruptOnOverflow => [.trap, .interrupt]
  | changeFlag change => change.affected
  | _ => []

variable {f : Flag}

section Words

variable (w : Width) (a b : UInt32) (c : Bool) (p : Flags)

theorem get_add (h : f ∉ Flag.status) : (Alu.add w a b c p).2.get f = p.get f := by
  cases f <;> first | rfl | exact absurd (by decide) h

theorem get_sub (h : f ∉ Flag.status) : (Alu.sub w a b c p).2.get f = p.get f := by
  cases f <;> first | rfl | exact absurd (by decide) h

theorem get_logic (h : f ∉ Flag.status) : (Alu.logic w a p).2.get f = p.get f := by
  cases f <;> first | rfl | exact absurd (by decide) h

theorem get_apply (op : Alu.Operation) (h : f ∉ Flag.status) :
    (op.apply w a b p).2.get f = p.get f := by
  cases op with
  | add => exact get_add w a b false p h
  | adc => exact get_add w a b p.carry p h
  | sub => exact get_sub w a b false p h
  | compare => exact get_sub w a b false p h
  | sbb => exact get_sub w a b p.carry p h
  | or => exact get_logic w _ p h
  | and => exact get_logic w _ p h
  | xor => exact get_logic w _ p h

theorem get_increment (h : f ∉ [Flag.parity, .adjust, .zero, .sign, .overflow]) :
    (Alu.increment w a p).2.get f = p.get f := by
  cases f <;> first | rfl | exact absurd (by decide) h

theorem get_decrement (h : f ∉ [Flag.parity, .adjust, .zero, .sign, .overflow]) :
    (Alu.decrement w a p).2.get f = p.get f := by
  cases f <;> first | rfl | exact absurd (by decide) h

theorem get_shift (op : Shift) {count : UInt8} (h : f ∉ if count = 0 then [] else op.affected) :
    (op.apply w a count p).2.get f = p.get f := by
  unfold Shift.apply
  by_cases hc : count = 0
  · rw [if_pos (beq_iff_eq.2 hc)]
  · rw [if_neg hc, Shift.affected] at h
    rw [if_neg (mt beq_iff_eq.1 hc)]
    dsimp only
    split at h
    · next hr =>
      rw [if_pos hr]
      cases f <;> first | rfl | exact absurd (by decide) h
    · next hr =>
      rw [if_neg hr]
      cases f <;> first | rfl | exact absurd (by decide) h

end Words

def flagOf (f : Flag) (r : Registers) : Bool :=
  r.flags.get f

theorem apart_flagOf (f : Flag) : Apart (flagOf f) :=
  apart_flags.comp fun p => p.get f

section Registers

variable (r : Registers) (w : Width) (v : UInt32)

theorem flagOf_setLost (lost : Bool) (h : f ∉ [Flag.carry, .overflow]) :
    flagOf f (r.setLost lost) = flagOf f r := by
  cases f <;> first | rfl | exact absurd (by decide) h

theorem flagOf_multiply (h : f ∉ [Flag.carry, .overflow]) :
    flagOf f (r.multiply w v) = flagOf f r := by
  rw [Registers.multiply_eq]
  exact (flagOf_setLost _ _ h).trans ((apart_flagOf f).setDoubleAccumulator r w _ _)

theorem flagOf_multiplySigned (h : f ∉ [Flag.carry, .overflow]) :
    flagOf f (r.multiplySigned w v) = flagOf f r := by
  rw [Registers.multiplySigned_eq]
  exact (flagOf_setLost _ _ h).trans ((apart_flagOf f).setDoubleAccumulator r w _ _)

theorem flagOf_multiplyTruncated (i : Reg) (a b : UInt32) (h : f ∉ [Flag.carry, .overflow]) :
    flagOf f (r.multiplyTruncated w i a b) = flagOf f r :=
  ((apart_flagOf f).write _ w i _).trans (flagOf_setLost r _ h)

theorem flagOf_flagByte (b : UInt8) (h : f ∉ [Flag.parity, .zero, .sign]) :
    flagOf f (r.flagByte b) = flagOf f r := by
  cases f <;> first | rfl | exact absurd (by decide) h

theorem flagOf_adjustPacked (low high : UInt8)
    (h : f ∉ [Flag.carry, .parity, .adjust, .zero, .sign]) :
    flagOf f (r.adjustPacked low high) = flagOf f r := by
  unfold Registers.adjustPacked
  dsimp only
  rw [flagOf_flagByte _ _ fun hf => h (by revert hf; cases f <;> decide), (apart_flagOf f).setAl]
  cases f <;> first | rfl | exact absurd (by decide) h

theorem flagOf_adjustUnpacked (low high : UInt8) (h : f ∉ [Flag.carry, .adjust]) :
    flagOf f (r.adjustUnpacked low high) = flagOf f r := by
  unfold Registers.adjustUnpacked
  dsimp only
  rw [(apart_flagOf f).setAl]
  have hset (q : Registers) (c : Bool) :
      flagOf f { q with flags := { q.flags with carry := c, adjust := c } } = flagOf f q := by
    cases f <;> first | rfl | exact absurd (by decide) h
  rw [hset]
  split
  · exact (apart_flagOf f).setAh _ _
  · rfl

theorem flagOf_splitDigits? {r' : Registers} {base : UInt8} (hr : r.splitDigits? base = some r')
    (h : f ∉ [Flag.parity, .zero, .sign]) : flagOf f r' = flagOf f r := by
  unfold Registers.splitDigits? at hr
  split at hr
  · cases hr
  · cases hr
    rw [flagOf_flagByte _ _ h, (apart_flagOf f).setAl, (apart_flagOf f).setAh]

theorem flagOf_joinDigits (base : UInt8) (h : f ∉ [Flag.parity, .zero, .sign]) :
    flagOf f (r.joinDigits base) = flagOf f r := by
  unfold Registers.joinDigits
  rw [flagOf_flagByte _ _ h, (apart_flagOf f).setWord]

theorem get_ofWord (v : UInt16) (f : Flag) : (Flags.ofWord v).get f = (v &&& f.mask != 0) := by
  cases f <;> rfl

/-- The upper half of the packed word is put back as it was. -/
theorem get_storeFlags (p : Flags) (b : UInt8)
    (h : f ∉ [Flag.carry, .parity, .adjust, .zero, .sign]) :
    (Flags.ofWord ((p.toWord &&& 0xFF00) ||| b.toUInt16)).get f = p.get f := by
  have hupper : 0xFF00 &&& f.mask = f.mask ∧ 0x00FF &&& f.mask = 0 := by
    cases f <;> first | decide | exact absurd (by decide) h
  have hbyte : b.toUInt16 &&& 0x00FF = b.toUInt16 := by
    rw [← UInt16.toNat_inj, UInt16.toNat_and, UInt8.toNat_toUInt16]
    exact (Nat.and_two_pow_sub_one_eq_mod _ 8).trans (Nat.mod_eq_of_lt b.toNat_lt)
  have hlow : b.toUInt16 &&& f.mask = 0 := by
    rw [← hbyte, UInt16.and_assoc, hupper.2, UInt16.and_zero]
  rw [get_ofWord, or_and_distrib, UInt16.and_assoc, hupper.1, hlow, UInt16.or_zero,
    Flags.toWord_and_mask_ne_zero]

end Registers

section Instructions

variable {β : Type} [Bus β]

theorem keepsFlag_accumulator {op : AccumulatorOperation} {w : Width} {source : Place}
    (h : f ∉ (Instruction.accumulator op w source).affected) :
    Keeps (flagOf f) (accumulator op w source : Exec β Unit) := by
  refine (keeps_accessing.readPlace w source).bind fun v => keeps_look fun s => ?_
  cases op with
  | multiply => exact flagOf_multiply _ w v h
  | multiplySigned => exact flagOf_multiplySigned _ w v h
  | divide =>
    dsimp only
    cases hd : s.cpu.registers.divide? w v with
    | some r => exact (apart_flagOf f).divide? hd
    | none => rfl
  | divideSigned =>
    dsimp only
    cases hd : s.cpu.registers.divideSigned? w v with
    | some r => exact (apart_flagOf f).divideSigned? hd
    | none => rfl

theorem keepsFlag_splitDigits {base : UInt8} (h : f ∉ (Instruction.splitDigits base).affected) :
    Keeps (flagOf f) (execute (.splitDigits base) : Exec β Unit) := by
  refine keeps_look fun s => ?_
  cases hd : s.cpu.registers.splitDigits? base with
  | some r => exact flagOf_splitDigits? _ hd h
  | none => rfl

theorem keepsFlag_unary {op : UnaryOperation} {w : Width} {target : Place}
    (h : f ∉ (Instruction.unary op w target).affected) :
    Keeps (flagOf f) (unary op w target : Exec β Unit) := by
  have hwrite (v : UInt32) : Keeps (flagOf f) (writePlace w v target : Exec β Unit) :=
    (apart_flagOf f).writePlace w v target
  refine (keeps_accessing.readPlace w target).bind fun v => ?_
  cases op with
  | increment => exact (keeps_withFlags fun r => get_increment w v r.flags h).bind hwrite
  | decrement => exact (keeps_withFlags fun r => get_decrement w v r.flags h).bind hwrite
  | complement => exact (keeps_pure _).bind hwrite
  | negate => exact (keeps_withFlags fun r => get_sub w 0 v false r.flags h).bind hwrite

omit [Bus β] in
theorem keepsFlag_changeFlag {change : FlagChange} (h : f ∉ change.affected) :
    Keeps (flagOf f) (changeFlag change : Exec β Unit) := by
  refine keeps_modifyCpu fun c => ?_
  cases change with
  | enableInterrupts =>
    dsimp only
    split <;> (cases f <;> first | rfl | exact absurd (by decide) h)
  | _ => cases f <;> first | rfl | exact absurd (by decide) h

theorem keepsFlag_enterVector (vector : UInt8) (h : f ∉ [Flag.trap, .interrupt]) :
    Keeps (flagOf f) (enterVector vector : Exec β Unit) := by
  have hpush (v : UInt16) : Keeps (flagOf f) (pushWord v : Exec β Unit) :=
    (apart_flagOf f).pushWord v
  have hclear : Keeps (flagOf f) (modifyRegisters fun r =>
      { r with flags := { r.flags with interrupt := false, trap := false } } : Exec β Unit) := by
    refine keeps_modify fun r => ?_
    cases f <;> first | rfl | exact absurd (by decide) h
  refine keeps_registers.bind fun _ => (hpush _).bind fun _ => hclear.bind fun _ => ?_
  refine keeps_registers.bind fun _ => (hpush _).bind fun _ => ?_
  refine keeps_registers.bind fun _ => (hpush _).bind fun _ => ?_
  exact (keeps_onBus _).bind fun _ => (keeps_onBus _).bind fun _ => keeps_modify fun _ => rfl

theorem flags_finishElement (c : Cpu) : c.finishElement.registers.flags = c.registers.flags := by
  unfold finishElement
  split
  · rfl
  · dsimp only
    split <;> rfl

theorem keepsFlag_string {op : StringOperation} {w : Width}
    (h : f ∉ (Instruction.string op w).affected) :
    Keeps (flagOf f) (execute (.string op w) : Exec β Unit) := by
  have hadvance (i : Reg) : Keeps (flagOf f) (advance i w : Exec β Unit) :=
    (apart_flagOf f).advance i w
  have helement : Keeps (flagOf f) (element w op : Exec β Unit) := by
    cases op with
    | input =>
      exact keeps_registers.bind fun _ => (keeps_onBus _).bind fun v =>
        (keeps_writeTarget w v).bind fun _ => hadvance .di
    | output =>
      exact (keeps_readElement w).bind fun _ => keeps_registers.bind fun _ =>
        (keeps_onBus _).bind fun _ => hadvance .si
    | move =>
      exact (keeps_readElement w).bind fun v => (keeps_writeTarget w v).bind fun _ =>
        (hadvance .si).bind fun _ => hadvance .di
    | compare =>
      exact (keeps_readElement w).bind fun a => (keeps_readTarget w).bind fun b =>
        (keeps_withFlags fun r => get_sub w a b false r.flags h).bind fun _ =>
          (hadvance .si).bind fun _ => hadvance .di
    | store =>
      exact keeps_registers.bind fun _ => (keeps_writeTarget w _).bind fun _ => hadvance .di
    | load =>
      exact (keeps_readElement w).bind fun v =>
        (keeps_modify fun r => (apart_flagOf f).write r w .ax v).bind fun _ => hadvance .si
    | scan =>
      exact (keeps_readTarget w).bind fun b => keeps_registers.bind fun _ =>
        (keeps_withFlags fun r => get_sub w _ b false r.flags h).bind fun _ => hadvance .di
  exact helement.bind fun _ => keeps_modifyCpu fun c =>
    congrArg (fun p : Flags => p.get f) (flags_finishElement c)

theorem keepsFlag_arithmetic {op : Alu.Operation} {w : Width} {target : Place} {source : Source}
    (h : f ∉ Flag.status) :
    Keeps (flagOf f) (execute (.arithmetic op w target source) : Exec β Unit) := by
  refine (keeps_accessing.readPlace w target).bind fun a => ?_
  refine (keeps_accessing.readSource w source).bind fun b => ?_
  refine (keeps_withFlags fun r => get_apply w a b r.flags op h).bind fun v => ?_
  split
  · exact (apart_flagOf f).writePlace w v target
  · exact keeps_pure ()

theorem keepsFlag_shift {op : Shift} {w : Width} {target : Place} {count : UInt8}
    (h : f ∉ (Instruction.shift op w target count).affected) :
    Keeps (flagOf f) (execute (.shift op w target count) : Exec β Unit) := by
  refine (keeps_accessing.readPlace w target).bind fun a => ?_
  refine (keeps_withFlags fun r => get_shift w a r.flags op h).bind fun v => ?_
  split
  · exact (apart_flagOf f).writePlace w v target
  · exact keeps_pure ()

/-- An instruction keeps every flag but those named for it. -/
theorem keepsFlag_execute {i : Instruction} (h : f ∉ i.affected) :
    Keeps (flagOf f) (execute i : Exec β Unit) := by
  have hapart := apart_flagOf f
  have hjump (ip : UInt16) : Keeps (flagOf f) (jumpTo ip : Exec β Unit) := keeps_modify fun _ => rfl
  have hby (d : UInt16) : Keeps (flagOf f) (jumpBy d : Exec β Unit) := keeps_modify fun _ => rfl
  have hfar (a : SegmentedAddress) : Keeps (flagOf f) (jumpFarTo a : Exec β Unit) :=
    keeps_modify fun _ => rfl
  have hcall (a : SegmentedAddress) : Keeps (flagOf f) (callFar a : Exec β Unit) :=
    keeps_registers.bind fun _ => (hapart.pushWord _).bind fun _ =>
      keeps_registers.bind fun _ => (hapart.pushWord _).bind fun _ => hfar a
  have hrelease (n : UInt16) : Keeps (flagOf f) (releaseStack n : Exec β Unit) :=
    keeps_modify fun r => hapart.setWord r _ _
  -- moves, pushes and pops write places and registers only
  by_cases hmove : i.isMove = true
  · exact hapart.execute_move hmove
  cases i with
  | arithmetic op w target source => exact keepsFlag_arithmetic h
  | test w a b =>
    exact (keeps_accessing.readPlace w a).bind fun a => (keeps_accessing.readSource w b).bind
      fun b => (keeps_withFlags fun r => get_logic w _ r.flags h).bind fun _ => keeps_pure ()
  | unary op w target => exact keepsFlag_unary h
  | accumulator op w source => exact keepsFlag_accumulator h
  | multiplyTruncated w target a b =>
    exact (keeps_accessing.readSource w a).bind fun a => (keeps_accessing.readSource w b).bind
      fun b => keeps_modify fun r => flagOf_multiplyTruncated r w target a b h
  | shift op w target count => exact keepsFlag_shift h
  | adjustAfterAdd => exact keeps_modify fun r => flagOf_adjustPacked r _ _ h
  | adjustAfterSub => exact keeps_modify fun r => flagOf_adjustPacked r _ _ h
  | adjustDigitAfterAdd => exact keeps_modify fun r => flagOf_adjustUnpacked r _ _ h
  | adjustDigitAfterSub => exact keeps_modify fun r => flagOf_adjustUnpacked r _ _ h
  | splitDigits base => exact keepsFlag_splitDigits h
  | joinDigits base => exact keeps_modify fun r => flagOf_joinDigits r base h
  | storeFlags =>
    rw [execute]
    exact keeps_modify fun r => get_storeFlags r.flags r.ah h
  | popFlags => exact absurd (Flag.mem_all f) h
  | returnInterrupt => exact absurd (Flag.mem_all f) h
  | interrupt vector => exact keepsFlag_enterVector vector h
  | interruptOnOverflow =>
    refine keeps_registers.bind fun r => ?_
    split
    · exact keepsFlag_enterVector 4 h
    · exact keeps_pure ()
  | string op w => exact keepsFlag_string h
  | changeFlag change => exact keepsFlag_changeFlag h
  -- every other body is a sequence of parts that keep all flags
  | _ =>
    first
    | exact absurd rfl hmove
    | rw [execute]
      with_reducible repeat' first
        | exact keeps_pure _
        | exact keeps_registers
        | exact keeps_illegal _
        | exact keeps_onBus _
        | exact keeps_accessing.readPlace _ _
        | exact keeps_accessing.readFarPointer _
        | exact hapart.pushWord _
        | exact hapart.popWord
        | exact hapart.loopTaken _
        | exact hjump _
        | exact hby _
        | exact hfar _
        | exact hcall _
        | exact hrelease _
        | exact keeps_modify fun r => hapart.write r _ _ _
        | exact keeps_modify fun r => hapart.extendAccumulator r _
        | exact keeps_modify fun r => hapart.extendDouble r _
        | exact keeps_modify fun _ => rfl
        | exact keeps_modifyCpu fun _ => rfl
        | refine Keeps.bind ?_ fun _ => ?_
        | split

end Instructions

end Pc8086.Cpu

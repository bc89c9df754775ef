import Pc8086.Proofs.Cpu.Iteration
import Pc8086.Proofs.Cpu.Prefixed
import Pc8086.Proofs.Cpu.StringElement

namespace Pc8086.Cpu

open Exec

/-- A string instruction between memory and registers behind any prefixes with a repeat prefix among
them. -/
structure Repetition where
  prefixes : List UInt8
  opcode : UInt8
  /-- The repeat prefix that counts. -/
  rep : UInt8
  operation : StringOperation
  size : OperandSize
  isPrefix : ∀ p ∈ prefixes, IsPrefix p
  last : prefixes.reverse.find? PrefixByte.isRepeat = some rep
  decodes : Opcode.ofByte opcode = .string operation size
  internal : operation.internal = true

/-- The system after `n` steps, with nothing happening between them. -/
def stepped {β : Type} [Bus β] (s : System β) : Nat → System β
  | 0 => s
  | n + 1 => final (step (stepped s n))

namespace Repetition

def bytes (x : Repetition) : List UInt8 :=
  x.prefixes ++ [x.opcode]

def record (x : Repetition) : Prefixes where
  latestFirst := x.prefixes.reverse

def width (x : Repetition) : Width :=
  x.size.width x.record

/-- The zero flag after a comparison ends the repetition: if it is set for the one prefix, if it is
clear for the other. -/
def stops (x : Repetition) (f : Flags) : Bool :=
  x.operation.comparing && f.zero == (x.rep == PrefixByte.repeatNotEqual)

section Loop

variable {δ : Type} [Peripheral δ] (x : Repetition) (s : System (Board δ))

/-- The opcode carried out `k` times with its prefixes in force, not repeated. -/
def performed : Nat → System (Board δ)
  | 0 => { s with cpu.prefixes := x.record }
  | k + 1 => final (runOpcode x.opcode (performed k))

def count : UInt16 :=
  s.cpu.registers.word .cx

/-- The number of elements: the count, unless the zero flag ends the repetition before. -/
def elements : Nat :=
  match (List.range (count s).toNat).find? fun k =>
      x.stops (x.performed s (k + 1)).cpu.registers.flags with
  | some k => k + 1
  | none => (count s).toNat

/-- The number of steps; a count of zero takes one as well. -/
def steps : Nat :=
  max 1 (x.elements s)

/-- The instruction is the next one and nothing is in its way. -/
structure Ready : Prop where
  roomy : Roomy s
  trap : s.cpu.registers.flags.trap = false
  running : s.cpu.halted = false
  fresh : s.cpu.prefixes.isRepeating = false
  free : ¬Held s
  code : s.bus.memory.Holds s.cpu.registers.cs s.cpu.registers.ip x.bytes

/-- No element is written over the instruction itself. -/
def Apart : Prop :=
  x.operation.writes = true → ∀ k < x.elements s, ∀ i < x.width.bytes, ∀ j < x.bytes.length,
    linear s.cpu.registers.es
        ((x.performed s k).cpu.registers.word .di + UInt16.ofNat i) ≠
      linear s.cpu.registers.cs (s.cpu.registers.ip + UInt16.ofNat j)

/-- The first `k` elements and nothing else are done, and no repetition is under way. -/
structure At (ip : UInt16) (k : Nat) (t : System (Board δ)) : Prop where
  registers : t.cpu.registers =
    (x.performed s k).cpu.registers.positioned ip (count s - UInt16.ofNat k)
  memory : t.bus.memory = (x.performed s k).bus.memory
  running : t.cpu.halted = false
  fresh : t.cpu.prefixes.isRepeating = false
  free : ¬Held t

end Loop

section Element

variable {δ : Type} {x : Repetition} {s : System (Board δ)}

def effect (x : Repetition) (r : Registers) (m : Memory) : Registers × Memory :=
  elementEffect (x.record.segmentOr .ds) x.width x.operation r m

structure Kept (x : Repetition) (s t : System (Board δ)) : Prop where
  prefixes : t.cpu.prefixes = x.record
  size : t.bus.memory.size = s.bus.memory.size
  segment : ∀ i, t.cpu.registers.segment i = s.cpu.registers.segment i
  trap : t.cpu.registers.flags.trap = s.cpu.registers.flags.trap
  interrupt : t.cpu.registers.flags.interrupt = s.cpu.registers.flags.interrupt
  direction : t.cpu.registers.flags.direction = s.cpu.registers.flags.direction

theorem Kept.roomy {t : System (Board δ)} (h : x.Kept s t) (hs : Roomy s) : Roomy t := by
  unfold Roomy
  rwa [h.size]

theorem Kept.withEffect {t : System (Board δ)} (h : x.Kept s t) :
    x.Kept s (withEffect t (x.effect t.cpu.registers t.bus.memory)) where
  prefixes := h.prefixes
  size := (elementEffect_size ..).trans h.size
  segment i := (elementEffect_segment ..).trans (h.segment i)
  trap := (elementEffect_trap ..).trans h.trap
  interrupt := (elementEffect_interrupt ..).trans h.interrupt
  direction := (elementEffect_direction ..).trans h.direction

variable [Peripheral δ]

/-- The opcode performs an element and takes account of a repetition. -/
theorem run_opcode (h : Roomy s) (hp : s.cpu.prefixes.latestFirst = x.prefixes.reverse) :
    runOpcode x.opcode s =
      .ok () { withEffect s (x.effect s.cpu.registers s.bus.memory) with
        cpu := (withEffect s (x.effect s.cpu.registers s.bus.memory)).cpu.finishElement } := by
  have hs : s.cpu.prefixes.segmentOr .ds = x.record.segmentOr .ds := by
    rw [Prefixes.segmentOr, Prefixes.segmentOverride, hp]
    rfl
  have hw : x.size.width s.cpu.prefixes = x.width := by
    unfold width OperandSize.width Prefixes.operandWidth
    rw [hp]
    rfl
  have hd : decodeOpcode x.opcode s = .ok (.string x.operation x.width) s := by
    unfold decodeOpcode
    rw [x.decodes, ← hw]
    rfl
  have he := run_element h x.width x.internal
  rw [hs] at he
  rw [runOpcode_eq, bind_ok _ hd]
  change (element x.width x.operation >>= fun _ => modifyCpu finishElement) s = _
  rw [bind_ok _ he]
  rfl

theorem finishElement_of_idle {c : Cpu} {l : List UInt8} (h : c.prefixes = ⟨l, .idle⟩) :
    c.finishElement = c := by
  unfold finishElement
  rw [h]
  rfl

theorem finishElement_of_repeating {c : Cpu} {l : List UInt8} {mode : RepeatMode}
    {rewind : UInt16} (h : c.prefixes = ⟨l, .repeating mode rewind⟩) :
    c.finishElement =
      { c with
        registers := c.registers.positioned
          (if mode.continues (c.registers.word .cx - 1) c.registers.flags.zero
            then c.registers.ip - rewind else c.registers.ip) (c.registers.word .cx - 1)
        prefixes := ⟨l, .idle⟩ } := by
  unfold finishElement
  rw [h]
  change ({ c with
    registers := if mode.continues (c.registers.word .cx - 1) c.registers.flags.zero then _ else _
    prefixes := ⟨l, .idle⟩ } : Cpu) = _
  cases mode.continues (c.registers.word .cx - 1) c.registers.flags.zero <;> rfl

theorem continues_eq (x : Repetition) (count : UInt16) (f : Flags) :
    (PrefixByte.repeatMode x.rep x.operation.comparing).continues count f.zero =
      (count != 0 && !x.stops f) := by
  unfold RepeatMode.continues PrefixByte.repeatMode stops
  cases x.operation.comparing <;> cases x.rep == PrefixByte.repeatNotEqual <;>
    cases f.zero <;> rfl

/-- With a count of zero the opcode is not carried out. -/
theorem runPrefixed_of_zero (h : count s = 0) : runPrefixed (some x.rep) x.opcode s = .ok () s := by
  have hc : s.cpu.registers.word .cx = 0 := h
  unfold runPrefixed
  rw [x.decodes]
  dsimp only
  rw [run_registers, hc]
  rfl

theorem effect_ip (x : Repetition) (r : Registers) (m : Memory) : (x.effect r m).1.ip = r.ip := by
  have he := elementEffect_positioned r m (x.record.segmentOr .ds) x.width x.operation r.ip
    (r.word .cx)
  rw [Registers.positioned_self] at he
  exact congrArg (fun e => e.1.ip) he

theorem effect_count (x : Repetition) (r : Registers) (m : Memory) :
    (x.effect r m).1.word .cx = r.word .cx := by
  have he := elementEffect_positioned r m (x.record.segmentOr .ds) x.width x.operation r.ip
    (r.word .cx)
  rw [Registers.positioned_self] at he
  exact (congrArg (fun e => e.1.word .cx) he).trans (Registers.count_positioned _ _ _)

/-- One element under repetition: the count is lowered, and the instruction pointer goes back to the
start unless the repetition ends. -/
theorem runPrefixed_of_ne_zero (h : Roomy s)
    (hp : s.cpu.prefixes.latestFirst = x.prefixes.reverse) (hc : count s ≠ 0) :
    let e := x.effect s.cpu.registers s.bus.memory
    runPrefixed (some x.rep) x.opcode s =
      .ok () { withEffect s e with
        cpu.registers := e.1.positioned
          (if count s - 1 != 0 && !x.stops e.1.flags then s.cpu.instructionStart
            else s.cpu.registers.ip) (count s - 1)
        cpu.prefixes := ⟨s.cpu.prefixes.latestFirst, .idle⟩ } := by
  intro e
  have hc' : (s.cpu.registers.word .cx != 0) = true := bne_iff_ne.2 hc
  let mode := PrefixByte.repeatMode x.rep x.operation.comparing
  let rewind := s.cpu.registers.ip - s.cpu.instructionStart
  let u : System (Board δ) := { s with cpu.prefixes := s.cpu.prefixes.enterRepeat mode rewind }
  have hu : runOpcode x.opcode u = _ := run_opcode (s := u) h hp
  have hq : (withEffect u e).cpu.prefixes =
      ⟨s.cpu.prefixes.latestFirst, .repeating mode rewind⟩ := rfl
  have hf := finishElement_of_repeating hq
  have hip : s.cpu.registers.ip - rewind = s.cpu.instructionStart := by grind
  unfold runPrefixed
  rw [x.decodes]
  dsimp only
  rw [run_registers, hc', if_pos rfl, run_modifyCpu]
  refine hu.trans ?_
  -- the element itself leaves the count and the instruction pointer alone
  have hr : (withEffect u e).cpu.registers = e.1 := rfl
  have he : e.1.word .cx = count s := effect_count x _ _
  rw [hf, continues_eq, hr, effect_ip, hip, he]
  rfl

/-- Not repeated, the opcode performs an element and nothing else. -/
theorem run_opcode_of_record (h : Roomy s) (hp : s.cpu.prefixes = x.record) :
    runOpcode x.opcode s = .ok () (withEffect s (x.effect s.cpu.registers s.bus.memory)) := by
  have hl : s.cpu.prefixes.latestFirst = x.prefixes.reverse := by
    rw [hp]
    rfl
  rw [run_opcode h hl]
  have hf := finishElement_of_idle
    (c := (withEffect s (x.effect s.cpu.registers s.bus.memory)).cpu) hp
  rw [hf]

/-- Elements follow one another without fail, by induction on their number. -/
theorem performed_kept (x : Repetition) (h : Roomy s) (k : Nat) : x.Kept s (x.performed s k) := by
  induction k with
  | zero => exact ⟨rfl, rfl, fun _ => rfl, rfl, rfl, rfl⟩
  | succ k ih =>
    have hk := run_opcode_of_record (ih.roomy h) ih.prefixes
    rw [performed, hk]
    exact ih.withEffect

theorem performed_succ (x : Repetition) (h : Roomy s) (k : Nat) :
    x.performed s (k + 1) = withEffect (x.performed s k)
      (x.effect (x.performed s k).cpu.registers (x.performed s k).bus.memory) := by
  have hk := x.performed_kept h k
  rw [performed, run_opcode_of_record (hk.roomy h) hk.prefixes]
  rfl

theorem run_performed (x : Repetition) (h : Roomy s) (k : Nat) :
    runOpcode x.opcode (x.performed s k) = .ok () (x.performed s (k + 1)) := by
  have hk := x.performed_kept h k
  rw [performed_succ x h, run_opcode_of_record (hk.roomy h) hk.prefixes]

/-- The index registers move with the elements, if the operation uses them. -/
theorem performed_index (x : Repetition) (h : Roomy s) {j : Reg} (hj : j = .si ∨ j = .di)
    (k : Nat) :
    (x.performed s k).cpu.registers.word j =
      if x.operation.uses j then s.cpu.registers.past j x.width k
      else s.cpu.registers.word j := by
  induction k with
  | zero =>
    rw [Registers.past_zero, ite_self]
    rfl
  | succ k ih =>
    have he := elementEffect_index (x.performed s k).cpu.registers (x.performed s k).bus.memory
      (x.record.segmentOr .ds) x.width x.operation hj x.internal
    rw [performed_succ x h]
    refine he.trans ?_
    cases hu : x.operation.uses j with
    | false =>
      rw [hu] at ih
      exact ih
    | true =>
      rw [hu] at ih
      exact Registers.past_succ x.width ih (x.performed_kept h k).direction

end Element

section Elements

variable {δ : Type} [Peripheral δ] (x : Repetition) (s : System (Board δ))

theorem sub_ofNat_eq_zero_iff {c : UInt16} {n : Nat} (h : n ≤ c.toNat) :
    c - UInt16.ofNat n = 0 ↔ n = c.toNat := by
  have hlt : n < UInt16.size := Nat.lt_of_le_of_lt h c.toNat_lt_size
  rw [UInt16.sub_eq_iff_eq_add, UInt16.zero_add, ← UInt16.toNat_inj,
    UInt16.toNat_ofNat_of_lt' hlt]
  exact eq_comm

/-- The last element is the one the count allows or the first that ends the repetition. -/
theorem elements_cases :
    (x.elements s = (count s).toNat ∧
      ∀ k < (count s).toNat, x.stops (x.performed s (k + 1)).cpu.registers.flags = false) ∨
    ∃ j < (count s).toNat, x.elements s = j + 1 ∧
      x.stops (x.performed s (j + 1)).cpu.registers.flags = true ∧
      ∀ k < j, x.stops (x.performed s (k + 1)).cpu.registers.flags = false := by
  unfold elements
  cases hf : (List.range (count s).toNat).find? fun k =>
      x.stops (x.performed s (k + 1)).cpu.registers.flags with
  | none =>
    refine .inl ⟨rfl, fun k hk => ?_⟩
    have hgoes := List.find?_range_eq_none.1 hf k hk
    rwa [Bool.not_eq_true'] at hgoes
  | some j =>
    obtain ⟨hstops, hj, hgoes⟩ := List.find?_range_eq_some.1 hf
    refine .inr ⟨j, List.mem_range.1 hj, rfl, hstops, fun k hk => ?_⟩
    have hgoes := hgoes k hk
    rwa [Bool.not_eq_true'] at hgoes

theorem elements_le : x.elements s ≤ (count s).toNat := by
  rcases x.elements_cases s with ⟨hn, -⟩ | ⟨j, hj, hn, -⟩ <;> omega

theorem count_eq_zero (h : x.elements s = 0) : count s = 0 := by
  rcases x.elements_cases s with ⟨hn, -⟩ | ⟨j, hj, hn, -⟩
  · exact UInt16.toNat_inj.1 (hn.symm.trans h)
  · omega

/-- All but comparisons are performed as often as the count says. -/
theorem elements_of_not_comparing (h : x.operation.comparing = false) :
    x.elements s = (count s).toNat := by
  rcases x.elements_cases s with ⟨hn, -⟩ | ⟨j, hj, hn, hstops, -⟩
  · exact hn
  · rw [stops, h] at hstops
    cases hstops

/-- The repetition goes on up to the last element. -/
theorem goes_on {k : Nat} (h : k < x.elements s) :
    (count s - UInt16.ofNat (k + 1) != 0 &&
      !x.stops (x.performed s (k + 1)).cpu.registers.flags) = decide (k + 1 < x.elements s) := by
  have hle := x.elements_le s
  have hz := sub_ofNat_eq_zero_iff (c := count s) (n := k + 1) (by omega)
  rw [Bool.eq_iff_iff, Bool.and_eq_true, bne_iff_ne, ne_eq, hz, Bool.not_eq_true',
    decide_eq_true_iff]
  rcases x.elements_cases s with ⟨hn, hgoes⟩ | ⟨j, hj, hn, hstops, hgoes⟩
  · rw [hgoes k (by omega), and_iff_left rfl]
    omega
  · rcases Nat.lt_or_eq_of_le (show k ≤ j by omega) with hlt | rfl
    · rw [hgoes k hlt, and_iff_left rfl]
      omega
    · simp only [hstops, Bool.true_eq_false, and_false, false_iff]
      omega

end Elements

end Repetition

end Pc8086.Cpu

import Pc8086.Proofs.Cpu.Prefixed
import Pc8086.Proofs.Cpu.Unread

namespace Pc8086.Cpu

open Exec

/-- The prefixes `xs` and `ys` come to the same before the opcode `b`. -/
structure Interchangeable (b : UInt8) (xs ys : List UInt8) : Prop where
  length : ys.length = xs.length
  left : ∀ p ∈ xs, IsPrefix p
  right : ∀ p ∈ ys, IsPrefix p
  segment : ys.reverse.findSome? Segment.ofOverride? = xs.reverse.findSome? Segment.ofOverride?
  operandSize : PrefixByte.operandSize ∈ ys ↔ PrefixByte.operandSize ∈ xs
  repetition : ∀ op size, Opcode.ofByte b = .string op size →
    ys.reverse.find? PrefixByte.isRepeat = xs.reverse.find? PrefixByte.isRepeat

/-- A lock in the place of a repeat prefix. -/
def unrepeated (b : UInt8) : UInt8 :=
  if PrefixByte.isRepeat b then PrefixByte.lock else b

theorem unrepeated_cases (b : UInt8) :
    b ∈ [0xF2, 0xF3] ∧ unrepeated b = 0xF0 ∨ unrepeated b = b := by
  unfold unrepeated
  cases h : PrefixByte.isRepeat b with
  | true => exact .inl ⟨(isRepeat_iff b).1 h, rfl⟩
  | false => exact .inr rfl

/-- Before other instructions than string instructions a repeat prefix acts like a lock. -/
theorem interchangeable_unrepeated {b : UInt8} (hb : ∀ op size, Opcode.ofByte b ≠ .string op size)
    {xs : List UInt8} (h : ∀ p ∈ xs, IsPrefix p) : Interchangeable b xs (xs.map unrepeated) where
  length := List.length_map _
  left := h
  right := by
    intro p hp
    obtain ⟨q, hq, rfl⟩ := List.mem_map.1 hp
    rcases unrepeated_cases q with ⟨-, hlock⟩ | hsame
    · rw [hlock]
      exact .inl rfl
    · rw [hsame]
      exact h q hq
  segment := by
    have hkept : Segment.ofOverride? ∘ unrepeated = Segment.ofOverride? := by
      funext p
      rcases unrepeated_cases p with ⟨hp, hlock⟩ | hsame
      · simp only [List.mem_cons, List.not_mem_nil, or_false] at hp
        rw [Function.comp_apply, hlock]
        rcases hp with rfl | rfl <;> rfl
      · exact congrArg Segment.ofOverride? hsame
    rw [← List.map_reverse, List.findSome?_map, hkept]
  operandSize := by
    rw [List.mem_map]
    constructor
    · rintro ⟨p, hp, h⟩
      rcases unrepeated_cases p with ⟨-, hlock⟩ | hsame
      · rw [hlock] at h
        cases h
      · rwa [← h, hsame]
    · exact fun hp => ⟨_, hp, rfl⟩
  repetition op size hs := absurd hs (hb op size)

namespace Prefixes

theorem leaveRepeat_latestFirst (p : Prefixes) :
    p.leaveRepeat.2.latestFirst = p.latestFirst := by
  rcases p with ⟨bytes, _ | b | _⟩ <;> rfl

theorem leaveRepeat_again (p : Prefixes) : p.leaveRepeat.2.leaveRepeat.1 = none := by
  rcases p with ⟨bytes, _ | b | _⟩ <;> rfl

theorem leaveRepeat_of_not_repeating {p : Prefixes} (h : p.isRepeating = false) :
    p.leaveRepeat.1 = none := by
  rcases p with ⟨bytes, _ | b | _⟩
  · rfl
  · rfl
  · cases h

end Prefixes

section Swap

variable {β α α' : Type}

/-- The same systems but for the prefixes, which are `xs` and `ys`, with the same repetition under
way. -/
structure Swapped (xs ys : List UInt8) (s t : System β) : Prop where
  rest : t = { s with cpu.prefixes := t.cpu.prefixes }
  left : s.cpu.prefixes.latestFirst = xs.reverse
  right : t.cpu.prefixes.latestFirst = ys.reverse
  repetition : t.cpu.prefixes.leaveRepeat.1 = s.cpu.prefixes.leaveRepeat.1

/-- The same result or the same fault, up to the prefixes in a report of illegal bytes. -/
inductive Match (xs ys : List UInt8) (R : System β → System β → Prop) :
    EStateM.Result Fault (System β) α → EStateM.Result Fault (System β) α → Prop where
  | ok (a : α) {s t : System β} (h : R s t) : Match xs ys R (.ok a s) (.ok a t)
  | error (f : Fault) {s t : System β} (h : R s t) : Match xs ys R (.error f s) (.error f t)
  | illegal (bytes : List UInt8) (start : SegmentedAddress) (n : Nat) {s t : System β}
    (h : R s t) :
    Match xs ys R (.error (.illegalInstruction (xs ++ bytes) start n) s)
      (.error (.illegalInstruction (ys ++ bytes) start n) t)

theorem Match.mono {xs ys : List UInt8} {R R' : System β → System β → Prop}
    {p q : EStateM.Result Fault (System β) α} (h : Match xs ys R p q)
    (hR : ∀ s t, R s t → R' s t) : Match xs ys R' p q := by
  cases h with
  | ok a h => exact .ok a (hR _ _ h)
  | error f h => exact .error f (hR _ _ h)
  | illegal bytes start n h => exact .illegal bytes start n (hR _ _ h)

theorem Swapped.bus {xs ys : List UInt8} {s t : System β} (h : Swapped xs ys s t) :
    t.bus = s.bus := by
  rw [h.rest]

def Swaps (xs ys : List UInt8) (x y : Exec β α) : Prop :=
  ∀ s t, Swapped xs ys s t → Match xs ys (Swapped xs ys) (x s) (y t)

variable {b : UInt8} {xs ys : List UInt8}

theorem swaps_pure (a : α) : Swaps xs ys (pure a : Exec β α) (pure a) :=
  fun _ _ h => .ok a h

theorem Swaps.bind {x y : Exec β α} {f g : α → Exec β α'} (hx : Swaps xs ys x y)
    (hf : ∀ a, Swaps xs ys (f a) (g a)) : Swaps xs ys (x >>= f) (y >>= g) := by
  intro s t h
  have hs := hx s t h
  rw [bind_eq_resume, bind_eq_resume]
  generalize x s = p at hs
  generalize y t = q at hs
  cases hs with
  | ok a h => exact hf a _ _ h
  | error f h => exact .error f h
  | illegal bytes start n h => exact .illegal bytes start n h

theorem swaps_view {f : Cpu → α} (hf : ∀ c p, f { c with prefixes := p } = f c) :
    Swaps xs ys (fun s => .ok (f s.cpu) s : Exec β α) (fun s => .ok (f s.cpu) s) := by
  intro s t h
  have hsame : f t.cpu = f s.cpu := by
    rw [h.rest]
    exact hf s.cpu t.cpu.prefixes
  change Match _ _ _ (.ok (f s.cpu) s) (.ok (f t.cpu) t)
  rw [hsame]
  exact .ok _ h

theorem swaps_throw {f : Cpu → Fault} (hf : ∀ c p, f { c with prefixes := p } = f c) :
    Swaps xs ys (do throw (f (← Exec.cpu)) : Exec β α) (do throw (f (← Exec.cpu))) :=
  (swaps_view hf).bind fun e => fun _ _ h => .error e h

theorem swaps_change {f : Cpu → Cpu}
    (hf : ∀ c p, f { c with prefixes := p } = { f c with prefixes := p }) :
    Swaps xs ys (modifyCpu f : Exec β Unit) (modifyCpu f) := by
  intro s t h
  have hkept : ∀ c, (f c).prefixes = c.prefixes := by
    intro c
    have hc := congrArg Cpu.prefixes (hf c c.prefixes)
    exact hc
  have ht : f t.cpu = { f s.cpu with prefixes := t.cpu.prefixes } := by
    rw [← hf, h.rest]
  refine .ok () ⟨?_, ?_, ?_, ?_⟩
  · change System.mk (f t.cpu) t.bus = ⟨{ f s.cpu with prefixes := (f t.cpu).prefixes }, s.bus⟩
    rw [hkept, ← ht, h.rest]
  · exact (congrArg Prefixes.latestFirst (hkept s.cpu)).trans h.left
  · exact (congrArg Prefixes.latestFirst (hkept t.cpu)).trans h.right
  · change (f t.cpu).prefixes.leaveRepeat.1 = (f s.cpu).prefixes.leaveRepeat.1
    rw [hkept, hkept]
    exact h.repetition

theorem swaps_onBus (x : EStateM Fault β α) :
    Swaps xs ys (onBus x) (onBus x) := by
  intro s t h
  have hafter : ∀ b : β, Swapped xs ys { s with bus := b } { t with bus := b } := by
    intro b
    refine ⟨?_, h.left, h.right, h.repetition⟩
    have hrest := congrArg (fun u : System β => System.mk u.cpu b) h.rest
    exact hrest
  unfold onBus
  dsimp only
  rw [h.bus]
  cases x s.bus with
  | ok a b => exact .ok a (hafter b)
  | error f b => exact .error f (hafter b)

theorem Interchangeable.segmentOr (h : Interchangeable b xs ys) {s t : System β}
    (hst : Swapped xs ys s t) (i : Segment) :
    t.cpu.prefixes.segmentOr i = s.cpu.prefixes.segmentOr i := by
  unfold Prefixes.segmentOr Prefixes.segmentOverride
  rw [hst.left, hst.right, h.segment]

theorem Interchangeable.operandWidth (h : Interchangeable b xs ys) {s t : System β}
    (hst : Swapped xs ys s t) : t.cpu.prefixes.operandWidth = s.cpu.prefixes.operandWidth := by
  unfold Prefixes.operandWidth
  rw [hst.left, hst.right]
  simp only [List.contains_eq_mem, List.mem_reverse, h.operandSize]

theorem Interchangeable.swaps_operandSegment (h : Interchangeable b xs ys) (i : Segment) :
    Swaps xs ys (operandSegment i : Exec β Segment) (operandSegment i) := by
  intro s t hst
  change Match _ _ _ (.ok (s.cpu.prefixes.segmentOr i) s) (.ok (t.cpu.prefixes.segmentOr i) t)
  rw [h.segmentOr hst]
  exact .ok _ hst

theorem finishElement_eq (c : Cpu) :
    finishElement c = match c.prefixes.leaveRepeat.1 with
      | none => c
      | some (mode, rewind) =>
        let count := c.registers.word .cx - 1
        let r := c.registers.setWord .cx count
        { c with
          registers :=
            if mode.continues count r.flags.zero then { r with ip := r.ip - rewind } else r
          prefixes := c.prefixes.leaveRepeat.2 } := by
  unfold finishElement
  rcases c.prefixes.leaveRepeat with ⟨_ | ⟨mode, rewind⟩, p⟩ <;> rfl

theorem swaps_finishElement :
    Swaps xs ys (modifyCpu finishElement : Exec β Unit) (modifyCpu finishElement) := by
  intro s t h
  have hc : t.cpu.registers = s.cpu.registers := by rw [h.rest]
  change Match _ _ _ (.ok () ⟨finishElement s.cpu, s.bus⟩) (.ok () ⟨finishElement t.cpu, t.bus⟩)
  refine .ok () ?_
  rw [finishElement_eq, finishElement_eq, h.repetition]
  rcases s.cpu.prefixes.leaveRepeat.1 with _ | ⟨mode, rewind⟩
  · exact h
  · dsimp only
    rw [hc]
    refine ⟨?_, ?_, ?_, ?_⟩
    · have hrest := congrArg (fun u : System β => System.mk { u.cpu with
        registers :=
          let count := s.cpu.registers.word .cx - 1
          let r := s.cpu.registers.setWord .cx count
          if mode.continues count r.flags.zero then { r with ip := r.ip - rewind } else r
        prefixes := t.cpu.prefixes.leaveRepeat.2 } u.bus) h.rest
      exact hrest
    · exact s.cpu.prefixes.leaveRepeat_latestFirst.trans h.left
    · exact t.cpu.prefixes.leaveRepeat_latestFirst.trans h.right
    · exact t.cpu.prefixes.leaveRepeat_again.trans s.cpu.prefixes.leaveRepeat_again.symm

/-- The distance that a repetition goes back does not depend on the prefixes. -/
theorem swaps_enterRepeat (mode : RepeatMode) :
    Swaps xs ys
      (modifyCpu fun c =>
        let rewind := c.registers.ip - c.instructionStart
        { c with prefixes := c.prefixes.enterRepeat mode rewind } : Exec β Unit)
      (modifyCpu fun c =>
        let rewind := c.registers.ip - c.instructionStart
        { c with prefixes := c.prefixes.enterRepeat mode rewind }) := by
  intro s t h
  have hrest := h.rest
  have hrewind : t.cpu.registers.ip - t.cpu.instructionStart =
      s.cpu.registers.ip - s.cpu.instructionStart := by
    rw [hrest]
  refine .ok () ⟨?_, h.left, h.right, congrArg (fun d => some (mode, d)) hrewind⟩
  have hafter := congrArg (fun u : System β => System.mk
    { u.cpu with
      prefixes := t.cpu.prefixes.enterRepeat mode (t.cpu.registers.ip - t.cpu.instructionStart) }
    u.bus) hrest
  exact hafter

end Swap

section Instructions

variable {β : Type} [Bus β] {b : UInt8} {xs ys : List UInt8} {i : Instruction}

theorem swaps_working (xs ys : List UInt8) :
    Working fun _ (x y : Exec β _) => Swaps xs ys x y where
  pure := swaps_pure
  bind := .bind
  registers := swaps_view fun _ _ => rfl
  readByte _ _ := swaps_onBus _
  writeByte _ _ _ := swaps_onBus _
  input _ _ := swaps_onBus _
  output _ _ _ := swaps_onBus _
  modify _ := swaps_change fun _ _ => rfl

theorem Interchangeable.decoding (h : Interchangeable b xs ys) :
    Decoding fun _ (x y : Exec β _) => Swaps xs ys x y where
  toClosed := (swaps_working xs ys).toClosed
  operandSegment := h.swaps_operandSegment
  currentWidth s t hst := by
    change Match _ _ _ (.ok s.cpu.prefixes.operandWidth s) (.ok t.cpu.prefixes.operandWidth t)
    rw [h.operandWidth hst]
    exact .ok _ hst
  fetchByte := by
    have haddress : Swaps xs ys
        (fun s => .ok s.cpu.codeAddress.linear s : Exec β UInt32)
        (fun s => .ok s.cpu.codeAddress.linear s) :=
      swaps_view (f := fun c => c.codeAddress.linear) fun _ _ => rfl
    have hfetch := haddress.bind fun a => (swaps_onBus (Bus.readByte a)).bind fun v =>
      ((swaps_working xs ys).jumpBy 1).bind fun _ => swaps_pure v
    exact hfetch

theorem Interchangeable.performing (h : Interchangeable b xs ys) :
    Performing (fun _ (x y : Exec β _) => Swaps xs ys x y) i where
  toWorking := swaps_working xs ys
  undefined bytes _ := by
    intro s t hst
    have hs : s.cpu.prefixes.bytes = xs := by
      rw [Prefixes.bytes, hst.left, List.reverse_reverse]
    have ht : t.cpu.prefixes.bytes = ys := by
      rw [Prefixes.bytes, hst.right, List.reverse_reverse]
    have hr := hst.rest
    change Match _ _ _
      (.error (.illegalInstruction (s.cpu.prefixes.bytes ++ bytes) s.cpu.instructionAddress
        s.cpu.instructionCount) s)
      (.error (.illegalInstruction (t.cpu.prefixes.bytes ++ bytes) t.cpu.instructionAddress
        t.cpu.instructionCount) t)
    have ha : t.cpu.instructionAddress = s.cpu.instructionAddress := by
      rw [hr]
      rfl
    have hn : t.cpu.instructionCount = s.cpu.instructionCount := by
      rw [hr]
    rw [hs, ht, ha, hn]
    exact .illegal bytes _ _ hst
  divide _ := swaps_throw fun _ _ => rfl
  string _ _ _ := ⟨h.swaps_operandSegment .ds, swaps_finishElement⟩
  enable _ := swaps_change fun c _ => by
    dsimp only
    split <;> rfl
  halt _ := swaps_change fun _ _ => rfl

theorem Interchangeable.runPrefixed (h : Interchangeable b xs ys) :
    Swaps xs ys (runPrefixed (xs.reverse.find? PrefixByte.isRepeat) b : Exec β Unit)
      (runPrefixed (ys.reverse.find? PrefixByte.isRepeat) b) := by
  have hopcode : Swaps xs ys (decodeOpcode b : Exec β Instruction) (decodeOpcode b) :=
    h.decoding.decodeOpcode (swaps_working xs ys).toReading b
  rw [runPrefixed_eq, runPrefixed_eq]
  refine Swaps.bind ?_ fun i => h.performing.execute
  by_cases hs : ∃ op size, Opcode.ofByte b = .string op size
  · obtain ⟨op, size, hs⟩ := hs
    rw [h.repetition op size hs]
    cases xs.reverse.find? PrefixByte.isRepeat with
    | none => exact hopcode
    | some rep =>
      unfold decodePrefixed
      rw [hs]
      refine (swaps_working xs ys).bind (swaps_working xs ys).registers fun r => ?_
      split
      · exact (swaps_enterRepeat _).bind fun _ => hopcode
      · exact swaps_pure _
  · rw [decodePrefixed_of_not_string fun op size h => hs ⟨op, size, h⟩,
      decodePrefixed_of_not_string fun op size h => hs ⟨op, size, h⟩]
    exact hopcode

end Instructions

end Pc8086.Cpu

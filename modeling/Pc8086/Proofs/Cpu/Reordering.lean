import Pc8086.Proofs.Cpu.PrefixOrder

namespace Pc8086.Cpu

open Exec

section Settled

variable {β : Type} {xs ys : List UInt8} {s t : System β}

def SameUpToPrefixes (s t : System β) : Prop :=
  t = { s with cpu.prefixes := t.cpu.prefixes }

theorem SameUpToPrefixes.failed (h : SameUpToPrefixes s t) :
    SameUpToPrefixes { s with cpu.fatalError := true } { t with cpu.fatalError := true } := by
  have hf := congrArg (fun u : System β => { u with cpu.fatalError := true }) h
  exact hf

theorem Match.self (p : EStateM.Result Fault (System β) Unit) :
    Match xs ys SameUpToPrefixes p p := by
  cases p with
  | ok a s => exact .ok a rfl
  | error f s => exact .error f rfl

variable [Bus β]

def settled : EStateM.Result Fault (System β) Unit → EStateM.Result Fault (System β) Unit
  | .ok () s => .ok () (retire s)
  | .error f s => recover f (retire s)

theorem step_eq_settled (h : ¬Held s) : step s = settled (iteration s) := by
  rw [step_of_not_held h]
  cases iteration s <;> rfl

theorem Swapped.retired (h : Swapped xs ys s t) : SameUpToPrefixes (retire s) (retire t) := by
  have hr := congrArg retire h.rest
  exact hr

theorem SameUpToPrefixes.recovered (h : SameUpToPrefixes s t) (f : Fault) :
    Match xs ys SameUpToPrefixes (recover f s) (recover f t) := by
  cases hf : f.isFatal with
  | true =>
    rw [recover_of_fatal hf, recover_of_fatal hf]
    exact .error f h.failed
  | false =>
    -- a fault that is not fatal resets the prefixes, so that nothing is left of the difference
    have hreset : { t with cpu.prefixes := {} } = ({ s with cpu.prefixes := {} } : System β) := by
      rw [h]
    have hon : t.cpu.divideErrorInterrupt = s.cpu.divideErrorInterrupt := by
      rw [h]
    have hrecover : recover f t = recover f s := by
      rw [recover_of_not_fatal hf, recover_of_not_fatal hf, hon]
      exact congrArg _ hreset
    rw [hrecover]
    exact .self _

theorem match_settled {p q : EStateM.Result Fault (System β) Unit}
    (h : Match xs ys (Swapped xs ys) p q) :
    Match xs ys SameUpToPrefixes (settled p) (settled q) := by
  cases h with
  | ok a h => exact .ok () h.retired
  | error f h => exact h.retired.recovered f
  | illegal bytes start n h => exact .illegal bytes start n h.retired.failed

variable {b : UInt8}

def completion (rep : Option UInt8) (b : UInt8) (trap : Bool) : Exec β Unit := do
  runPrefixed rep b
  if trap then enterVector 1

theorem swaps_completion (h : Interchangeable b xs ys) (trap : Bool) :
    Swaps xs ys (completion (xs.reverse.find? PrefixByte.isRepeat) b trap : Exec β Unit)
      (completion (ys.reverse.find? PrefixByte.isRepeat) b trap) :=
  h.runPrefixed.bind fun _ => (swaps_working xs ys).enterVectorIf trap 1

theorem uniform_completion {γ : Type} [Bus γ] (rep : Option UInt8) (b : UInt8) (trap : Bool) :
    Uniform Change β γ (completion rep b trap) (completion rep b trap) := by
  unfold completion
  rw [runPrefixed_eq, runPrefixed_eq]
  refine .bind (.bind (uniform_fetching.decodePrefixed rep b) fun _ => ?_) fun _ =>
    uniform_enterVectorIf trap 1
  exact (uniform_performing fun _ _ _ => change_finishElement).execute

def behindPrefixes (xs : List UInt8) (s : System β) : System β :=
  { advanced (xs.length + 1) (begun (sampled s)) with cpu.prefixes := collected xs {} }

theorem Interchangeable.swapped (h : Interchangeable b xs ys) (s : System β) :
    Swapped xs ys (behindPrefixes xs s) (behindPrefixes ys s) where
  rest := by
    unfold behindPrefixes
    rw [h.length]
  left := (collected_latestFirst xs {}).trans (List.append_nil _)
  right := (collected_latestFirst ys {}).trans (List.append_nil _)
  repetition := by
    have hnone : ∀ zs, (collected zs {}).leaveRepeat.1 = none := fun zs =>
      Prefixes.leaveRepeat_of_not_repeating (collected_isRepeating zs rfl)
    exact (hnone ys).trans (hnone xs).symm

theorem iteration_supplied (ht : ¬Taken s) (hh : s.cpu.halted = false)
    (hi : s.cpu.prefixes.isRepeating = false) (h : Supplies (begun (sampled s)) (xs ++ [b]) t)
    (hp : ∀ p ∈ xs, IsPrefix p) (hb : ¬IsPrefix b) (hn : xs.length < segmentSize) :
    iteration s =
      completion (xs.reverse.find? PrefixByte.isRepeat) b s.cpu.registers.flags.trap
        { t with cpu.prefixes := collected xs {} } := by
  have hfresh : (begun (sampled s)).cpu.prefixes = {} := by
    change (if s.cpu.prefixes.isRepeating = true then s.cpu.prefixes else {}) = {}
    rw [hi]
    rfl
  have hrun := runInstruction_supplied h hp hb none hn
  rw [hfresh, Option.or_none] at hrun
  rw [iteration_eq, bind_ok _ (serviceInterrupt_of_not_taken ht),
    instructionPhase_of_running (s := sampled s) hh, bind_eq_resume, hrun, completion,
    bind_eq_resume]
  rfl

end Settled

section Boards

variable {δ : Type} {b : UInt8} {xs ys : List UInt8}

/-- The same systems but for the prefixes and for bytes of memory in `D`. -/
def SameBut (D : UInt32 → Prop) (s t : System (Board δ)) : Prop :=
  ∃ p m, t = { s with cpu.prefixes := p, bus.memory := m } ∧ s.bus.memory.AgreesOff D m

theorem Match.behind {D : UInt32 → Prop} {p q q' : EStateM.Result Fault (System (Board δ)) Unit}
    (hq : Agree (DiffersIn D) p q) (hq' : Match xs ys SameUpToPrefixes q q') :
    Match xs ys (SameBut D) p q' := by
  have hsame : ∀ {s t t' : System (Board δ)}, DiffersIn D s t → SameUpToPrefixes t t' →
      SameBut D s t' := by
    rintro s _ t' ⟨m, rfl, h⟩ h'
    exact ⟨t'.cpu.prefixes, m, h', h⟩
  cases hq with
  | ok a hq =>
    cases hq' with
    | ok _ hq' => exact .ok a (hsame hq hq')
  | error f hq =>
    cases hq' with
    | error _ hq' => exact .error f (hsame hq hq')
    | illegal bytes start n hq' => exact .illegal bytes start n (hsame hq hq')

variable [Peripheral δ]

theorem unread_recover (f : Fault) :
    Unread (recover f : Exec (Recorded (Board δ)) Unit) (recover f) := by
  rintro s _ D ⟨m, rfl, h⟩
  cases hf : f.isFatal with
  | true =>
    rw [recover_of_fatal hf, recover_of_fatal hf]
    exact heedless_of_agree rfl (.error f ⟨m, rfl, h⟩)
  | false =>
    rw [recover_of_not_fatal hf, recover_of_not_fatal hf]
    exact (uniform_enterVectorIf (C := Change) _ 0).unread _ _ D ⟨m, rfl, h⟩

/-- The end of a step takes no account of bytes that it does not read. -/
theorem Heedless.settled {D : UInt32 → Prop} {s : System (Recorded (Board δ))}
    {p : EStateM.Result Fault (System (Recorded (Board δ))) Unit}
    {q : EStateM.Result Fault (System (Board δ)) Unit} (h : Heedless D s p q) :
    Heedless D s (settled p) (settled q) := by
  refine h.continue fun E q hq => ?_
  have hretire : ∀ {u : System (Recorded (Board δ))} {v : System (Board δ)}, Beside E u v →
      Beside E (retire u) (retire v) := by
    rintro u _ ⟨m, rfl, h⟩
    exact ⟨m, rfl, h⟩
  have hpulse : ∀ a v, BusCall.write a v ∉ [BusCall.clockPulse] := by simp
  cases hq with
  | @ok a u v huv => exact (heedless_of_agree rfl (.ok () (hretire huv))).after hpulse rfl
  | @error f u v huv => exact (unread_recover f _ _ E (hretire huv)).after hpulse rfl

variable {s : System (Board δ)} {m : Memory} {D : UInt32 → Prop}

theorem iteration_behindPrefixes (ht : ¬Taken s) (hh : s.cpu.halted = false)
    (hi : s.cpu.prefixes.isRepeating = false)
    (hc : s.bus.memory.Spells s.cpu.registers.cs s.cpu.registers.ip (xs ++ [b]))
    (hp : ∀ p ∈ xs, IsPrefix p) (hb : ¬IsPrefix b) :
    iteration s =
      completion (xs.reverse.find? PrefixByte.isRepeat) b s.cpu.registers.flags.trap
        (behindPrefixes xs s) := by
  have hsupplied := supplies_board (s := begun (sampled s)) hc
  rw [iteration_supplied ht hh hi hsupplied hp hb (length_lt_of_holds hc.holds hp hb),
    List.length_append]
  rfl

theorem iteration_behindPrefixes_recorded (ht : ¬Taken s) (hh : s.cpu.halted = false)
    (hi : s.cpu.prefixes.isRepeating = false)
    (hc : s.bus.memory.Spells s.cpu.registers.cs s.cpu.registers.ip (xs ++ [b]))
    (hp : ∀ p ∈ xs, IsPrefix p) (hb : ¬IsPrefix b) :
    iteration (recorded s) =
      completion (xs.reverse.find? PrefixByte.isRepeat) b s.cpu.registers.flags.trap
        { behindPrefixes xs (recorded s) with
          bus.latestFirst := (fetches s.cpu.registers (xs.length + 1)).reverse } := by
  have hsupplied := supplies_recorded (s := begun (sampled (recorded s))) hc
  have hn := length_lt_of_holds hc.holds hp hb
  rw [iteration_supplied (s := recorded s) ht hh hi hsupplied hp hb hn, List.length_append]
  change completion _ b _
    { behindPrefixes xs (recorded s) with
      bus.latestFirst := (fetches s.cpu.registers (xs.length + 1)).reverse ++ [] } = _
  rw [List.append_nil]
  rfl

theorem match_running (h : Interchangeable b xs ys) (hb : ¬IsPrefix b)
    (hi : s.cpu.prefixes.isRepeating = false) (hs : ¬Held s) (ht : ¬Taken s)
    (hh : s.cpu.halted = false)
    (hx : s.bus.memory.Spells s.cpu.registers.cs s.cpu.registers.ip (xs ++ [b]))
    (hy : m.Spells s.cpu.registers.cs s.cpu.registers.ip (ys ++ [b]))
    (hm : s.bus.memory.AgreesOff D m) (hread : ¬Exposes D ((calls s).drop xs.length)) :
    Match xs ys (SameBut D) (step s) (step (withMemory s m)) := by
  -- the instruction as recorded, then on the other memory, and there with the other prefixes
  let r : System (Recorded (Board δ)) :=
    { behindPrefixes xs (recorded s) with
      bus.latestFirst := (fetches s.cpu.registers (xs.length + 1)).reverse }
  have hrecorded : step (recorded s) =
      settled (completion (xs.reverse.find? PrefixByte.isRepeat) b s.cpu.registers.flags.trap
        r) := by
    rw [step_eq_settled (s := recorded s) hs,
      iteration_behindPrefixes_recorded ht hh hi hx h.left hb]
  have hplain : step (withMemory s m) =
      settled (completion (ys.reverse.find? PrefixByte.isRepeat) b s.cpu.registers.flags.trap
        (behindPrefixes ys (withMemory s m))) := by
    rw [step_eq_settled (s := withMemory s m) hs,
      iteration_behindPrefixes (s := withMemory s m) ht hh hi hy h.right hb]
    rfl
  have hswap := match_settled
    (swaps_completion h s.cpu.registers.flags.trap _ _ (h.swapped (withMemory s m)))
  have hbeside : Beside D r (behindPrefixes xs (withMemory s m)) := ⟨m, rfl, hm⟩
  obtain ⟨more, hmore, hagree⟩ := ((uniform_completion _ b _).unread r _ D hbeside).settled
  have hcalls : (calls s).drop xs.length =
      fetches { s.cpu.registers with ip := s.cpu.registers.ip + UInt16.ofNat xs.length } 1 ++
        more := by
    rw [calls, hrecorded, hmore, List.reverse_append, List.reverse_reverse, fetches_add,
      List.reverse_reverse, List.append_assoc]
    refine List.drop_left' ?_
    rw [fetches, List.length_map, List.length_range]
  have hunread : ¬Exposes D more := by
    intro he
    refine hread (hcalls ▸ Exposes.behind ?_)
    rwa [unwritten_of_not_write (write_not_mem_fetches _ 1)]
  have htracks : Agree Tracks (step (recorded s)) (step s) := Tracks.step rfl
  rw [hrecorded] at htracks
  rw [hplain]
  exact .behind (htracks.tracked (hagree hunread) fun a ha => ha.1) hswap

theorem match_idle (hs : Held s ∨ ¬Taken s ∧ s.cpu.halted = true)
    (hm : s.bus.memory.AgreesOff D m) :
    Match xs ys (SameBut D) (step s) (step (withMemory s m)) := by
  by_cases hheld : Held s
  · rw [step_of_held hheld, step_of_held (s := withMemory s m) hheld]
    exact .ok () ⟨s.cpu.prefixes, m, rfl, hm⟩
  · obtain ⟨ht, hh⟩ := hs.resolve_left hheld
    rw [step_eq_settled hheld, step_eq_settled (s := withMemory s m) hheld,
      iteration_of_halted ht hh, iteration_of_halted (s := withMemory s m) ht hh]
    exact .ok () ⟨s.cpu.prefixes, m, rfl, hm⟩

/-- The order of prefixes does not matter. Take two states that are the same except that one has the
prefixes `xs` and the other as many prefixes `ys` at CS:IP, both before the instruction that begins
with `b`, and that are not amid a repetition. Let `xs` and `ys` have the same last override, both or
neither the operand size and, where the instruction is a string instruction, the same last repeat
prefix. If no interrupt is taken and behind the prefixes the step does not read a byte of them in
which the states differ, at least not before it has been written over, then the two steps come out
the same, up to the prefixes in a report of illegal bytes, in states that are the same up to these
bytes and the record of prefixes. Before any instruction but a string instruction, a repeat prefix
therefore acts like a lock. -/
theorem prefix_order_irrelevant (hb : ¬IsPrefix b) :
    (∀ (s : System (Board δ)) (m : Memory) (xs ys : List UInt8), Interchangeable b xs ys →
      s.cpu.prefixes.isRepeating = false → (¬Held s → ¬Taken s) →
      s.bus.memory.Spells s.cpu.registers.cs s.cpu.registers.ip (xs ++ [b]) →
      m.Spells s.cpu.registers.cs s.cpu.registers.ip (ys ++ [b]) →
      s.bus.memory.AgreesOff (codeBytes s.cpu.registers xs.length) m →
      ¬Exposes (fun a => m.peek a ≠ s.bus.memory.peek a) ((calls s).drop xs.length) →
      Match xs ys (SameBut (codeBytes s.cpu.registers xs.length)) (step s)
        (step (withMemory s m))) ∧
    ((∀ op size, Opcode.ofByte b ≠ .string op size) →
      ∀ xs : List UInt8, (∀ p ∈ xs, IsPrefix p) → Interchangeable b xs (xs.map unrepeated)) := by
  refine ⟨fun s m xs ys h hi hd hx hy hm hread => ?_, fun hn xs hp =>
    interchangeable_unrepeated hn hp⟩
  by_cases hs : Held s
  · exact match_idle (.inl hs) hm
  · cases hh : s.cpu.halted with
    | true => exact match_idle (.inr ⟨hd hs, hh⟩) hm
    | false =>
      refine (match_running h hb hi hs (hd hs) hh hx hy hm.differing hread).mono ?_
      rintro s t ⟨p, m, ht, hoff⟩
      exact ⟨p, m, ht, hoff.mono fun _ => hm.mem_of_differs⟩

end Boards

/-- The override counts before the repeat prefix as it counts behind it. -/
theorem loads_extra_in_either_order :
    let s : System (Board ExpansionCard) :=
      ⟨{ registers := { ds := 1 } }, loaded [0x26, 0xF3, 0xA0, 0x08, 0, 0, 0, 0, 0x2A]⟩
    let m := (s.bus.memory.poke 0 0xF3).poke 1 0x26
    (final (step s)).cpu.registers.al = 0x2A ∧
      Match [0x26, 0xF3] [0xF3, 0x26] (SameBut (codeBytes s.cpu.registers 2)) (step s)
        (step (withMemory s m)) := by
  intro s m
  have hcalls : (calls s).drop 2 = [.read 2, .read 3, .read 4, .read 8, .clockPulse] := by
    decide +kernel
  have hcode : s.bus.memory.AgreesOff (codeBytes s.cpu.registers 2) m :=
    ((Memory.AgreesOff.refl _ _).poke_right ⟨0, by decide +kernel⟩ 0xF3).poke_right
      ⟨1, by decide +kernel⟩ 0x26
  have hread : ¬Exposes (fun a => m.peek a ≠ s.bus.memory.peek a) ((calls s).drop 2) := by
    refine not_exposes_of_not_read fun a ha hmem => ha ?_
    rw [hcalls] at hmem
    simp only [List.mem_cons, BusCall.read.injEq, reduceCtorEq, List.not_mem_nil, or_false] at hmem
    rcases hmem with rfl | rfl | rfl | rfl <;> decide +kernel
  refine ⟨by decide +kernel, ?_⟩
  refine (prefix_order_irrelevant (b := 0xA0) (by decide)).1 s m _ _ ?_ rfl ?_ (by decide +kernel)
    (by decide +kernel) hcode hread
  · exact ⟨rfl, by decide +kernel, by decide +kernel, rfl, by decide, nofun⟩
  · exact fun _ ht => Bool.false_ne_true ht.2.1

/-- The instruction itself is not all that a step reads. Here it is a single step of a NOP, whose
prefixes lie where the vector for single steps is. -/
theorem single_step_reads_prefixes :
    let s : System (Board ExpansionCard) :=
      ⟨{ registers := { ip := 4, esp := 16, flags := { trap := true } } },
        loaded [0, 0, 0, 0, 0xF0, 0x26, 0x90]⟩
    let m := (s.bus.memory.poke 4 0x26).poke 5 0xF0
    Interchangeable 0x90 [0xF0, 0x26] [0x26, 0xF0] ∧ s.cpu.prefixes.isRepeating = false ∧
      ¬Held s ∧ ¬Taken s ∧
      s.bus.memory.Spells 0 4 [0xF0, 0x26, 0x90] ∧ m.Spells 0 4 [0x26, 0xF0, 0x90] ∧
      s.bus.memory.AgreesOff (codeBytes s.cpu.registers 2) m ∧
      (final (runInstruction none segmentSize (begun (sampled (recorded s))))).bus.latestFirst =
        [.read 6, .read 5, .read 4] ∧
      (final (step s)).cpu.registers.ip = 0x26F0 ∧
      (final (step (withMemory s m))).cpu.registers.ip = 0xF026 ∧
      ¬Match [0xF0, 0x26] [0x26, 0xF0] (SameBut (codeBytes s.cpu.registers 2)) (step s)
        (step (withMemory s m)) := by
  intro s m
  -- the vector lies where the prefixes are, so each order enters another handler
  have hip : (final (step s)).cpu.registers.ip = 0x26F0 := by decide +kernel
  have hip' : (final (step (withMemory s m))).cpu.registers.ip = 0xF026 := by decide +kernel
  refine ⟨⟨rfl, by decide +kernel, by decide +kernel, rfl, by decide, nofun⟩, rfl,
    Bool.false_ne_true, fun ht => Bool.false_ne_true ht.2.1, by decide +kernel, by decide +kernel,
    ?_, by decide +kernel, hip, hip', fun hmatch => ?_⟩
  · exact ((Memory.AgreesOff.refl _ _).poke_right ⟨0, by decide +kernel⟩ 0x26).poke_right
      ⟨1, by decide +kernel⟩ 0xF0
  · have hsame : (final (step (withMemory s m))).cpu.registers.ip =
        (final (step s)).cpu.registers.ip := by
      generalize step s = p at hmatch
      generalize step (withMemory s m) = q at hmatch
      cases hmatch with
      | ok a h =>
        obtain ⟨p, m, rfl, -⟩ := h
        rfl
      | error f h =>
        obtain ⟨p, m, rfl, -⟩ := h
        rfl
      | illegal bytes start n h =>
        obtain ⟨p, m, rfl, -⟩ := h
        rfl
    rw [hip, hip'] at hsame
    exact absurd hsame (by decide)

end Pc8086.Cpu

import Pc8086.Board.ScratchCard
import Pc8086.Proofs.Cpu.Delivery
import Pc8086.Proofs.Cpu.Prefixed
import Pc8086.Proofs.Cpu.Supply

namespace Pc8086.Cpu

open Exec

def Steady (f : Cpu → Cpu) : Prop :=
  ∀ c, (f c).prefixes = c.prefixes

instance : Admits Steady where
  registers _ _ := rfl
  enable _ c := by
    dsimp only
    split <;> rfl
  halt _ := rfl

variable {β α : Type}

/-- A repetition is under way, or has been left over. -/
def Repeating (s : System β) : Prop :=
  s.cpu.prefixes.isRepeating = true

instance (s : System β) : Decidable (Repeating s) :=
  inferInstanceAs (Decidable (_ = true))

section Keeping

variable [Bus β]

theorem keeps_prefixes {x : Exec β α} (hx : Uniform Steady β β x x) (s : System β) :
    (final (x s)).cpu.prefixes = s.cpu.prefixes := by
  have hI : Invariant Steady fun t : System β => t.cpu.prefixes = s.cpu.prefixes :=
    invariant_of_cpu (P := fun c => c.prefixes = s.cpu.prefixes) fun f c hf h => (hf c).trans h
  exact hx.preserves hI rfl

theorem keeps_repeating {x : Exec β α} (hx : Uniform Steady β β x x) (s : System β) :
    Repeating (final (x s)) ↔ Repeating s := by
  unfold Repeating
  rw [keeps_prefixes hx s]

/-- An element takes no account of the repetition. -/
theorem uniform_steady_element (w : Width) (op : StringOperation) :
    Uniform Steady β β (element w op) (element w op) :=
  uniform_element (fun _ _ => Admits.registers _) w op

end Keeping

section Decoding

variable {s : System β}

theorem push_isRepeating {p : Prefixes} (h : p.isRepeating = false) (b : UInt8) :
    (p.push b).isRepeating = false := by
  rw [Prefixes.push, h]
  rfl

inductive Decoded : EStateM.Result Fault (System β) Instruction → Prop where
  | string (op : StringOperation) (w : Width) (u : System β) : Decoded (.ok (.string op w) u)
  | fresh {p : EStateM.Result Fault (System β) Instruction} (h : ¬Repeating (final p)) : Decoded p

variable [Bus β]

theorem decodeOpcode_string {b : UInt8} {op : StringOperation} {size : OperandSize}
    (h : Opcode.ofByte b = .string op size) (s : System β) :
    decodeOpcode b s = .ok (.string op (size.width s.cpu.prefixes)) s := by
  unfold decodeOpcode
  rw [h]
  rfl

theorem decodePrefixed_decoded (h : ¬Repeating s) (rep : Option UInt8) (b : UInt8) :
    Decoded (decodePrefixed rep b s) := by
  have hplain : Decoded (decodeOpcode b s) :=
    .fresh (mt (keeps_repeating (uniform_decodeOpcode b) s).1 h)
  cases rep with
  | none => exact hplain
  | some rep =>
    unfold decodePrefixed
    generalize ho : Opcode.ofByte b = op
    cases op with
    | string op size =>
      dsimp only
      rw [run_registers]
      by_cases hc : (s.cpu.registers.word .cx != 0) = true
      · rw [if_pos hc, run_modifyCpu, decodeOpcode_string ho]
        exact .string ..
      · rw [if_neg hc]
        exact .fresh h
    | _ => exact hplain

theorem decodeInstruction_decoded (h : ¬Repeating s) (rep : Option UInt8) (n : Nat) :
    Decoded (decodeInstruction rep n s) := by
  induction n generalizing rep s with
  | zero => exact .fresh h
  | succ n ih =>
    have hf := keeps_repeating uniform_fetchByte s
    unfold decodeInstruction
    cases hx : fetchByte s with
    | error e t =>
      rw [hx] at hf
      rw [bind_error _ hx]
      exact .fresh (mt hf.1 h)
    | ok b t =>
      rw [hx] at hf
      rw [bind_ok _ hx]
      have ht : t.cpu.prefixes.isRepeating = false := Bool.eq_false_iff.2 (mt hf.1 h)
      have hpush : ¬Repeating { t with cpu.prefixes := t.cpu.prefixes.push b } :=
        Bool.eq_false_iff.1 (push_isRepeating ht b)
      by_cases hb : PrefixByte.isSimple b = true
      · rw [if_pos hb, run_modifyCpu]
        exact ih hpush rep
      · rw [if_neg hb]
        by_cases hr : PrefixByte.isRepeat b = true
        · rw [if_pos hr, run_modifyCpu]
          exact ih hpush (some b)
        · rw [if_neg hr]
          exact decodePrefixed_decoded (mt hf.1 h) rep b

end Decoding

section Instruction

variable {s t : System β} {f : Fault} {v : System β}

theorem finishElement_of_not_repeating {c : Cpu} (h : c.prefixes.isRepeating ≠ true) :
    c.finishElement = c := by
  unfold finishElement Prefixes.leaveRepeat
  unfold Prefixes.isRepeating at h
  rcases hp : c.prefixes.progress with _ | _ | _
  · rfl
  · rfl
  · rw [hp] at h
    exact absurd rfl h

theorem finishElement_isRepeating (c : Cpu) : c.finishElement.prefixes.isRepeating = false := by
  unfold finishElement Prefixes.leaveRepeat
  rcases hp : c.prefixes.progress with _ | _ | _ <;> simp [Prefixes.isRepeating, hp]

variable [Bus β]

def Abandons (s : System β) (f : Fault) (v : System β) : Prop :=
  ∃ op w u, decodeInstruction none segmentSize s = .ok (.string op w) u ∧ Repeating u ∧
    element w op u = .error f v

theorem Abandons.runInstruction (h : Abandons s f v) :
    runInstruction none segmentSize s = .error f v := by
  obtain ⟨op, w, u, hd, _, he⟩ := h
  rw [runInstruction_eq, bind_ok _ hd]
  exact bind_error _ he

theorem Abandons.repeating (h : Abandons s f v) : Repeating v := by
  obtain ⟨op, w, u, _, hu, he⟩ := h
  have hk := keeps_repeating (uniform_steady_element w op) u
  rw [he] at hk
  exact hk.2 hu

/-- An instruction leaves no repetition unless it abandons one. -/
theorem runInstruction_cases (h : ¬Repeating s) :
    ¬Repeating (final (runInstruction none segmentSize s)) ∨ ∃ f v, Abandons s f v := by
  have hdecoded := decodeInstruction_decoded h none segmentSize
  rw [runInstruction_eq]
  cases hd : decodeInstruction none segmentSize s with
  | error e u =>
    rw [hd] at hdecoded
    rw [bind_error _ hd]
    cases hdecoded with
    | fresh hu => exact .inl hu
  | ok i u =>
    rw [hd] at hdecoded
    rw [bind_ok _ hd]
    -- of all instructions the string ones alone look at the progress of the prefixes
    by_cases hi : ∃ op w, i = .string op w
    · obtain ⟨op, w, rfl⟩ := hi
      have hk := keeps_repeating (uniform_steady_element w op) u
      cases he : element w op u with
      | ok a v =>
        -- an element that succeeds is finished, which leaves the repetition
        have hx : execute (.string op w) u = .ok () { v with cpu := v.cpu.finishElement } :=
          bind_ok _ he
        rw [hx]
        exact .inl (Bool.eq_false_iff.1 (finishElement_isRepeating v.cpu))
      | error f v =>
        by_cases hu : Repeating u
        · exact .inr ⟨f, v, op, w, u, hd, hu, he⟩
        · have hx : execute (.string op w) u = .error f v := bind_error _ he
          rw [he] at hk
          rw [hx]
          exact .inl (mt hk.1 hu)
    · have hi : ∀ op w, i ≠ .string op w := fun op w hs => hi ⟨op, w, hs⟩
      have hk := keeps_repeating (uniform_execute_of_not_string hi) u
      cases hdecoded with
      | string op w => exact absurd rfl (hi op w)
      | fresh hu => exact .inl (mt hk.1 hu)

end Instruction

section Step

variable {s t : System β}

/-- A fresh instruction starts without prefixes, unless a repetition is left over. -/
theorem begun_prefixes (t : System β) : (begun t).cpu.prefixes = {} ↔ ¬Repeating t := by
  unfold Repeating
  refine ⟨fun h hr => ?_, fun h => if_neg h⟩
  have hkept : (begun t).cpu.prefixes = t.cpu.prefixes := if_pos hr
  rw [← hkept, h] at hr
  cases hr

theorem begun_fresh (h : ¬Repeating t) : ¬Repeating (begun t) := by
  unfold Repeating
  rw [(begun_prefixes t).2 h]
  exact Bool.false_ne_true

variable [Bus β]

/-- The step runs an instruction, whose first byte it fetches from `t` on. -/
def Fetches (s t : System β) : Prop :=
  ¬Held s ∧ serviceInterrupt s = .ok () t ∧ t.cpu.halted = false

/-- The step breaks a repetition off: an element ends in a fatal fault. -/
def BreaksOff (s : System β) : Prop :=
  ∃ t f v, Fetches s t ∧ Abandons (begun t) f v ∧ f.isFatal = true

theorem Fetches.iteration (h : Fetches s t) :
    Exec.iteration s =
      (runInstruction none segmentSize >>= fun _ =>
        if t.cpu.registers.flags.trap then enterVector 1 else pure ()) (begun t) := by
  rw [iteration_eq, bind_ok _ h.2.1, instructionPhase_of_running h.2.2]

/-- Of a step that abandons an element the recovery is left. -/
theorem Fetches.step_of_abandons {f : Fault} {v : System β} (h : Fetches s t)
    (ha : Abandons (begun t) f v) : step s = recover f (retire v) := by
  rw [step_of_not_held h.1, h.iteration, bind_error _ ha.runInstruction]

/-- Taking an interrupt ends a repetition, or the rest of one. -/
theorem serviceInterrupt_prefixes (s : System β) :
    (Taken s → (final (serviceInterrupt s)).cpu.prefixes = {}) ∧
      (¬Taken s → (final (serviceInterrupt s)).cpu.prefixes = s.cpu.prefixes) := by
  refine ⟨fun h => ?_, fun h => ?_⟩
  · rw [serviceInterrupt_of_taken h]
    exact keeps_prefixes (uniform_enterVector _) (delivered s)
  · rw [serviceInterrupt_of_not_taken h]
    rfl

theorem serviceInterrupt_fresh (h : ¬Repeating s) : ¬Repeating (final (serviceInterrupt s)) := by
  unfold Repeating
  by_cases ht : Taken s
  · rw [(serviceInterrupt_prefixes s).1 ht]
    exact Bool.false_ne_true
  · rw [(serviceInterrupt_prefixes s).2 ht]
    exact h

theorem iteration_cases (hs : ¬Held s) (h : ¬Repeating s) :
    ¬Repeating (final (Exec.iteration s)) ∨ ∃ t f v, Fetches s t ∧ Abandons (begun t) f v := by
  have hservice := serviceInterrupt_fresh h
  cases hx : serviceInterrupt s with
  | error e t =>
    rw [hx] at hservice
    rw [iteration_eq, bind_error _ hx]
    exact .inl hservice
  | ok a t =>
    rw [hx] at hservice
    cases hh : t.cpu.halted with
    | true =>
      rw [iteration_eq, bind_ok _ hx, instructionPhase_of_halted hh]
      exact .inl hservice
    | false =>
      have hf : Fetches s t := ⟨hs, hx, hh⟩
      rcases runInstruction_cases (begun_fresh hservice) with hr | ⟨f, v, ha⟩
      · rw [hf.iteration]
        refine .inl (final_bind (I := fun u => ¬Repeating u) hr fun _ u hu => ?_)
        exact mt (keeps_repeating (uniform_enterVectorIf _ 1) u).1 hu
      · exact .inr ⟨t, f, v, hf, ha⟩

/-- Only a fatal fault leaves the prefixes as they are. -/
theorem recover_repeating (f : Fault) (s : System β) :
    Repeating (final (recover f s)) ↔ f.isFatal = true ∧ Repeating s := by
  cases hf : f.isFatal with
  | true =>
    rw [recover_of_fatal hf]
    exact ⟨fun h => ⟨rfl, h⟩, fun h => h.2⟩
  | false =>
    have hk := keeps_repeating (uniform_enterVectorIf s.cpu.divideErrorInterrupt 0)
      { s with cpu.prefixes := s.cpu.prefixes.reset }
    rw [recover_of_not_fatal hf]
    refine ⟨fun h => ?_, fun h => nomatch h.1⟩
    cases hk.1 h

theorem BreaksOff.repeating (h : BreaksOff s) : Repeating (final (step s)) := by
  obtain ⟨t, f, v, hf, ha, hfatal⟩ := h
  rw [hf.step_of_abandons ha]
  exact (recover_repeating f (retire v)).2 ⟨hfatal, ha.repeating⟩

/-- A step leaves a repetition over only by breaking it off. -/
theorem step_repeating_iff (h : ¬Repeating s) : Repeating (final (step s)) ↔ BreaksOff s := by
  refine ⟨fun hr => ?_, BreaksOff.repeating⟩
  by_cases hs : Held s
  · rw [step_of_held hs] at hr
    exact absurd hr h
  · -- a fault that is not fatal resets the prefixes, so the abandoned element must be fatal
    rcases iteration_cases hs h with hi | ⟨t, f, v, hf, ha⟩
    · rw [step_of_not_held hs] at hr
      generalize Exec.iteration s = p at hi hr
      cases p with
      | ok a v => exact absurd hr hi
      | error f v => exact absurd ((recover_repeating f (retire v)).1 hr).2 hi
    · rw [hf.step_of_abandons ha] at hr
      exact ⟨t, f, v, hf, ha, ((recover_repeating f (retire v)).1 hr).1⟩

end Step

section Plain

variable [Bus β] {s u : System β} {b : UInt8} {op : StringOperation} {size : OperandSize}

/-- Without a repetition a string instruction performs an element and nothing else. -/
theorem run_plainString (h : ¬Repeating s) (hb : fetchByte s = .ok b u)
    (ho : Opcode.ofByte b = .string op size) (n : Nat) :
    runInstruction none (n + 1) s = element (size.width u.cpu.prefixes) op u := by
  have hu : ¬Repeating u := by
    have hk := keeps_repeating uniform_fetchByte s
    rw [hb] at hk
    exact mt hk.1 h
  have hprefix := not_isPrefix_of_string ho
  have hdecode : decodeInstruction none (n + 1) s =
      .ok (.string op (size.width u.cpu.prefixes)) u := by
    unfold decodeInstruction
    rw [bind_ok _ hb, if_neg fun hs => hprefix (.inl hs), if_neg fun hr => hprefix (.inr hr)]
    exact decodeOpcode_string ho u
  have hk := keeps_repeating (uniform_steady_element (size.width u.cpu.prefixes) op) u
  rw [runInstruction_eq, bind_ok _ hdecode]
  cases he : element (size.width u.cpu.prefixes) op u with
  | ok a v =>
    rw [he] at hk
    have hx : execute (.string op (size.width u.cpu.prefixes)) u =
        .ok () { v with cpu := v.cpu.finishElement } := bind_ok _ he
    have hv : v.cpu.finishElement = v.cpu := finishElement_of_not_repeating (mt hk.1 hu)
    rw [hx, hv]
  | error f v => exact bind_error _ he

/-- An element neither counts nor jumps. -/
theorem element_unstepped (w : Width) (op : StringOperation) (s : System β) :
    let r := (final (element w op s)).cpu.registers
    r.word .cx = s.cpu.registers.word .cx ∧ r.ip = s.cpu.registers.ip := by
  let P (c : Cpu) : Prop := c.registers.word .cx = s.cpu.registers.word .cx ∧
    c.registers.ip = s.cpu.registers.ip
  have hI : Invariant (fun g => ∀ c, P c → P (g c)) fun t : System β => P t.cpu :=
    invariant_of_cpu fun g c hg => hg c
  refine (uniform_element (fun g hg c hc => ?_) w op).preserves hI ⟨rfl, rfl⟩
  exact ⟨(hg c.registers).1.trans hc.1, (hg c.registers).2.trans hc.2⟩

theorem plainString_unstepped (h : ¬Repeating s) (hb : fetchByte s = .ok b u)
    (ho : Opcode.ofByte b = .string op size) (n : Nat) :
    let r := (final (runInstruction none (n + 1) s)).cpu.registers
    r.word .cx = s.cpu.registers.word .cx ∧ r.ip = s.cpu.registers.ip + 1 := by
  intro r
  have hr : r = (final (element (size.width u.cpu.prefixes) op u)).cpu.registers := by
    rw [← run_plainString h hb ho n]
  have hu : u.cpu.registers = { s.cpu.registers with ip := s.cpu.registers.ip + 1 } := by
    rw [fetchByte_cpu hb]
  obtain ⟨hcx, hip⟩ := element_unstepped (size.width u.cpu.prefixes) op u
  rw [hr, hcx, hip, hu]
  exact ⟨rfl, rfl⟩

end Plain

namespace Run

variable [Bus β] (r : Run β)

theorem repeating_next (n : Nat) :
    Repeating (r.boundary (n + 1)) ↔ Repeating (final (step (r.boundary n))) := by
  unfold Repeating
  rw [r.next]

theorem never_repeating_iff (n : Nat) :
    (∀ k ≤ n, ¬Repeating (r.boundary k)) ↔ ∀ k < n, ¬BreaksOff (r.boundary k) := by
  -- induction on the boundary: a step leaves a repetition over only by breaking it off
  refine ⟨fun h k hk hb => ?_, fun h k hk => ?_⟩
  · exact h (k + 1) hk ((r.repeating_next k).2 hb.repeating)
  · induction k with
    | zero =>
      obtain ⟨registers, divides, h0⟩ := r.reset
      unfold Repeating
      rw [h0]
      exact Bool.false_ne_true
    | succ k ih =>
      have hbefore := ih (Nat.le_of_lt hk)
      rw [r.repeating_next, step_repeating_iff hbefore]
      exact h k hk

/-- No prefix outlives its instruction, but for repetitions that were broken off. As long as no step
has broken one off, none is left over at any boundary. An instruction starts without prefixes unless
one is left over and no interrupt is taken in between; then it neither counts nor returns to its
beginning, if it is a plain string instruction. -/
theorem prefixes_forgotten_iff (n : Nat) :
    ((∀ k ≤ n, ¬Repeating (r.boundary k)) ↔ ∀ k < n, ¬BreaksOff (r.boundary k)) ∧
    ∀ t, Fetches (r.boundary n) t →
      ((begun t).cpu.prefixes = {} ↔ (Repeating (r.boundary n) → Taken (r.boundary n))) ∧
      ((begun t).cpu.prefixes = {} → ∀ b u op size, fetchByte (begun t) = .ok b u →
        Opcode.ofByte b = .string op size →
        let v := final (runInstruction none segmentSize (begun t))
        v.cpu.registers.word .cx = t.cpu.registers.word .cx ∧
          v.cpu.registers.ip = t.cpu.registers.ip + 1) := by
  refine ⟨r.never_repeating_iff n, fun t hf => ⟨?_, fun hp b u op size hb ho => ?_⟩⟩
  · obtain ⟨htaken, hkept⟩ := serviceInterrupt_prefixes (r.boundary n)
    rw [hf.2.1] at htaken hkept
    rw [begun_prefixes, Repeating, Repeating]
    -- an interrupt that is taken resets the prefixes even of a repetition left over
    by_cases ht : Taken (r.boundary n)
    · have ht' : t.cpu.prefixes = {} := htaken ht
      rw [ht']
      exact iff_of_true Bool.false_ne_true fun _ => ht
    · have ht' : t.cpu.prefixes = (r.boundary n).cpu.prefixes := hkept ht
      rw [ht']
      exact ⟨fun h hr => absurd hr h, fun h hr => ht (h hr)⟩
  · exact plainString_unstepped (begun_fresh ((begun_prefixes t).1 hp)) hb ho (segmentSize - 1)

end Run

/-- A board of 32 bytes that has no ports. Its program is a repeated byte input from port DX and a
plain store of a byte. -/
def portless : Board ExpansionCard where
  memory := ⟨⟨#[0xF3, 0x6C, 0xAA] ++ Array.replicate 29 0⟩⟩
  controller := .initial
  components := []
  owners := []
  ignoreUnknownPorts := false

/-- After the input has failed the store counts and goes back, with the repetition left over. -/
theorem store_continues_input :
    let r := Run.unattended { ecx := 5, edx := 0x300, edi := 16 } portless
    BreaksOff (r.boundary 0) ∧
      (∃ t, Fetches (r.boundary 1) t ∧ (begun t).cpu.prefixes = ⟨[0xF3], .repeating .always 2⟩) ∧
      (r.boundary 1).bus.memory.peek 2 = 0xAA ∧
      (r.boundary 1).cpu.registers.ip = 2 ∧ (r.boundary 2).cpu.registers.ip = 1 ∧
      (r.boundary 1).cpu.registers.word .cx = 5 ∧ (r.boundary 2).cpu.registers.word .cx = 4 := by
  intro r
  have hbroken : Repeating (r.boundary 1) := by decide +kernel
  have hfresh : ¬Repeating (r.boundary 0) := by decide +kernel
  have htaken : ¬Taken (r.boundary 1) := fun h => absurd h.2.2 (by decide +kernel)
  have hheld : Bus.holdRequested (r.boundary 1).bus = false := by decide +kernel
  have hfetches : Fetches (r.boundary 1) (sampled (r.boundary 1)) := by
    refine ⟨fun h => ?_, serviceInterrupt_of_not_taken htaken, by decide +kernel⟩
    exact Bool.false_ne_true (hheld.symm.trans h)
  refine ⟨(step_repeating_iff hfresh).1 hbroken, ⟨_, hfetches, by decide +kernel⟩, ?_⟩
  decide +kernel

end Pc8086.Cpu

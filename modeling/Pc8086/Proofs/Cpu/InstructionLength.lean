import Pc8086.Proofs.Cpu.CodeLength
import Pc8086.Proofs.Cpu.Keeping
import Pc8086.Proofs.Cpu.Repetition

namespace Pc8086.Cpu

open Exec

section Bytes

variable {c d : Nat → UInt8}

theorem leadingPrefixes_congr {n : Nat}
    (h : ∀ k ≤ (leadingPrefixes n d).length, c k = d k) :
    leadingPrefixes n c = leadingPrefixes n d := by
  induction n generalizing c d with
  | zero => rfl
  | succ n ih =>
    have h0 : c 0 = d 0 := h 0 (Nat.zero_le _)
    unfold leadingPrefixes at h ⊢
    rw [h0]
    split
    · next hp =>
      rw [if_pos hp] at h
      exact congrArg (d 0 :: ·) (ih fun k hk => h (k + 1) (Nat.succ_le_succ hk))
    · rfl

/-- Only the opcodes of unary operations ask for the addressing byte. -/
theorem immediateLength_of_not_hasAddressing {b : UInt8} (h : hasAddressing b = false)
    (wide test test' : Bool) : immediateLength wide b test = immediateLength wide b test' := by
  have hb : b ≠ 0xF6 ∧ b ≠ 0xF7 := by
    constructor
    · rintro rfl
      cases h
    · rintro rfl
      cases h
  unfold immediateLength
  rw [beq_false_of_ne hb.1, beq_false_of_ne hb.2]
  rfl

theorem operandLength_congr {addressing : Bool} {immediate : Bool → Nat} {x y : UInt8}
    (h : addressing = true → x = y)
    (hi : addressing = false → ∀ a b, immediate a = immediate b) :
    operandLength addressing immediate x = operandLength addressing immediate y := by
  cases addressing with
  | true => rw [h rfl]
  | false =>
    exact congrArg (0 + ·) (hi rfl _ _)

theorem bodyLength_pos (wide : Bool) (c : Nat → UInt8) : 0 < bodyLength wide c := by
  unfold bodyLength
  omega

theorem bodyLength_congr {wide : Bool} (h : ∀ k < bodyLength wide d, c k = d k) :
    bodyLength wide c = bodyLength wide d := by
  have h0 : c 0 = d 0 := h 0 (bodyLength_pos wide d)
  unfold bodyLength at h ⊢
  rw [h0]
  split
  · next he =>
    rw [if_pos he] at h
    have h1 : c 1 = d 1 := h 1 (by omega)
    rw [h1]
    congr 2
    refine operandLength_congr (fun ha => h 2 ?_) fun _ _ _ => rfl
    rw [ha, operandLength, if_pos rfl]
    omega
  · next he =>
    rw [if_neg he] at h
    congr 1
    refine operandLength_congr (fun ha => h 1 ?_) fun ha =>
      immediateLength_of_not_hasAddressing ha wide
    rw [ha, operandLength, if_pos rfl]
    omega

/-- The length is found out from the bytes of the instruction alone. -/
theorem instructionLength_congr (h : ∀ k < instructionLength d, c k = d k) :
    instructionLength c = instructionLength d := by
  unfold instructionLength at h ⊢
  dsimp only at h ⊢
  have hbody := bodyLength_pos ((leadingPrefixes segmentSize d).contains 0x66) fun k =>
    d ((leadingPrefixes segmentSize d).length + k)
  have hps : leadingPrefixes segmentSize c = leadingPrefixes segmentSize d :=
    leadingPrefixes_congr fun k hk => h k (by omega)
  rw [hps]
  congr 1
  exact bodyLength_congr fun k hk => h _ (by omega)

end Bytes

variable {δ : Type} [Peripheral δ] {s t : System (Board δ)} {i : Instruction}

/-- The step decodes the instruction, with no hold, interrupt or trap in its way. -/
structure Begins (s : System (Board δ)) (i : Instruction) (u : System (Board δ)) : Prop where
  free : ¬Held s
  undisturbed : ¬Taken s
  running : s.cpu.halted = false
  untrapped : s.cpu.registers.flags.trap = false
  decodes : decodeInstruction none segmentSize (begun (sampled s)) = .ok i u

/-- The step carries out the instruction without fault, interrupt or trap. -/
def Completes (s : System (Board δ)) (i : Instruction) (t : System (Board δ)) : Prop :=
  ∃ u v, Begins s i u ∧ execute i u = .ok () v ∧ t = retire v

theorem Completes.step (h : Completes s i t) : step s = .ok () t := by
  obtain ⟨u, v, hu, he, rfl⟩ := h
  have hrun : runInstruction none segmentSize (begun (sampled s)) = .ok () v := by
    rw [runInstruction_eq, bind_ok _ hu.decodes, he]
  have htrap : (sampled s).cpu.registers.flags.trap = false := hu.untrapped
  have hrunning : (sampled s).cpu.halted = false := hu.running
  have hit : Exec.iteration s = .ok () v := by
    rw [iteration_eq, bind_ok _ (serviceInterrupt_of_not_taken hu.undisturbed),
      instructionPhase_of_running hrunning, bind_ok _ hrun, htrap]
    rfl
  rw [step_of_not_held hu.free, hit]

/-- A step completes the instruction that it decodes, unless that fails. -/
theorem completes_of_decodes (hf : Bus.holdRequested s.bus = false)
    (hu : s.cpu.registers.flags.interrupt = false) (hr : s.cpu.halted = false)
    (ht : s.cpu.registers.flags.trap = false)
    (hd : result? (decodeInstruction none segmentSize (begun (sampled s))) = some i)
    (he : fault? (execute i (final (decodeInstruction none segmentSize (begun (sampled s))))) =
      none) : Completes s i (final (Cpu.step s)) := by
  have hbegins : Begins s i (final (decodeInstruction none segmentSize (begun (sampled s)))) :=
    { free := fun hheld => Bool.false_ne_true (hf.symm.trans hheld)
      undisturbed := fun htaken => Bool.false_ne_true (hu.symm.trans htaken.2.2)
      running := hr
      untrapped := ht
      decodes := eq_ok_of_result hd }
  have h : Completes s i _ := ⟨_, _, hbegins, eq_ok_of_fault he, rfl⟩
  rw [h.step]
  exact h

/-- The instruction is an element of a string instruction, and its repetition goes on. -/
def Continues (c : Nat → UInt8) (i : Instruction) (t : System (Board δ)) : Prop :=
  ∃ op w r, i = .string op w ∧
    (leadingPrefixes segmentSize c).reverse.find? PrefixByte.isRepeat = some r ∧
    t.cpu.registers.word .cx ≠ 0 ∧
    (op.comparing = true → (t.cpu.registers.flags.zero = true ↔ r = 0xF3))

theorem collected_isWide (ps : List UInt8) :
    (collected ps {}).isWide = ps.contains 0x66 := by
  rw [Prefixes.isWide, collected_latestFirst, List.append_nil, List.contains_reverse]
  rfl

/-- A step that begins without prefixes decodes the instruction and moves past it. -/
theorem Completes.decoded (h : Completes s i t) (hs : ¬Repeating s) :
    let ps := leadingPrefixes segmentSize (code s)
    let n := instructionLength (code s)
    ∃ q v, Notes (ps.reverse.find? PrefixByte.isRepeat) (UInt16.ofNat n) (collected ps {}) i q ∧
      execute i (movedPast n q (begun (sampled s))) = .ok () v ∧ t = retire v := by
  obtain ⟨u, v, hu, he, ht⟩ := h
  have hprefixes : (begun (sampled s)).cpu.prefixes = {} := (begun_prefixes (sampled s)).2 hs
  obtain ⟨q, rfl, hq⟩ := decodeInstruction_code hu.decodes
  rw [hprefixes, collected_isWide] at he
  rw [hprefixes, collected_isWide, Option.or_none] at hq
  refine ⟨q, v, ?_, he, ht⟩
  have hback (a n : UInt16) : a + n - a = n := by
    rw [UInt16.add_comm, UInt16.add_sub_cancel]
  have hn := hback s.cpu.registers.ip (UInt16.ofNat (instructionLength (code s)))
  rw [← hn]
  exact hq

section Strings

variable {op : StringOperation} {w : Width} {u v : System (Board δ)}

theorem execute_string (h : execute (.string op w) u = .ok () v) :
    ∃ e, element w op u = .ok () e ∧ v = { e with cpu := e.cpu.finishElement } := by
  change (element w op >>= fun _ => modifyCpu finishElement) u = _ at h
  cases he : element w op u with
  | error f e =>
    rw [bind_error _ he] at h
    cases h
  | ok a e =>
    rw [bind_ok _ he] at h
    cases h
    exact ⟨e, rfl, rfl⟩

theorem ip_of_string (h : execute (.string op w) u = .ok () v) (hu : ¬Repeating u) :
    v.cpu.registers.ip = u.cpu.registers.ip := by
  obtain ⟨e, he, rfl⟩ := execute_string h
  have hkept := keeps_repeating (uniform_steady_element w op) u
  have hip := (element_unstepped w op u).2
  rw [he] at hkept hip
  have hfinish : e.cpu.finishElement = e.cpu :=
    finishElement_of_not_repeating (mt hkept.1 hu)
  rw [hfinish]
  exact hip

theorem ip_of_repeated {l : List UInt8} {mode : RepeatMode} {rewind : UInt16}
    (h : execute (.string op w) u = .ok () v)
    (hu : u.cpu.prefixes = ⟨l, .repeating mode rewind⟩)
    (hv : mode.continues (v.cpu.registers.word .cx) v.cpu.registers.flags.zero = false) :
    v.cpu.registers.ip = u.cpu.registers.ip := by
  obtain ⟨e, he, rfl⟩ := execute_string h
  have hkept := keeps_prefixes (uniform_steady_element w op) u
  have hip := (element_unstepped w op u).2
  rw [he] at hkept hip
  have he : e.cpu.prefixes = ⟨l, .repeating mode rewind⟩ := hkept.trans hu
  rw [Repetition.finishElement_of_repeating he] at hv ⊢
  dsimp only at hv ⊢
  rw [Registers.count_positioned, Registers.flags_positioned] at hv
  rw [hv]
  exact hip

end Strings

theorem continues_repeatMode {r : UInt8} (hr : PrefixByte.isRepeat r = true) (comparing : Bool)
    (count : UInt16) (zero : Bool) :
    (PrefixByte.repeatMode r comparing).continues count zero = true ↔
      count ≠ 0 ∧ (comparing = true → (zero = true ↔ r = 0xF3)) := by
  have hr := (isRepeat_iff r).1 hr
  simp only [List.mem_cons, List.not_mem_nil, or_false] at hr
  unfold RepeatMode.continues PrefixByte.repeatMode
  rcases hr with rfl | rfl <;> cases comparing <;> cases zero <;>
    simp [PrefixByte.repeatNotEqual]

/-- A step without fault, interrupt or trap, that neither transfers control nor goes on with a
repetition, advances the instruction pointer by the prefixes, the opcode, the addressing byte with
its displacement and the number. No register, flag or data has a part in how many these are: the
bytes of the instruction alone tell. -/
theorem ip_advances_by_instructionLength (hs : s.cpu.prefixes.isRepeating = false)
    (h : Completes s i t) (hi : i.isTransfer = false) (hc : ¬Continues (code s) i t) :
    step s = .ok () t ∧
    t.cpu.registers.ip = s.cpu.registers.ip + UInt16.ofNat (instructionLength (code s)) ∧
    ∀ c, (∀ k < instructionLength (code s), c k = code s k) →
      instructionLength c = instructionLength (code s) := by
  refine ⟨h.step, ?_, fun c => instructionLength_congr⟩
  obtain ⟨q, v, hq, he, rfl⟩ := h.decoded (Bool.eq_false_iff.1 hs)
  change v.cpu.registers.ip =
    (movedPast (instructionLength (code s)) q (begun (sampled s))).cpu.registers.ip
  by_cases hstring : ∃ op w, i = .string op w
  · obtain ⟨op, w, rfl⟩ := hstring
    cases hq with
    | plain =>
      refine ip_of_string he (Bool.eq_false_iff.1 ?_)
      exact collected_isRepeating _ rfl
    | @element r _ _ hr =>
      refine ip_of_repeated he rfl (Bool.eq_false_iff.2 fun hcontinues => hc ?_)
      have hrepeat := List.find?_some hr
      exact ⟨op, w, r, rfl, hr, (continues_repeatMode hrepeat _ _ _).1 hcontinues⟩
  · have hkept := keepsIp_execute (β := Board δ) hi (fun op w he => hstring ⟨op, w, he⟩)
      (movedPast (instructionLength (code s)) q (begun (sampled s)))
    rw [he] at hkept
    exact hkept

def testing : System (Board ExpansionCard) where
  cpu := {}
  bus := loaded [0x66, 0xF7, 0x86, 12, 0, 1, 2, 3, 4]

/-- Prefix, opcode and addressing byte are followed by two bytes of displacement and a number of
four. -/
theorem ip_advances_past_test :
    let i := Instruction.test .dword (.memory ⟨.ss, 12⟩) (.immediate 0x04030201)
    Completes testing i (final (step testing)) ∧ (final (step testing)).cpu.registers.ip = 9 ∧
      ∀ c, (∀ k < 9, c k = code testing k) → instructionLength c = 9 := by
  intro i
  have h : Completes testing i (final (step testing)) :=
    completes_of_decodes (by decide +kernel) (by decide +kernel) (by decide +kernel)
      (by decide +kernel) rfl (by decide +kernel)
  have hlength : instructionLength (code testing) = 9 := by decide +kernel
  have hi : i.isTransfer = false := rfl
  have hc : ¬Continues (code testing) i (final (step testing)) := by
    rintro ⟨op, w, r, hstring, -⟩
    exact Instruction.noConfusion hstring
  obtain ⟨-, hip, hcongr⟩ := ip_advances_by_instructionLength (by decide +kernel) h hi hc
  rw [hlength] at hip hcongr
  exact ⟨h, hip, hcongr⟩

end Pc8086.Cpu

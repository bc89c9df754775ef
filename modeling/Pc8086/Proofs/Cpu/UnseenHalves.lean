import Pc8086.Proofs.Cpu.Leftover
import Pc8086.Proofs.Cpu.NarrowDecoding

namespace Pc8086.Cpu

open Exec

/-- A repetition under way has no operand-size prefix. -/
def Settled (c : Cpu) : Prop :=
  c.prefixes.isRepeating = true → Unsized c

theorem Unsized.settled {c : Cpu} (h : Unsized c) : Settled c := fun _ => h

section Step

variable {β α : Type} {I : Cpu → Prop} {Q : α → Prop} {s t : System β} {x y : Exec β α}

theorem IgnoresUpper.of_eq (hy : IgnoresUpper I Q y t) (h : x s = y t)
    (hq : ∀ q, x (systemWithUpper q s) = y (systemWithUpper q t)) : IgnoresUpper I Q x s where
  commutes q := by rw [hq, h, hy.commutes]
  leaves := h ▸ hy.leaves

theorem ignores_return (h : I s.cpu) :
    IgnoresUpper I (fun _ => True) (pure () : Exec β Unit) s where
  commutes _ := rfl
  leaves := .ok trivial h

theorem begun_unsized (h : Settled t.cpu) : Unsized (begun t).cpu := by
  unfold Unsized begun
  dsimp only
  split
  · next hr => exact h hr
  · exact List.not_mem_nil

variable [Bus β]

def CarriesOperandSize (s : System β) : Prop :=
  ∃ t, Fetches s t ∧ MeetsOperandSize segmentSize (begun t)

theorem ignores_serviceInterrupt (h : Settled s.cpu) :
    IgnoresUpper Settled (fun _ => True) serviceInterrupt s := by
  by_cases ht : Taken s
  · have hv := oblivious_enterVector (Bus.acknowledgeInterrupt s.bus).1 (delivered s)
      List.not_mem_nil
    refine (hv.mono fun _ => Unsized.settled).of_eq (serviceInterrupt_of_taken ht) fun q => ?_
    exact serviceInterrupt_of_taken (s := systemWithUpper q s) ht
  · refine (ignores_return (s := sampled s) h).of_eq (serviceInterrupt_of_not_taken ht) fun q => ?_
    exact serviceInterrupt_of_not_taken (s := systemWithUpper q s) ht

theorem ignores_instructionPhase (h : Settled s.cpu)
    (hm : s.cpu.halted = false → ¬MeetsOperandSize segmentSize (begun s)) :
    IgnoresUpper Settled (fun _ => True) instructionPhase s := by
  cases hh : s.cpu.halted with
  | true =>
    refine (ignores_return h).of_eq (instructionPhase_of_halted hh) fun q => ?_
    exact instructionPhase_of_halted (s := systemWithUpper q s) hh
  | false =>
    have hrun := (ignores_runInstruction none (begun_unsized h) (hm hh)).bind fun _ t _ _ ht =>
      oblivious_enterVectorIf s.cpu.registers.flags.trap 1 t ht
    refine (hrun.mono fun _ => Unsized.settled).of_eq (instructionPhase_of_running hh) fun q => ?_
    exact instructionPhase_of_running (s := systemWithUpper q s) hh

theorem ignores_iteration (hs : ¬Held s) (h : Settled s.cpu) (hc : ¬CarriesOperandSize s) :
    IgnoresUpper Settled (fun _ => True) Exec.iteration s := by
  rw [iteration_eq]
  refine (ignores_serviceInterrupt h).bind fun _ t ht _ h => ?_
  exact ignores_instructionPhase h fun hh hm => hc ⟨t, ⟨hs, ht, hh⟩, hm⟩

theorem ignores_recover (f : Fault) (h : Settled s.cpu) :
    IgnoresUpper Settled (fun _ => True) (recover f) s := by
  cases hf : f.isFatal with
  | true =>
    refine ⟨fun q => ?_, ?_⟩
    · rw [recover_of_fatal hf, recover_of_fatal hf]
      rfl
    · rw [recover_of_fatal hf]
      exact .error h
  | false =>
    have hv := oblivious_enterVectorIf s.cpu.divideErrorInterrupt 0
      { s with cpu.prefixes := s.cpu.prefixes.reset } List.not_mem_nil
    refine (hv.mono fun _ => Unsized.settled).of_eq (recover_of_not_fatal hf s) fun q => ?_
    exact recover_of_not_fatal hf (systemWithUpper q s)

/-- The end of an iteration, its recovery included. -/
theorem ignores_step (h : Settled s.cpu) (hc : ¬CarriesOperandSize s) :
    IgnoresUpper Settled (fun _ => True) step s := by
  by_cases hs : Held s
  · refine (ignores_return (s := ⟨s.cpu, Bus.clockPulse (Bus.acknowledgeHold s.bus)⟩) h).of_eq
      (step_of_held hs) fun q => ?_
    exact step_of_held (s := systemWithUpper q s) hs
  · obtain ⟨hcommutes, hleaves⟩ := ignores_iteration hs h hc
    have hq : ∀ q, step (systemWithUpper q s) = _ := fun q =>
      step_of_not_held (s := systemWithUpper q s) hs
    cases hr : Exec.iteration s with
    | ok a t =>
      rw [hr] at hleaves
      cases hleaves with
      | ok _ h =>
        refine (ignores_return (s := retire t) h).of_eq ?_ fun q => ?_
        · rw [step_of_not_held hs, hr]
          rfl
        · rw [hq, hcommutes, hr]
          rfl
    | error f t =>
      rw [hr] at hleaves
      cases hleaves with
      | error h =>
        refine (ignores_recover f (s := retire t) h).of_eq ?_ fun q => ?_
        · rw [step_of_not_held hs, hr]
        · rw [hq, hcommutes, hr]
          rfl

end Step

section Recording

variable {β α : Type} {s u : System (Recorded β)} {bytes : List UInt8}

theorem Tracks.of_ok {x : Exec (Recorded β) α} {y : Exec β α} {a : α}
    (h : Agree Tracks (x s) (y (erased s))) (hx : x s = .ok a u) :
    y (erased s) = .ok a (erased u) := by
  rw [hx] at h
  generalize y (erased s) = p at h
  cases h with
  | ok a h => exact congrArg _ h.symm

variable [Bus β]

theorem Supplies.erased (h : Supplies s bytes u) : Supplies (erased s) bytes (erased u) := by
  induction bytes generalizing s with
  | nil => exact congrArg _ h
  | cons b bytes ih =>
    obtain ⟨t, ht, h⟩ := h
    have hfetch := uniform_fetchByte.simulates tracks_simulation (s := s) (t := Cpu.erased s) rfl
    exact ⟨Cpu.erased t, Tracks.of_ok hfetch ht, ih h⟩

theorem CarriesOperandSize.erased (h : CarriesOperandSize s) : CarriesOperandSize (erased s) := by
  obtain ⟨t, ⟨hs, ht, hh⟩, ps, u, hps, hn, hu⟩ := h
  refine ⟨Cpu.erased t, ⟨hs, ?_, hh⟩, ps, Cpu.erased u, hps, hn, hu.erased⟩
  exact Tracks.of_ok (Tracks.serviceInterrupt rfl) ht

end Recording

section Unseen

variable {β : Type} {s t : System β}

def SameButUpper (s t : System β) : Prop :=
  t = systemWithUpper t.cpu.registers s

theorem sameButUpper_withUpper (q : Registers) (s : System β) :
    SameButUpper s (systemWithUpper q s) := by
  unfold SameButUpper systemWithUpper withUpper
  dsimp only
  rw [Registers.withUpper_withUpper]

theorem systemWithUpper_self (s : System β) : systemWithUpper s.cpu.registers s = s := by
  unfold systemWithUpper withUpper
  rw [Registers.withUpper_self]

variable {α : Type} (q : Registers) (p : EStateM.Result Fault (System β) α)

theorem final_withUpper : final (outcomeWithUpper q p) = systemWithUpper q (final p) := by
  cases p <;> rfl

theorem fault_withUpper : fault? (outcomeWithUpper q p) = fault? p := by
  cases p <;> rfl

variable [Bus β]

theorem upperHalf_step (h : Settled s.cpu) (hc : ¬CarriesOperandSize s) (i : Reg) :
    (final (step s)).cpu.registers.upperHalf i = s.cpu.registers.upperHalf i := by
  have hstep := (ignores_step h hc).commutes s.cpu.registers
  rw [systemWithUpper_self] at hstep
  rw [hstep, final_withUpper]
  exact Registers.upperHalf_withUpper _ _ i

theorem settled_step (h : Settled s.cpu) (hc : ¬CarriesOperandSize s) :
    Settled (final (step s)).cpu := by
  have hleaves := (ignores_step h hc).leaves
  generalize step s = p at hleaves ⊢
  cases hleaves with
  | ok _ h => exact h
  | error h => exact h

theorem calls_withUpper (h : Settled s.cpu) (hc : ¬CarriesOperandSize s) :
    calls (systemWithUpper q s) = calls s := by
  have hr : ¬CarriesOperandSize (recorded s) := fun hr => hc hr.erased
  have hstep := (ignores_step (s := recorded s) h hr).commutes q
  unfold calls
  rw [show recorded (systemWithUpper q s) = systemWithUpper q (recorded s) from rfl, hstep,
    final_withUpper]
  rfl

/-- What a step does is the same from systems that differ in the upper halves. -/
theorem SameButUpper.step (hst : SameButUpper s t) (h : Settled s.cpu)
    (hc : ¬CarriesOperandSize s) :
    fault? (Cpu.step t) = fault? (Cpu.step s) ∧ calls t = calls s ∧
      SameButUpper (final (Cpu.step s)) (final (Cpu.step t)) := by
  have hstep := (ignores_step h hc).commutes t.cpu.registers
  rw [hst, hstep, final_withUpper]
  exact ⟨fault_withUpper _ _, calls_withUpper _ h hc, sameButUpper_withUpper _ _⟩

/-- By induction on the number of steps; a repetition that goes on has no operand-size prefix. -/
theorem Run.upperHalf_boundary (r : Run β) (n : Nat)
    (h : ∀ k, k < n → ¬CarriesOperandSize (r.boundary k)) :
    Settled (r.boundary n).cpu ∧ ∀ i, (r.boundary n).cpu.registers.upperHalf i =
      (r.boundary 0).cpu.registers.upperHalf i := by
  induction n with
  | zero =>
    obtain ⟨registers, divides, h0⟩ := r.reset
    refine ⟨?_, fun _ => rfl⟩
    rw [h0]
    exact Unsized.settled List.not_mem_nil
  | succ n ih =>
    obtain ⟨hsettled, hupper⟩ := ih fun k hk => h k (Nat.lt_succ_of_lt hk)
    have hn := h n (Nat.lt_succ_self n)
    rw [r.next]
    exact ⟨settled_step hsettled hn, fun i => (upperHalf_step hsettled hn i).trans (hupper i)⟩

/-- Without operand-size prefixes the upper halves do not exist. A step leaves them alone, and what
it does is the same whatever they are; over a run that begins with none, there never are any. -/
theorem upper_halves_unseen :
    (∀ s : System β, s.cpu.prefixes.isRepeating = false → ¬CarriesOperandSize s →
      (∀ i, (final (step s)).cpu.registers.upperHalf i = s.cpu.registers.upperHalf i) ∧
      ∀ t, SameButUpper s t →
        fault? (step t) = fault? (step s) ∧ calls t = calls s ∧
          SameButUpper (final (step s)) (final (step t))) ∧
    ∀ r : Run β, (∀ i, (r.boundary 0).cpu.registers.upperHalf i = 0) →
      ∀ n, (∀ k, k < n → ¬CarriesOperandSize (r.boundary k)) →
        ∀ i, (r.boundary n).cpu.registers.upperHalf i = 0 := by
  refine ⟨fun s hr hc => ?_, fun r hz n h i => ?_⟩
  · have hs : Settled s.cpu := fun h => absurd h (by rw [hr]; exact Bool.false_ne_true)
    exact ⟨upperHalf_step hs hc, fun t hst => hst.step hs hc⟩
  · rw [(r.upperHalf_boundary n h).2, hz]

/-- The first byte that the step fetches is an opcode. -/
theorem not_carries_of_opcode {b : UInt8} (hb : ¬IsPrefix b)
    (h : ∀ t, Fetches s t → ∃ u, fetchByte (begun t) = .ok b u) : ¬CarriesOperandSize s := by
  rintro ⟨t, ht, hm⟩
  obtain ⟨u, hu⟩ := h t ht
  exact not_meets_of_opcode hu hb hm

end Unseen

/-- About to multiply AX by BX, with an upper half for each of them. -/
def multiplying (ax bx : UInt16) : System (Board ExpansionCard) :=
  ⟨{ registers := { eax := ax.toUInt32 <<< 16 ||| 300, ebx := bx.toUInt32 <<< 16 ||| 500 } },
    loaded [0xF7, 0xE3]⟩

theorem not_carries_multiplying (ax bx : UInt16) : ¬CarriesOperandSize (multiplying ax bx) := by
  refine not_carries_of_opcode (b := 0xF7) (by decide) fun t ht => ?_
  have hidle : ¬Taken (multiplying ax bx) := fun h => nomatch h.1
  have ht := ht.2.1
  rw [serviceInterrupt_of_not_taken hidle] at ht
  cases ht
  have hcode : (loaded [0xF7, 0xE3]).memory.Spells 0 0 [0xF7] := by decide
  obtain ⟨u, hu, -⟩ := supplies_board (s := begun (sampled (multiplying ax bx))) hcode
  exact ⟨u, hu⟩

theorem not_carries_idling (s : System Idling) : ¬CarriesOperandSize s :=
  not_carries_of_opcode (b := 0x90) (by decide) fun _ _ => ⟨_, rfl⟩

/-- A product of more than 16 bits goes to DX and AX, not to the upper half of EAX. -/
theorem multiplying_unseen :
    (final (step (multiplying 0x1234 0xABCD))).cpu.registers.upperHalf .ax = 0x1234 ∧
      calls (multiplying 0 0) = calls (multiplying 0x1234 0xABCD) ∧
      ∀ n i, ((Run.unattended {} Idling.idling).boundary n).cpu.registers.upperHalf i = 0 := by
  obtain ⟨hupper, hsame⟩ := upper_halves_unseen.1 (multiplying 0x1234 0xABCD) rfl
    (not_carries_multiplying _ _)
  have hother : SameButUpper (multiplying 0x1234 0xABCD) (multiplying 0 0) :=
    congrArg (System.mk · (loaded [0xF7, 0xE3])) (by decide)
  have hax : (multiplying 0x1234 0xABCD).cpu.registers.upperHalf .ax = 0x1234 := by decide
  refine ⟨(hupper .ax).trans hax, (hsame _ hother).2.1, fun n => ?_⟩
  refine upper_halves_unseen.2 (Run.unattended {} Idling.idling) (fun i => ?_) n fun k _ => ?_
  · have hzero : ({} : Registers).upperHalf i = 0 := by cases i <;> rfl
    exact hzero
  · exact not_carries_idling _

end Pc8086.Cpu

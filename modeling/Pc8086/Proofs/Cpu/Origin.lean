import Pc8086.Proofs.Cpu.Leftover

namespace Pc8086

inductive Fault.OfInstruction : Fault → Prop where
  | illegal (bytes : List UInt8) (start : SegmentedAddress) (executed : Nat) :
    OfInstruction (.illegalInstruction bytes start executed)
  | divide (start : SegmentedAddress) : OfInstruction (.divideError start)

/-- What an iteration can end in on a bus with the faults `E`. -/
inductive Fault.OfIteration (E : Fault → Prop) : Fault → Prop where
  | bus {f : Fault} (h : E f) : OfIteration E f
  | instruction {f : Fault} (h : f.OfInstruction) : OfIteration E f
  | endless (start : SegmentedAddress) : OfIteration E (.endlessPrefixes start)

theorem Fault.eq_divideError {f : Fault} (h : f.isFatal = false) : ∃ a, f = .divideError a := by
  cases f with
  | divideError a => exact ⟨a, rfl⟩
  | _ => cases h

namespace Cpu

open Exec

variable {β : Type} [Bus β] {s t v : System β} {f g : Fault}

/-- The part of the step that ends in the fault. -/
inductive Raised (s : System β) (f : Fault) (v : System β) : Prop where
  | entry (h : serviceInterrupt s = .error f v)
  | decoding {t : System β} (hf : Fetches s t)
    (h : decodeInstruction none segmentSize (begun t) = .error f v)
  | execution {t u : System β} {i : Instruction} (hf : Fetches s t)
    (hd : decodeInstruction none segmentSize (begun t) = .ok i u) (h : execute i u = .error f v)
  | trap {t u w : System β} {i : Instruction} (hf : Fetches s t)
    (hd : decodeInstruction none segmentSize (begun t) = .ok i u) (hx : execute i u = .ok () w)
    (h : enterVector 1 w = .error f v)

theorem raised_of_iteration (hs : ¬Held s) (h : Exec.iteration s = .error f v) : Raised s f v := by
  rw [iteration_eq] at h
  rcases error_of_bind h with h | ⟨_, t, ht, h⟩
  · exact .entry h
  · cases hh : t.cpu.halted with
    | true =>
      rw [instructionPhase_of_halted hh] at h
      cases h
    | false =>
      have hf : Fetches s t := ⟨hs, ht, hh⟩
      rw [instructionPhase_of_running hh, runInstruction_eq, bind_assoc] at h
      rcases error_of_bind h with h | ⟨i, u, hd, h⟩
      · exact .decoding hf h
      · rcases error_of_bind h with h | ⟨_, w, hx, h⟩
        · exact .execution hf hd h
        · cases htrap : t.cpu.registers.flags.trap with
          | true =>
            rw [htrap] at h
            exact .trap hf hd hx h
          | false =>
            rw [htrap] at h
            cases h

/-- A step fails with the fault of its iteration or, if that can be recovered from, with one of the
entry to its vector. -/
inductive Fails (s : System β) : Fault → System β → Prop where
  | fatal {f : Fault} {v : System β} (h : Exec.iteration s = .error f v) (hf : f.isFatal = true) :
    Fails s f { retire v with cpu.fatalError := true }
  | vector {f g : Fault} {v t : System β} (h : Exec.iteration s = .error f v)
    (hf : f.isFatal = false)
    (ht : enterVector 0 { retire v with cpu.prefixes := v.cpu.prefixes.reset } = .error g t) :
    Fails s g t

theorem fails_of_step (h : step s = .error g t) : ¬Held s ∧ Fails s g t := by
  have hs : ¬Held s := by
    intro hs
    rw [step_of_held hs] at h
    cases h
  refine ⟨hs, ?_⟩
  rw [step_of_not_held hs] at h
  cases hi : Exec.iteration s with
  | ok a v =>
    rw [hi] at h
    cases h
  | error f v =>
    rw [hi] at h
    cases hf : f.isFatal with
    | true =>
      cases (recover_of_fatal hf (retire v)).symm.trans h
      exact .fatal hi hf
    | false =>
      have h := (recover_of_not_fatal hf (retire v)).symm.trans h
      cases hon : (retire v).cpu.divideErrorInterrupt with
      | true =>
        rw [hon] at h
        exact .vector hi hf h
      | false =>
        rw [hon] at h
        cases h

end Cpu

end Pc8086

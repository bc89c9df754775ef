import Pc8086.Proofs.Cpu.InstructionParts
import Pc8086.Proofs.Cpu.Uniform

namespace Pc8086.Cpu.Exec

variable {C : (Cpu → Cpu) → Prop} {β γ : Type} [Bus β] [Bus γ]

theorem uniform_element
    (hC : ∀ f, Unstepped f → C fun c => { c with registers := f c.registers })
    (w : Width) (op : StringOperation) : Uniform C β γ (element w op) (element w op) :=
  uniform_accessing.element (uniform_operandSegment .ds) (fun f hf => .change (hC f hf)) w op

section Instructions

variable [Admits C]

theorem uniform_decodeOpcode (b : UInt8) : Uniform C β γ (decodeOpcode b) (decodeOpcode b) :=
  uniform_decoding.decodeOpcode uniform_working.toReading b

theorem uniform_changeFlag (change : FlagChange) :
    Uniform C β γ (changeFlag change) (changeFlag change) :=
  uniform_working.changeFlag fun _ => .change (Admits.enable fun c =>
    { c.registers with flags := { c.registers.flags with interrupt := true } })

/-- String instructions may end a repetition. -/
theorem uniform_performing {i : Instruction}
    (hs : ∀ op w, i = .string op w → C finishElement) :
    Performing (fun α => Uniform C β γ (α := α)) i where
  toWorking := uniform_working
  undefined _ _ := .bind uniform_cpu fun _ => .throw _
  divide _ := .bind uniform_cpu fun _ => .throw _
  string op w h := ⟨uniform_operandSegment .ds, .change (hs op w h)⟩
  enable _ := uniform_changeFlag _
  halt _ := .change Admits.halt

theorem uniform_execute_of_not_string {i : Instruction} (hi : ∀ op w, i ≠ .string op w) :
    Uniform C β γ (execute i) (execute i) :=
  (uniform_performing fun op w h => absurd h (hi op w)).execute

end Instructions

section Changes

theorem change_of_prefixes (p : Cpu → Prefixes) : Change fun c => { c with prefixes := p c } :=
  .ordinary Cpu.registers p

theorem change_finishElement : Change finishElement := by
  have h : finishElement = fun c =>
      { c with
        registers := (finishElement c).registers
        prefixes := (finishElement c).prefixes } := by
    funext c
    unfold finishElement
    split <;> rfl
  rw [h]
  exact .ordinary (fun c => (finishElement c).registers) (fun c => (finishElement c).prefixes)

theorem uniform_fetching : Fetching fun α => Uniform Change β γ (α := α) where
  toDecoding := uniform_decoding
  readByte a _ := .readByte a
  record _ := .change (change_of_prefixes _)
  endless := .bind uniform_cpu fun _ => .throw _

theorem uniform_runInstruction (rep : Option UInt8) (n : Nat) :
    Uniform Change β γ (runInstruction rep n) (runInstruction rep n) :=
  uniform_fetching.runInstruction (fun _ => uniform_performing fun _ _ _ => change_finishElement)
    rep n

end Changes

end Pc8086.Cpu.Exec

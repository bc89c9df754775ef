import Pc8086.Cpu.Step

namespace Pc8086.Cpu.Exec

variable {β : Type} [Bus β]

def decodeOpcode (b : UInt8) : Exec β Instruction := do
  match Opcode.ofByte b with
  | .escape =>
    let e ← fetchByte
    decode [b, e] (Opcode.ofEscaped e)
  | op => decode [b] op

def decodePrefixed (rep : Option UInt8) (b : UInt8) : Exec β Instruction := do
  match rep, Opcode.ofByte b with
  | some rep, .string op _ =>
    let r ← registers
    if r.word .cx != 0 then
      modifyCpu fun c =>
        let rewind := c.registers.ip - c.instructionStart
        let mode := PrefixByte.repeatMode rep op.comparing
        { c with prefixes := c.prefixes.enterRepeat mode rewind }
      decodeOpcode b
    else return .skip
  | _, _ => decodeOpcode b

/-- The instruction behind the prefixes that begin here. -/
def decodeInstruction (rep : Option UInt8) : Nat → Exec β Instruction
  | 0 => do throw (.endlessPrefixes (← cpu).instructionAddress)
  | n + 1 => do
    let b ← fetchByte
    if PrefixByte.isSimple b then
      modifyCpu fun c => { c with prefixes := c.prefixes.push b }
      decodeInstruction rep n
    else if PrefixByte.isRepeat b then
      modifyCpu fun c => { c with prefixes := c.prefixes.push b }
      decodeInstruction (some b) n
    else decodePrefixed rep b

theorem decodePrefixed_of_not_string {b : UInt8}
    (h : ∀ op size, Opcode.ofByte b ≠ .string op size) (rep : Option UInt8) :
    (decodePrefixed rep b : Exec β Instruction) = decodeOpcode b := by
  unfold decodePrefixed
  split
  · rename_i hs
    exact absurd hs (h _ _)
  · rfl

theorem runOpcode_eq (b : UInt8) :
    (runOpcode b : Exec β Unit) = decodeOpcode b >>= execute := by
  unfold runOpcode decodeOpcode finish
  generalize Opcode.ofByte b = op
  cases op with
  | escape => exact (bind_assoc _ _ _).symm
  | _ => rfl

theorem runPrefixed_eq (rep : Option UInt8) (b : UInt8) :
    (runPrefixed rep b : Exec β Unit) = decodePrefixed rep b >>= execute := by
  unfold runPrefixed decodePrefixed
  generalize Opcode.ofByte b = op
  cases rep with
  | none => exact runOpcode_eq b
  | some rep =>
    cases op with
    | string op size =>
      dsimp only
      rw [bind_assoc]
      congr 1
      funext r
      split
      · rw [bind_assoc, runOpcode_eq]
      · rfl
    | _ => exact runOpcode_eq b

theorem runInstruction_eq (rep : Option UInt8) (n : Nat) :
    (runInstruction rep n : Exec β Unit) = decodeInstruction rep n >>= execute := by
  induction n generalizing rep with
  | zero => rfl
  | succ n ih =>
    unfold runInstruction decodeInstruction
    rw [bind_assoc]
    congr 1
    funext b
    split
    · rw [bind_assoc, ih]
    · split
      · rw [bind_assoc, ih]
      · exact runPrefixed_eq rep b

end Pc8086.Cpu.Exec

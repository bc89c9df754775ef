import Pc8086.Proofs.Cpu.Reencoding
import Pc8086.Proofs.Cpu.Termination

namespace Pc8086.Cpu

open Exec

section Lengths

def hasAddressing (b : UInt8) : Bool :=
  b < 0x40 && b &&& 7 < 4 || 0x80 ≤ b && b < 0x90 || 0xD8 ≤ b && b < 0xE0 ||
    [0x69, 0x6B, 0xC0, 0xC1, 0xC4, 0xC5, 0xC6, 0xC7, 0xD0, 0xD1, 0xD2, 0xD3, 0xF6, 0xF7, 0xFE,
      0xFF].contains b

def wordLength (wide : Bool) : Nat :=
  if wide then 4 else 2

/-- The bytes of the number, distance or address in the instruction stream behind all else. Of the
unary operations only the first two, which are tests, have a number. -/
def immediateLength (wide : Bool) (b : UInt8) (test : Bool) : Nat :=
  if b < 0x40 && b &&& 7 == 4 || 0x70 ≤ b && b < 0x80 || 0xB0 ≤ b && b < 0xB8 ||
      0xE0 ≤ b && b < 0xE8 ||
      [0x6A, 0x6B, 0x80, 0x82, 0x83, 0xA8, 0xC0, 0xC1, 0xC6, 0xCD, 0xD4, 0xD5, 0xEB].contains b ||
      b == 0xF6 && test then 1
  else if b < 0x40 && b &&& 7 == 5 || 0xB8 ≤ b && b < 0xC0 ||
      [0x68, 0x69, 0x81, 0xA9, 0xC7].contains b || b == 0xF7 && test then wordLength wide
  else if 0xA0 ≤ b && b < 0xA4 || [0xC2, 0xCA, 0xE8, 0xE9].contains b then 2
  else if b == 0xC8 then 3
  else if b == 0x9A || b == 0xEA then 4
  else 0

def escapedHasAddressing (b : UInt8) : Bool :=
  b &&& 0xF0 == 0x90 || [0xAF, 0xB6, 0xB7, 0xBE, 0xBF].contains b

def escapedImmediateLength (b : UInt8) : Nat :=
  if b &&& 0xF0 == 0x80 then 2 else 0

/-- The bytes behind the opcode, of which `x` is the first: the addressing byte with its
displacement, and the number. -/
def operandLength (addressing : Bool) (immediate : Bool → Nat) (x : UInt8) : Nat :=
  (if addressing then 1 + (ModRM.ofByte x).trailing else 0) + immediate ((ModRM.ofByte x).reg < 2)

def bodyLength (wide : Bool) (code : Nat → UInt8) : Nat :=
  1 +
    if code 0 = 0x0F then
      1 + operandLength (escapedHasAddressing (code 1)) (fun _ => escapedImmediateLength (code 1))
        (code 2)
    else operandLength (hasAddressing (code 0)) (immediateLength wide (code 0)) (code 1)

def leadingPrefixes : Nat → (Nat → UInt8) → List UInt8
  | 0, _ => []
  | n + 1, code =>
    if IsPrefix (code 0) then code 0 :: leadingPrefixes n fun k => code (k + 1) else []

/-- The bytes of the instruction at the beginning of the code. -/
def instructionLength (code : Nat → UInt8) : Nat :=
  let ps := leadingPrefixes segmentSize code
  ps.length + bodyLength (ps.contains 0x66) fun k => code (ps.length + k)

end Lengths

section Opcodes

def Opcode.isAddressing : Opcode → Bool
  | .arithmetic _ .accumulatorImmediate _ => false
  | .arithmetic .. | .multiplyImmediate _ | .arithmeticImmediate .. | .test _ | .exchange _
  | .store _ | .load _ | .storeSegment | .loadAddress | .loadSegment | .popMemory | .shift ..
  | .loadFarPointer _ | .storeImmediate _ | .coprocessor | .unary _ | .step | .indirect | .setIf _
  | .multiplyRegister | .moveZeroExtended _ | .moveSignExtended _ => true
  | _ => false

def OperandSize.length (wide : Bool) : OperandSize → Nat
  | .byte => 1
  | .current => wordLength wide

def ImmediateForm.length (wide : Bool) (size : OperandSize) : ImmediateForm → Nat
  | .full => size.length wide
  | .signedByte | .byte => 1

def Opcode.immediate (wide test : Bool) : Opcode → Nat
  | .arithmetic _ .accumulatorImmediate size | .testImmediate size | .loadImmediate _ size
  | .storeImmediate size => size.length wide
  | .pushImmediate form | .multiplyImmediate form => form.length wide .current
  | .arithmeticImmediate form size => form.length wide size
  | .shift .immediate _ | .interrupt | .splitDigits | .joinDigits | .inputImmediate _
  | .outputImmediate _ | .jumpIf _ | .loop _ | .jumpIfCountZero | .jumpShort => 1
  | .loadDirect _ | .storeDirect _ | .returnNear true | .returnFar true | .callNear | .jumpNear
  | .jumpIfNear _ => 2
  | .enter => 3
  | .callFar | .jumpFar => 4
  | .unary size => if test then size.length wide else 0
  | _ => 0

def Opcode.rest (wide : Bool) (x : UInt8) (op : Opcode) : Nat :=
  operandLength op.isAddressing (fun test => op.immediate wide test) x

theorem ofByte_length (b : UInt8) : (Opcode.ofByte b).isAddressing = hasAddressing b ∧
    ∀ wide test, (Opcode.ofByte b).immediate wide test = immediateLength wide b test := by
  refine byte_of_below (n := 256) (P := fun b => (Opcode.ofByte b).isAddressing = hasAddressing b ∧
    ∀ wide test, (Opcode.ofByte b).immediate wide test = immediateLength wide b test) ?_ b.toNat_lt
  decide +kernel

theorem ofEscaped_length (b : UInt8) :
    (Opcode.ofEscaped b).isAddressing = escapedHasAddressing b ∧
      ∀ wide test, (Opcode.ofEscaped b).immediate wide test = escapedImmediateLength b := by
  refine byte_of_below (n := 256) (P := fun b =>
    (Opcode.ofEscaped b).isAddressing = escapedHasAddressing b ∧
      ∀ wide test, (Opcode.ofEscaped b).immediate wide test = escapedImmediateLength b)
    ?_ b.toNat_lt
  decide +kernel

end Opcodes

section Takes

variable {δ α α' : Type} [Peripheral δ] {s t : System (Board δ)} {n m : Nat} {P : α → Prop}
  {Q : α' → Prop}

/-- The bytes from the instruction pointer on. -/
def code (s : System (Board δ)) (k : Nat) : UInt8 :=
  s.bus.memory.peek (linear s.cpu.registers.cs (s.cpu.registers.ip + UInt16.ofNat k))

omit [Peripheral δ] in
theorem code_advanced (s : System (Board δ)) (n k : Nat) : code (advanced n s) k = code s (n + k) := by
  unfold code advanced
  rw [UInt16.ofNat_add, UInt16.add_assoc]

omit [Peripheral δ] in
theorem advanced_advanced (s : System (Board δ)) (m n : Nat) :
    advanced n (advanced m s) = advanced (m + n) s := by
  unfold advanced
  dsimp only
  rw [UInt16.ofNat_add, UInt16.add_assoc]

omit [Peripheral δ] in
theorem advanced_zero (s : System (Board δ)) : advanced 0 s = s := by
  unfold advanced
  change { s with cpu.registers.ip := s.cpu.registers.ip + 0 } = s
  rw [UInt16.add_zero]

/-- If the computation succeeds, it has moved past `n` bytes of code and done nothing else, and its
result is as told. -/
def Takes (x : Exec (Board δ) α) (s : System (Board δ)) (n : Nat) (P : α → Prop) : Prop :=
  ∀ a t, x s = .ok a t → t = advanced n s ∧ P a

omit [Peripheral δ] in
theorem takes_pure {a : α} (h : P a) : Takes (pure a) s 0 P := by
  intro b t hb
  cases hb
  exact ⟨(advanced_zero s).symm, h⟩

omit [Peripheral δ] in
theorem Takes.bind {x : Exec (Board δ) α} {f : α → Exec (Board δ) α'} (hx : Takes x s m P)
    (hf : ∀ a, P a → Takes (f a) (advanced m s) n Q) : Takes (x >>= f) s (m + n) Q := by
  intro b t hb
  cases h : x s with
  | error e u =>
    rw [bind_error f h] at hb
    cases hb
  | ok a u =>
    obtain ⟨rfl, ha⟩ := hx a u h
    rw [bind_ok f h] at hb
    rw [← advanced_advanced]
    exact hf a ha b t hb

omit [Peripheral δ] in
theorem takes_view (f : Cpu → α) (s : System (Board δ)) :
    Takes (fun s => .ok (f s.cpu) s) s 0 (· = f s.cpu) := by
  intro a t h
  cases h
  exact ⟨(advanced_zero s).symm, rfl⟩

omit [Peripheral δ] in
theorem Takes.weaken {x : Exec (Board δ) α} {R : α → Prop} (h : Takes x s n P)
    (hR : ∀ a, P a → R a) : Takes x s n R :=
  fun a t ha => (h a t ha).imp_right (hR a)

omit [Peripheral δ] in
theorem Takes.of_eq {x : Exec (Board δ) α} (h : Takes x s n P) (hn : n = m) : Takes x s m P :=
  hn ▸ h

theorem takes_fetchByte (s : System (Board δ)) : Takes fetchByte s 1 (· = code s 0) := by
  intro b t h
  have hb := byte_of_fetchByte h
  have ht := (fetchByte_board hb).symm.trans h
  cases ht
  refine ⟨rfl, ?_⟩
  unfold code
  change b = s.bus.memory.peek (linear _ (s.cpu.registers.ip + 0))
  rw [UInt16.add_zero, Memory.peek_of_byte? hb]

def Fetched (x : Exec (Board δ) α) (n : Nat) : Prop :=
  ∀ s, Takes x s n fun _ => True

omit [Peripheral δ] in
theorem Fetched.takes {x : Exec (Board δ) α} (h : Fetched x n) : Takes x s n fun _ => True :=
  h s

omit [Peripheral δ] in
theorem Fetched.bind {x : Exec (Board δ) α} {f : α → Exec (Board δ) α'} (hx : Fetched x m)
    (hf : ∀ a, Fetched (f a) n) : Fetched (x >>= f) (m + n) :=
  fun s => (hx s).bind fun a _ => hf a _

omit [Peripheral δ] in
theorem fetched_pure (a : α) : Fetched (pure a : Exec (Board δ) α) 0 :=
  fun _ => takes_pure trivial

theorem fetched_fetchByte : Fetched (fetchByte : Exec (Board δ) UInt8) 1 :=
  fun s => (takes_fetchByte s).weaken fun _ _ => trivial

theorem fetched_fetchWord : Fetched (fetchWord : Exec (Board δ) UInt16) 2 :=
  fetched_fetchByte.bind fun _ => fetched_fetchByte.bind fun _ => fetched_pure _

theorem fetched_fetchSignedByte : Fetched (fetchSignedByte : Exec (Board δ) UInt32) 1 :=
  fetched_fetchByte.bind fun _ => fetched_pure _

theorem fetched_fetch (w : Width) : Fetched (fetch w : Exec (Board δ) UInt32) w.bytes := by
  cases w with
  | byte => exact fetched_fetchByte.bind fun _ => fetched_pure _
  | word => exact fetched_fetchWord.bind fun _ => fetched_pure _
  | dword => exact fetched_fetchWord.bind fun _ => fetched_fetchWord.bind fun _ => fetched_pure _

theorem fetched_fetchShortDistance : Fetched (fetchShortDistance : Exec (Board δ) UInt16) 1 :=
  fetched_fetchSignedByte.bind fun _ => fetched_pure _

theorem fetched_fetchFarAddress : Fetched (fetchFarAddress : Exec (Board δ) SegmentedAddress) 4 :=
  fetched_fetchWord.bind fun _ => fetched_fetchWord.bind fun _ => fetched_pure _

omit [Peripheral δ] in
theorem fetched_view (f : Cpu → α) : Fetched (fun s => .ok (f s.cpu) s : Exec (Board δ) α) 0 :=
  fun s => (takes_view f s).weaken fun _ _ => trivial

theorem fetched_directLocation : Fetched (directLocation : Exec (Board δ) Location) 2 :=
  fetched_fetchWord.bind fun _ =>
    (fetched_view fun c : Cpu => c).bind fun _ => fetched_pure _

theorem fetched_readPlace (w : Width) (p : Place) :
    Fetched (readPlace w p : Exec (Board δ) UInt32) 0 := by
  intro s a t h
  rcases readPlace_outcome w p s with ⟨v, hv⟩ | ⟨f, hf⟩
  · rw [hv] at h
    cases h
    exact ⟨(advanced_zero s).symm, trivial⟩
  · have hfault : readPlace w p s = .error f s := hf s.bus.memory rfl
    rw [hfault] at h
    cases h

theorem fetched_decodeDisplaced (m : ModRM) (segment : Segment) (base : UInt16) :
    Fetched (decodeDisplaced m segment base : Exec (Board δ) Place)
      (match m.mode with | 1 => 1 | 2 => 2 | _ => 0) := by
  have hlocate (d : UInt16) : Fetched (do
      return Place.memory ⟨← operandSegment segment, base + d⟩ : Exec (Board δ) Place) 0 :=
    fetched_view fun c => Place.memory ⟨c.prefixes.segmentOr segment, base + d⟩
  by_cases h1 : m.mode = 1
  · have hd : Fetched ((·.toUInt16) <$> fetchSignedByte : Exec (Board δ) UInt16) 1 :=
      fetched_fetchSignedByte.bind fun _ => fetched_pure _
    unfold decodeDisplaced
    rw [h1]
    exact hd.bind hlocate
  by_cases h2 : m.mode = 2
  · unfold decodeDisplaced
    rw [h2]
    exact fetched_fetchWord.bind hlocate
  · have hplace : (decodeDisplaced m segment base : Exec (Board δ) Place) =
        (do return Place.memory ⟨← operandSegment segment, base + 0⟩) := by
      unfold decodeDisplaced
      split <;> first | contradiction | rfl
    have hlength : (match m.mode with | 1 => 1 | 2 => 2 | _ => 0 : Nat) = 0 := by
      split <;> first | contradiction | rfl
    rw [hplace]
    exact fun s => (hlocate 0 s).of_eq hlength.symm

theorem fetched_decodePlace (m : ModRM) :
    Fetched (decodePlace m : Exec (Board δ) Place) m.trailing := by
  by_cases h3 : (m.mode == 3) = true
  · have hn : m.trailing = 0 := by
      rw [ModRM.trailing, ModRM.isDirect, beq_iff_eq.1 h3]
      rfl
    unfold decodePlace
    rw [hn, if_pos h3]
    exact fetched_pure _
  · rw [decodePlace_eq h3, ModRM.trailing]
    unfold decodeBase
    by_cases hd : m.isDirect = true
    · have hmode : m.mode = 0 := beq_iff_eq.1 (Bool.and_eq_true_iff.1 hd).1
      rw [if_pos hd, if_pos hd]
      have hdisplaced := fetched_decodeDisplaced (δ := δ) m
      rw [hmode] at hdisplaced
      have hbase : Fetched (do return (.ds, ← fetchWord) : Exec (Board δ) (Segment × UInt16)) 2 :=
        fetched_fetchWord.bind fun _ => fetched_pure _
      exact hbase.bind fun b => hdisplaced b.1 b.2
    · rw [if_neg hd, if_neg hd]
      have hbase : Fetched (do
          return ((BaseIndex.ofCode m.rm).defaultSegment,
            (BaseIndex.ofCode m.rm).offset (← Exec.registers)) : Exec (Board δ) (Segment × UInt16)) 0 :=
        fetched_view fun c =>
          ((BaseIndex.ofCode m.rm).defaultSegment, (BaseIndex.ofCode m.rm).offset c.registers)
      have hplace := hbase.bind fun b => fetched_decodeDisplaced m b.1 b.2
      rwa [Nat.zero_add] at hplace

/-- The addressing byte tells how much follows. -/
theorem takes_decodeModRM (s : System (Board δ)) :
    Takes decodeModRM s (1 + (ModRM.ofByte (code s 0)).trailing)
      fun a => a.1 = ModRM.ofByte (code s 0) :=
  (takes_fetchByte s).bind fun _ hb => by
    subst hb
    exact ((fetched_decodePlace _ _).bind (n := 0) fun _ _ => takes_pure rfl)

def Prefixes.isWide (p : Prefixes) : Bool :=
  p.latestFirst.contains PrefixByte.operandSize

theorem bytes_width (size : OperandSize) (p : Prefixes) :
    (size.width p).bytes = size.length p.isWide := by
  cases size with
  | byte => rfl
  | current =>
    unfold OperandSize.width Prefixes.operandWidth OperandSize.length wordLength Prefixes.isWide
    dsimp only
    split <;> rfl

theorem fetched_number (size : OperandSize) (p : Prefixes) :
    Fetched (fetch (size.width p) : Exec (Board δ) UInt32) (size.length p.isWide) :=
  bytes_width size p ▸ fetched_fetch (size.width p)

theorem fetched_fetchImmediate (form : ImmediateForm) (size : OperandSize) (p : Prefixes) :
    Fetched (fetchImmediate form (size.width p) : Exec (Board δ) UInt32)
      (form.length p.isWide size) := by
  cases form with
  | full => exact fetched_number size p
  | signedByte => exact fetched_fetchSignedByte
  | byte => exact fetched_fetch .byte

/-- Only tests have a number. -/
theorem fetched_decodeUnary (size : OperandSize) (p : Prefixes) (reg : UInt8) (place : Place) :
    Fetched (decodeUnary (size.width p) reg place : Exec (Board δ) Instruction)
      (if reg < 2 then size.length p.isWide else 0) := by
  have hnumber : Fetched (do
      return .test (size.width p) place (.immediate (← fetch (size.width p))) :
        Exec (Board δ) Instruction) (size.length p.isWide) :=
    (fetched_number size p).bind fun _ => fetched_pure _
  by_cases h : reg < 2
  · rw [if_pos h]
    obtain rfl | rfl := byte_of_below (n := 2) (P := fun reg => reg = 0 ∨ reg = 1) (by decide)
      (UInt8.lt_iff_toNat_lt.1 h)
    · exact hnumber
    · exact hnumber
  · rw [if_neg h]
    unfold decodeUnary
    split
    · exact absurd (by decide) h
    · exact absurd (by decide) h
    all_goals exact fetched_pure _

/-- The first byte behind the opcode is the addressing byte. -/
theorem takes_operand {f : ModRM × Place → Exec (Board δ) α'}
    (hf : ∀ p, Fetched (f (ModRM.ofByte (code s 0), p)) n) :
    Takes (decodeModRM >>= f) s (1 + (ModRM.ofByte (code s 0)).trailing + n) fun _ => True :=
  (takes_decodeModRM s).bind fun ⟨_, p⟩ h => by
    subst h
    exact hf p _

theorem takes_decode (bytes : List UInt8) (op : Opcode) (s : System (Board δ)) :
    Takes (decode bytes op) s (op.rest s.cpu.prefixes.isWide (code s 0)) fun _ => True := by
  -- what is only looked up takes no bytes, so the rest of the body takes them all
  have hwidth {size : OperandSize} {f : Width → Exec (Board δ) Instruction} {n : Nat}
      (h : Takes (f (size.width s.cpu.prefixes)) s n fun _ => True) :
      Takes (widthOf size >>= f) s n fun _ => True := h
  have hcurrent {f : Width → Exec (Board δ) Instruction} {n : Nat}
      (h : Takes (f (OperandSize.current.width s.cpu.prefixes)) s n fun _ => True) :
      Takes (currentWidth >>= f) s n fun _ => True := h
  have hregisters {f : Registers → Exec (Board δ) Instruction} {n : Nat}
      (h : Takes (f s.cpu.registers) s n fun _ => True) :
      Takes (Exec.registers >>= f) s n fun _ => True := h
  have hcpu {f : Cpu → Exec (Board δ) Instruction} {n : Nat}
      (h : Takes (f s.cpu) s n fun _ => True) :
      Takes (Exec.cpu >>= f) s n fun _ => True := h
  cases op with
  | arithmetic op layout size =>
    cases layout with
    | memoryRegister => exact hwidth (takes_operand (n := 0) fun p => fetched_pure _)
    | registerMemory => exact hwidth (takes_operand (n := 0) fun p => fetched_pure _)
    | accumulatorImmediate =>
      have hnumber := (fetched_number (δ := δ) size s.cpu.prefixes).bind fun v =>
        fetched_pure (Instruction.arithmetic op (size.width s.cpu.prefixes) (.register .ax) (.immediate v))
      exact (hwidth hnumber.takes).of_eq (Nat.add_comm _ _)
  | loadAddress =>
    refine takes_operand (n := 0) fun p => ?_
    cases p with
    | memory l =>
      exact (fetched_view fun c => c.prefixes.operandWidth).bind fun _ => fetched_pure _
    | register r => exact fetched_pure _
  | loadFarPointer i =>
    refine takes_operand (n := 0) fun p => ?_
    cases p with
    | memory l => exact fetched_pure _
    | register r => exact fetched_pure _
  | shift count size =>
    cases count with
    | one => exact hwidth (takes_operand (n := 0) fun p => fetched_pure _)
    | cl =>
      exact hwidth (takes_operand (n := 0) fun p =>
        (fetched_view fun c => c.registers.lowByte .cx).bind fun _ => fetched_pure _)
    | immediate =>
      exact hwidth (takes_operand (n := 1) fun p =>
        fetched_fetchByte.bind fun _ => fetched_pure _)
  | returnNear releases =>
    cases releases with
    | false => exact takes_pure trivial
    | true => exact fetched_fetchWord.bind (fun _ => fetched_pure _) s
  | returnFar releases =>
    cases releases with
    | false => exact takes_pure trivial
    | true => exact fetched_fetchWord.bind (fun _ => fetched_pure _) s
  | step =>
    refine takes_operand (n := 0) fun p => ?_
    dsimp only
    split
    · exact fetched_pure _
    · exact fetched_pure _
    · exact (fetched_readPlace .byte p).bind fun _ => fetched_pure _
  -- the other arms fetch a sequence of operands, whose lengths add up to `Opcode.rest`
  | _ =>
    unfold decode
    apply Takes.of_eq
    all_goals with_reducible repeat' first
      | exact takes_pure trivial
      | exact fetched_pure _
      | exact fetched_fetchByte
      | exact fetched_fetchWord
      | exact fetched_number _ _
      | exact fetched_fetchImmediate _ _ _
      | exact fetched_fetchShortDistance
      | exact fetched_fetchFarAddress
      | exact fetched_directLocation
      | exact fetched_readPlace _ _
      | exact fetched_decodeUnary _ _ _ _
      | apply hwidth
      | apply hcurrent
      | apply hregisters
      | apply hcpu
      | apply takes_operand
      | apply Fetched.bind
      | apply Fetched.takes
      | intro _
    all_goals first
      | rfl
      | simp [Opcode.rest, operandLength, Opcode.isAddressing, Opcode.immediate]

def Opcode.isEscape : Opcode → Bool
  | .escape => true
  | _ => false

theorem ofByte_isEscape (b : UInt8) : (Opcode.ofByte b).isEscape = (b == 0x0F) := by
  refine byte_of_below (n := 256) (P := fun b => (Opcode.ofByte b).isEscape = (b == 0x0F)) ?_
    b.toNat_lt
  decide +kernel

theorem takes_decodeOpcode (s : System (Board δ)) :
    Takes (decodeOpcode (code s 0)) (advanced 1 s)
      (if code s 0 = 0x0F then
        1 + operandLength (escapedHasAddressing (code s 1))
          (fun _ => escapedImmediateLength (code s 1)) (code s 2)
      else operandLength (hasAddressing (code s 0))
        (immediateLength s.cpu.prefixes.isWide (code s 0)) (code s 1)) fun _ => True := by
  unfold decodeOpcode
  split
  · next h =>
    have hb := ofByte_isEscape (code s 0)
    rw [h] at hb
    rw [if_pos (beq_iff_eq.1 hb.symm)]
    refine (takes_fetchByte _).bind fun e he => ?_
    rw [code_advanced] at he
    subst he
    obtain ⟨haddressing, himmediate⟩ := ofEscaped_length (code s 1)
    have htail := takes_decode [code s 0, code s 1] (Opcode.ofEscaped (code s 1))
      (advanced 1 (advanced 1 s))
    rw [code_advanced, code_advanced, Opcode.rest, haddressing] at htail
    simp only [himmediate] at htail
    exact htail
  · next h =>
    have hb : code s 0 ≠ 0x0F := fun hb => h (by rw [hb]; rfl)
    rw [if_neg hb]
    obtain ⟨haddressing, himmediate⟩ := ofByte_length (code s 0)
    have htail := takes_decode [code s 0] (Opcode.ofByte (code s 0)) (advanced 1 s)
    rw [code_advanced, Opcode.rest, haddressing] at htail
    simp only [himmediate] at htail
    exact htail

/-- What decoding leaves noted: the prefixes, and at an element of a string instruction behind a
repeat prefix the way back over the code. -/
inductive Notes (rep : Option UInt8) (rewind : UInt16) (p : Prefixes) :
    Instruction → Prefixes → Prop where
  | plain (i : Instruction) : Notes rep rewind p i p
  | element {r : UInt8} (op : StringOperation) (w : Width) (h : rep = some r) :
    Notes rep rewind p (.string op w)
      (p.enterRepeat (PrefixByte.repeatMode r op.comparing) rewind)

def movedPast (n : Nat) (p : Prefixes) (s : System (Board δ)) : System (Board δ) :=
  { advanced n s with cpu.prefixes := p }

/-- A string instruction is its opcode. -/
theorem bodyLength_string {c : Nat → UInt8} {op : StringOperation} {size : OperandSize}
    (h : Opcode.ofByte (c 0) = .string op size) (wide : Bool) : bodyLength wide c = 1 := by
  have hb : c 0 ≠ 0x0F := by
    intro hb
    rw [hb] at h
    cases h
  obtain ⟨haddressing, himmediate⟩ := ofByte_length (c 0)
  rw [bodyLength, if_neg hb, operandLength, ← haddressing, ← himmediate, h]
  rfl

theorem decodePrefixed_code {rep : Option UInt8} {i : Instruction}
    (h : decodePrefixed rep (code s 0) (advanced 1 s) = .ok i t) :
    ∃ q, t = movedPast (bodyLength s.cpu.prefixes.isWide (code s)) q s ∧
      Notes rep (t.cpu.registers.ip - s.cpu.instructionStart) s.cpu.prefixes i q := by
  have hplain (h : decodeOpcode (code s 0) (advanced 1 s) = .ok i t) :
      t = advanced (bodyLength s.cpu.prefixes.isWide (code s)) s := by
    rw [bodyLength, ← advanced_advanced]
    exact (takes_decodeOpcode s i t h).1
  unfold decodePrefixed at h
  cases rep with
  | none => exact ⟨_, hplain h, .plain _⟩
  | some r =>
    generalize hop : Opcode.ofByte (code s 0) = op at h
    cases op with
    | string op size =>
      rw [bodyLength_string hop]
      dsimp only at h
      rw [run_registers] at h
      split at h
      · rw [run_modifyCpu, decodeOpcode_string hop] at h
        cases h
        exact ⟨_, rfl, .element op _ rfl⟩
      · cases h
        exact ⟨_, rfl, .plain _⟩
    | _ => exact ⟨_, hplain h, .plain _⟩

omit [Peripheral δ] in
theorem code_pushed (b : UInt8) (s : System (Board δ)) (k : Nat) :
    code (pushed b s) k = code s (k + 1) := by
  rw [Nat.add_comm]
  exact code_advanced s 1 k

/-- The first of the prefixes is the last to be asked. -/
theorem find?_reverse_cons (b : UInt8) (ps : List UInt8) (rep : Option UInt8) :
    ((b :: ps).reverse.find? PrefixByte.isRepeat).or rep =
      (ps.reverse.find? PrefixByte.isRepeat).or (latestRepeat rep b) := by
  rw [List.reverse_cons, List.find?_append, Option.or_assoc, List.find?_singleton, latestRepeat]
  cases PrefixByte.isRepeat b <;> rfl

theorem leadingPrefixes_succ_of_isPrefix {c : Nat → UInt8} (h : IsPrefix (c 0)) (n : Nat) :
    leadingPrefixes (n + 1) c = c 0 :: leadingPrefixes n fun k => c (k + 1) :=
  if_pos h

theorem decodeInstruction_of_isPrefix {rep : Option UInt8} (h : IsPrefix (code s 0))
    (hf : fetchByte s = .ok (code s 0) (advanced 1 s)) (n : Nat) :
    decodeInstruction rep (n + 1) s =
      decodeInstruction (latestRepeat rep (code s 0)) n (pushed (code s 0) s) := by
  rw [decodeInstruction, bind_ok _ hf]
  rcases h with hsimple | hrepeat
  · rw [if_pos hsimple, latestRepeat_of_isSimple hsimple]
    rfl
  · have hsimple : ¬PrefixByte.isSimple (code s 0) = true := by
      intro h
      rw [not_isRepeat_of_isSimple h] at hrepeat
      cases hrepeat
    rw [if_neg hsimple, if_pos hrepeat, latestRepeat_of_isRepeat hrepeat]
    rfl

omit [Peripheral δ] in
theorem movedPast_pushed (n : Nat) (p : Prefixes) (b : UInt8) (s : System (Board δ)) :
    movedPast n p (pushed b s) = movedPast (n + 1) p s := by
  unfold movedPast
  rw [advanced_succ]
  rfl

/-- Decoding moves past the prefixes and the body of the instruction. By induction on the bytes that
are looked at. -/
theorem decodeInstruction_code {rep : Option UInt8} {n : Nat} {i : Instruction}
    (h : decodeInstruction rep n s = .ok i t) :
    let ps := leadingPrefixes n (code s)
    let p := collected ps s.cpu.prefixes
    ∃ q, t = movedPast (ps.length + bodyLength p.isWide fun k => code s (ps.length + k)) q s ∧
      Notes ((ps.reverse.find? PrefixByte.isRepeat).or rep)
        (t.cpu.registers.ip - s.cpu.instructionStart) p i q := by
  induction n generalizing rep s with
  | zero => cases h
  | succ n ih =>
    cases hf : fetchByte s with
    | error e u =>
      rw [decodeInstruction, bind_error _ hf] at h
      cases h
    | ok b u =>
      obtain ⟨rfl, rfl⟩ := takes_fetchByte s b u hf
      by_cases hb : IsPrefix (code s 0)
      · rw [decodeInstruction_of_isPrefix hb hf] at h
        obtain ⟨q, ht, hq⟩ := ih h
        -- behind the prefix lies the same code, one byte on
        have hcode : code (pushed (code s 0) s) = fun k => code s (k + 1) :=
          funext (code_pushed _ s)
        rw [hcode, movedPast_pushed] at ht
        rw [hcode] at hq
        rw [leadingPrefixes_succ_of_isPrefix hb]
        dsimp only
        rw [find?_reverse_cons]
        refine ⟨q, ?_, hq⟩
        rw [ht, List.length_cons, Nat.add_right_comm]
        simp only [Nat.add_right_comm]
        rfl
      · obtain ⟨hsimple, hrepeat⟩ := not_or.1 hb
        have hnone : leadingPrefixes (n + 1) (code s) = [] := if_neg hb
        rw [decodeInstruction, bind_ok _ hf, if_neg hsimple, if_neg hrepeat] at h
        have hbody := decodePrefixed_code h
        rw [hnone]
        simp only [List.length_nil, Nat.zero_add]
        exact hbody

end Takes

end Pc8086.Cpu

import Pc8086.Proofs.Cpu.Prefixed

namespace Pc8086.Cpu

open Exec

def wordOf (low high : UInt8) : UInt16 :=
  high.toUInt16 <<< 8 ||| low.toUInt16

/-- The number that as many bytes as the width has stand for, the lowest first. -/
def numberOf : Width → List UInt8 → UInt32
  | .byte, [b] => b.toUInt32
  | .word, [b₀, b₁] => (wordOf b₀ b₁).toUInt32
  | .dword, [b₀, b₁, b₂, b₃] => (wordOf b₂ b₃).toUInt32 <<< 16 ||| (wordOf b₀ b₁).toUInt32
  | _, _ => 0

/-- A byte with its sign copied upwards, as the bytes of a number. -/
def extended (w : Width) (b : UInt8) : List UInt8 :=
  b :: List.replicate (w.bytes - 1) (if b < 0x80 then 0 else 0xFF)

theorem length_extended (w : Width) (b : UInt8) : (extended w b).length = w.bytes := by
  cases w <;> rfl

theorem byte_of_below {n : Nat} {P : UInt8 → Prop} (h : ∀ i : Fin n, P (UInt8.ofNat i)) {b : UInt8}
    (hb : b.toNat < n) : P b := by
  have hbyte := h ⟨b.toNat, hb⟩
  rwa [UInt8.ofNat_toNat] at hbyte

theorem numberOf_extended (w : Width) (b : UInt8) :
    numberOf w (extended w b) = w.truncate (Width.byte.signExtend b.toUInt32) := by
  refine byte_of_below (n := 256) (P := fun b => numberOf w (extended w b) =
    w.truncate (Width.byte.signExtend b.toUInt32)) ?_ b.toNat_lt
  cases w <;> decide +kernel

def distanceOf (b : UInt8) : UInt16 :=
  (Width.byte.signExtend b.toUInt32).toUInt16

namespace ModRM

def isDirect (m : ModRM) : Bool :=
  m.mode == 0 && m.rm == 6

def trailing (m : ModRM) : Nat :=
  if m.isDirect then 2
  else
    match m.mode with
    | 1 => 1
    | 2 => 2
    | _ => 0

def displacement : List UInt8 → UInt16
  | [b] => distanceOf b
  | [low, high] => wordOf low high
  | _ => 0

def place (m : ModRM) (c : Cpu) (bytes : List UInt8) : Place :=
  let b := BaseIndex.ofCode m.rm
  let d := displacement bytes
  if m.mode == 3 then .register (Reg.ofCode m.rm)
  else if m.isDirect then .memory ⟨c.prefixes.segmentOr .ds, d⟩
  else .memory ⟨c.prefixes.segmentOr b.defaultSegment, b.offset c.registers + d⟩

theorem place_of_register {m : ModRM} (h : m.mode = 3) (c : Cpu) (bytes : List UInt8) :
    m.place c bytes = .register (Reg.ofCode m.rm) :=
  if_pos (beq_iff_eq.2 h)

end ModRM

namespace Exec

variable {β : Type} [Bus β]

def decodeBase (m : ModRM) : Exec β (Segment × UInt16) :=
  let b := BaseIndex.ofCode m.rm
  if m.isDirect then do return (.ds, ← fetchWord)
  else do return (b.defaultSegment, b.offset (← registers))

def decodeDisplaced (m : ModRM) (segment : Segment) (base : UInt16) : Exec β Place :=
  let locate (displacement : UInt16) : Exec β Place := do
    return .memory ⟨← operandSegment segment, base + displacement⟩
  match m.mode with
  | 1 => (·.toUInt16) <$> fetchSignedByte >>= locate
  | 2 => fetchWord >>= locate
  | _ => locate 0

theorem decodePlace_eq {m : ModRM} (h : ¬(m.mode == 3) = true) :
    (decodePlace m : Exec β Place) = decodeBase m >>= fun b => decodeDisplaced m b.1 b.2 := by
  unfold decodePlace decodeBase decodeDisplaced ModRM.isDirect
  rw [if_neg h]
  dsimp only
  split
  · rw [bind_assoc]
    rfl
  · rfl

end Exec

def SameButIp (c c' : Cpu) : Prop :=
  c' = { c with registers.ip := c'.registers.ip }

theorem SameButIp.trans {c c' c'' : Cpu} (h : SameButIp c c') (h' : SameButIp c' c'') :
    SameButIp c c'' := by
  unfold SameButIp
  rw [h', h]

section Reads

variable {β α α' : Type} [Bus β] {c : Cpu} {xs ys : List UInt8}

theorem Supplies.sameButIp {s t : System β} (h : Supplies s xs t) (hs : SameButIp c s.cpu) :
    SameButIp c t.cpu := by
  unfold SameButIp
  rw [h.cpu, hs]

/-- With a processor like `c` the computation fetches the bytes and does nothing else, and this is
what it makes of them. -/
def Reads (c : Cpu) (bytes : List UInt8) (x : Exec β α) (a : α) : Prop :=
  ∀ s t, SameButIp c s.cpu → Supplies s bytes t → x s = .ok a t

theorem reads_pure (a : α) : Reads c [] (pure a : Exec β α) a := by
  intro s t _ h
  rw [show t = s from h]
  rfl

theorem Reads.bind {x : Exec β α} {a : α} {f : α → Exec β α'} {a' : α'} (hx : Reads c xs x a)
    (hf : Reads c ys (f a) a') : Reads c (xs ++ ys) (x >>= f) a' := by
  intro s t hs h
  obtain ⟨u, hxs, hys⟩ := supplies_append.1 h
  rw [bind_ok f (hx s u hs hxs)]
  exact hf u t (hxs.sameButIp hs) hys

theorem Reads.look {x : Exec β α} {a : α} {f : α → Exec β α'} {a' : α'} (hx : Reads c [] x a)
    (hf : Reads c ys (f a) a') : Reads c ys (x >>= f) a' :=
  hx.bind hf

theorem Reads.last {x : Exec β α} {a : α} {f : α → Exec β α'} {a' : α'} (hx : Reads c xs x a)
    (hf : Reads c [] (f a) a') : Reads c xs (x >>= f) a' := by
  have h := hx.bind hf
  rwa [List.append_nil] at h

theorem Reads.map {x : Exec β α} {a : α} (f : α → α') (hx : Reads c xs x a) :
    Reads c xs (do return f (← x)) (f a) :=
  hx.last (reads_pure (f a))

theorem reads_view {f : Cpu → α} (hf : ∀ c ip, f { c with registers.ip := ip } = f c) :
    Reads c [] (fun s => .ok (f s.cpu) s : Exec β α) (f c) := by
  intro s t hs h
  have hsame : f s.cpu = f c := by
    rw [hs]
    exact hf c s.cpu.registers.ip
  rw [show t = s from h]
  change EStateM.Result.ok (f s.cpu) s = _
  rw [hsame]

theorem reads_widthOf (size : OperandSize) :
    Reads c [] (widthOf size : Exec β Width) (size.width c.prefixes) :=
  reads_view (f := fun c => size.width c.prefixes) fun _ _ => rfl

theorem reads_fetchByte (b : UInt8) : Reads c [b] (fetchByte : Exec β UInt8) b :=
  fun _ _ _ h => supplies_singleton.1 h

theorem reads_fetchWord (low high : UInt8) :
    Reads c [low, high] (fetchWord : Exec β UInt16) (wordOf low high) :=
  (reads_fetchByte low).bind ((reads_fetchByte high).map fun h => wordOf low h)

theorem reads_fetchSignedByte (b : UInt8) :
    Reads c [b] (fetchSignedByte : Exec β UInt32) (Width.byte.signExtend b.toUInt32) := by
  have h := (reads_fetchByte (β := β) (c := c) b).map fun b => Width.byte.signExtend b.toUInt32
  exact h

theorem reads_fetchShortDistance (b : UInt8) :
    Reads c [b] (fetchShortDistance : Exec β UInt16) (distanceOf b) :=
  (reads_fetchSignedByte b).map UInt32.toUInt16

theorem reads_fetch {w : Width} (h : xs.length = w.bytes) :
    Reads c xs (fetch w : Exec β UInt32) (numberOf w xs) := by
  cases w with
  | byte =>
    obtain ⟨b, rfl⟩ := List.length_eq_one_iff.1 h
    exact (reads_fetchByte b).map UInt8.toUInt32
  | word =>
    match xs, h with
    | [b₀, b₁], _ => exact (reads_fetchWord b₀ b₁).map UInt16.toUInt32
  | dword =>
    match xs, h with
    | [b₀, b₁, b₂, b₃], _ =>
      exact (reads_fetchWord b₀ b₁).bind ((reads_fetchWord b₂ b₃).map fun high : UInt16 =>
        high.toUInt32 <<< 16 ||| (wordOf b₀ b₁).toUInt32)

theorem reads_decodeBase_of_direct {m : ModRM} (h : m.isDirect = true) (low high : UInt8) :
    Reads c [low, high] (decodeBase m : Exec β (Segment × UInt16)) (.ds, wordOf low high) := by
  unfold decodeBase
  rw [if_pos h]
  exact (reads_fetchWord low high).map fun v => (Segment.ds, v)

theorem reads_decodeBase {m : ModRM} (h : ¬m.isDirect = true) :
    Reads c [] (decodeBase m : Exec β (Segment × UInt16))
      ((BaseIndex.ofCode m.rm).defaultSegment, (BaseIndex.ofCode m.rm).offset c.registers) := by
  unfold decodeBase
  rw [if_neg h]
  refine reads_view (f := fun c =>
    ((BaseIndex.ofCode m.rm).defaultSegment, (BaseIndex.ofCode m.rm).offset c.registers)) ?_
  intro c ip
  cases BaseIndex.ofCode m.rm <;> rfl

theorem reads_locate (segment : Segment) (offset : UInt16) :
    Reads c [] (do return .memory ⟨← operandSegment segment, offset⟩ : Exec β Place)
      (.memory ⟨c.prefixes.segmentOr segment, offset⟩) :=
  reads_view (f := fun c => Place.memory ⟨c.prefixes.segmentOr segment, offset⟩) fun _ _ => rfl

theorem reads_decodeDisplaced {m : ModRM} (segment : Segment) (base : UInt16)
    (h : xs.length = match m.mode with | 1 => 1 | 2 => 2 | _ => 0) :
    Reads c xs (decodeDisplaced m segment base : Exec β Place)
      (.memory ⟨c.prefixes.segmentOr segment, base + ModRM.displacement xs⟩) := by
  unfold decodeDisplaced
  split
  · next hmode =>
    rw [hmode] at h
    obtain ⟨b, rfl⟩ := List.length_eq_one_iff.1 h
    have hb := (reads_fetchSignedByte (β := β) (c := c) b).map UInt32.toUInt16
    exact .last hb (reads_locate segment (base + distanceOf b))
  · next hmode =>
    rw [hmode] at h
    match xs, h with
    | [low, high], _ =>
      exact .last (reads_fetchWord low high) (reads_locate segment (base + wordOf low high))
  · next hone htwo =>
    have hnone : xs.length = 0 := by
      split at h
      · contradiction
      · contradiction
      · exact h
    obtain rfl := List.length_eq_zero_iff.1 hnone
    exact reads_locate segment (base + 0)

/-- The mode decides how many bytes the place takes. -/
theorem reads_decodePlace {m : ModRM} (h : xs.length = m.trailing) :
    Reads c xs (decodePlace m : Exec β Place) (m.place c xs) := by
  unfold ModRM.place
  by_cases h3 : (m.mode == 3) = true
  · have hnone : xs.length = 0 := by
      rw [h, ModRM.trailing, ModRM.isDirect, beq_iff_eq.1 h3]
      rfl
    obtain rfl := List.length_eq_zero_iff.1 hnone
    unfold decodePlace
    rw [if_pos h3, if_pos h3]
    exact reads_pure _
  · rw [decodePlace_eq h3]
    dsimp only
    rw [if_neg h3]
    by_cases hd : m.isDirect = true
    · rw [ModRM.trailing, if_pos hd] at h
      match xs, h with
      | [low, high], _ =>
        have hmode : m.mode = 0 := beq_iff_eq.1 (Bool.and_eq_true_iff.1 hd).1
        have hdisplaced : Reads c [] (decodeDisplaced m .ds (wordOf low high) : Exec β Place)
            (.memory ⟨c.prefixes.segmentOr .ds, wordOf low high + 0⟩) :=
          reads_decodeDisplaced .ds (wordOf low high) (by rw [hmode]; rfl)
        rw [UInt16.add_zero] at hdisplaced
        rw [if_pos hd]
        exact .last (reads_decodeBase_of_direct hd low high) hdisplaced
    · rw [ModRM.trailing, if_neg hd] at h
      rw [if_neg hd]
      exact .look (reads_decodeBase hd) (reads_decodeDisplaced _ _ h)

theorem reads_decodeModRM {x : UInt8} (h : xs.length = (ModRM.ofByte x).trailing) :
    Reads c (x :: xs) (decodeModRM : Exec β (ModRM × Place))
      (ModRM.ofByte x, (ModRM.ofByte x).place c xs) :=
  (reads_fetchByte x).bind ((reads_decodePlace h).map fun p => (ModRM.ofByte x, p))

end Reads

/-- The opcode begins an instruction of its own that is not repeated. -/
def Opcode.isPlain : Opcode → Bool
  | .escape | .modifier _ | .repeatNext | .string .. => false
  | _ => true

theorem not_isPrefix_of_isPlain {b : UInt8} (h : (Opcode.ofByte b).isPlain = true) :
    ¬IsPrefix b := by
  intro hb
  have hb := (isPrefix_iff b).1 hb
  simp only [List.mem_cons, List.not_mem_nil, or_false] at hb
  rcases hb with rfl | rfl | rfl | rfl | rfl | rfl | rfl | rfl <;> exact absurd h (by decide)

/-- Behind any prefixes the bytes are the instruction. -/
def Encodes (c : Cpu) (bytes : List UInt8) (i : Instruction) : Prop :=
  ∃ b rest, bytes = b :: rest ∧ ¬IsPrefix b ∧ (∀ op size, Opcode.ofByte b ≠ .string op size) ∧
    ∀ (β : Type) [Bus β], Reads c rest (decodeOpcode b : Exec β Instruction) i

theorem encodes_of_isPlain (op : Opcode) {c : Cpu} {b : UInt8} {rest : List UInt8} {i : Instruction}
    (hb : Opcode.ofByte b = op) (hop : op.isPlain = true)
    (h : ∀ (β : Type) [Bus β], Reads c rest (decode [b] op : Exec β Instruction) i) :
    Encodes c (b :: rest) i := by
  subst hb
  refine ⟨b, rest, rfl, not_isPrefix_of_isPlain hop, fun _ _ hs => ?_, fun β _ => ?_⟩
  · rw [hs] at hop
    cases hop
  · have hopcode : (decodeOpcode b : Exec β Instruction) = decode [b] (Opcode.ofByte b) := by
      unfold decodeOpcode
      split
      · next he =>
        rw [he] at hop
        cases hop
      · rfl
    rw [hopcode]
    exact h β

section Run

variable {β : Type} [Bus β] {ps e : List UInt8} {b : UInt8} {i : Instruction} {s t : System β}

def noted (ps : List UInt8) (c : Cpu) : Cpu :=
  { c with prefixes := collected ps c.prefixes }

/-- The prefixes are noted, and then there is nothing to tell instructions apart but their bytes. -/
theorem runInstruction_opcode (h : Supplies s (ps ++ b :: e) t) (hp : ∀ p ∈ ps, IsPrefix p)
    (hb : ¬IsPrefix b) (hs : ∀ op size, Opcode.ofByte b ≠ .string op size) (rep : Option UInt8)
    {n : Nat} (hn : ps.length < n) :
    ∃ u, SameButIp (noted ps s.cpu) u.cpu ∧
      Supplies u e { t with cpu.prefixes := collected ps s.cpu.prefixes } ∧
      runInstruction rep n s = (decodeOpcode b >>= execute) u := by
  rw [List.append_cons] at h
  obtain ⟨u, hbytes, hrest⟩ := supplies_append.1 h
  have hcpu : SameButIp s.cpu u.cpu := hbytes.sameButIp rfl
  refine ⟨{ u with cpu.prefixes := collected ps s.cpu.prefixes }, ?_, hrest.withPrefixes _, ?_⟩
  · unfold SameButIp noted
    rw [hcpu]
  · rw [runInstruction_supplied hbytes hp hb rep hn, runPrefixed_eq,
      decodePrefixed_of_not_string hs]

theorem Encodes.run_supplied {c : Cpu} (he : Encodes c e i) (hc : SameButIp c (noted ps s.cpu))
    (h : Supplies s (ps ++ e) t) (hp : ∀ p ∈ ps, IsPrefix p) (rep : Option UInt8) {n : Nat}
    (hn : ps.length < n) :
    runInstruction rep n s =
      execute i { t with cpu.prefixes := collected ps s.cpu.prefixes } := by
  obtain ⟨b, rest, rfl, hb, hs, hreads⟩ := he
  obtain ⟨u, hu, hrest, hrun⟩ := runInstruction_opcode h hp hb hs rep hn
  rw [hrun]
  exact bind_ok execute (hreads β u _ (hc.trans hu) hrest)

end Run

end Pc8086.Cpu

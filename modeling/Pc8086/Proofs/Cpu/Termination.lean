import Pc8086.Proofs.Cpu.Encoding
import Pc8086.Proofs.Cpu.Leftover

/-!
When the search for an opcode comes to an end. The fetch loop, the opcode table and the handler of
the repeat prefixes call one another without a bound. Here they stand as they do so, and the bytes
of the code segment decide whether they return.
-/

namespace Pc8086.Cpu

open Exec

section Routines

/-- What one step calls to find its opcode. -/
inductive Routine where
  /-- The loop that fetches a byte and carries it out, until it was not a modifier. -/
  | loop
  /-- The loop with a byte in hand. -/
  | loopFrom (b : UInt8)
  /-- The entry of a byte in the opcode table. -/
  | entry (b : UInt8)
  /-- The handler of a repeat prefix, which looks for what is to be repeated. -/
  | handler (rep : UInt8)
  /-- The handler with a byte in hand. -/
  | target (rep b : UInt8)

variable {β : Type}

def withPrefix (b : UInt8) (s : System β) : System β :=
  { s with cpu.prefixes := s.cpu.prefixes.push b }

def repeating (rep : UInt8) (op : StringOperation) (s : System β) : System β :=
  { s with
    cpu.prefixes := s.cpu.prefixes.enterRepeat (PrefixByte.repeatMode rep op.comparing)
      (s.cpu.registers.ip - s.cpu.instructionStart) }

variable [Bus β]

/-- The routine comes to an end with an outcome, after it noted the prefixes `ps`. One that goes on
for ever has none. -/
inductive Returns :
    Routine → System β → List UInt8 → EStateM.Result Fault (System β) Unit → Prop where
  | unread {s t : System β} {f : Fault} (h : fetchByte s = .error f t) :
    Returns .loop s [] (.error f t)
  | fetched {s t : System β} {b : UInt8} {ps : List UInt8}
    {r : EStateM.Result Fault (System β) Unit} (h : fetchByte s = .ok b t)
    (hr : Returns (.loopFrom b) t ps r) : Returns .loop s ps r
  | another {s t : System β} {b : UInt8} {ps qs : List UInt8}
    {r : EStateM.Result Fault (System β) Unit} (h : Returns (.entry b) s ps (.ok () t))
    (hb : (Opcode.ofByte b).kind = .modifier) (hr : Returns .loop t qs r) :
    Returns (.loopFrom b) s (ps ++ qs) r
  | last {s t : System β} {b : UInt8} {ps : List UInt8} (h : Returns (.entry b) s ps (.ok () t))
    (hb : (Opcode.ofByte b).kind ≠ .modifier) : Returns (.loopFrom b) s ps (.ok () t)
  | failed {s t : System β} {b : UInt8} {ps : List UInt8} {f : Fault}
    (h : Returns (.entry b) s ps (.error f t)) : Returns (.loopFrom b) s ps (.error f t)
  | modifier {s : System β} {b : UInt8} (hb : (Opcode.ofByte b).kind = .modifier) :
    Returns (.entry b) s [b] (.ok () (withPrefix b s))
  | repeatNext {s : System β} {b : UInt8} {ps : List UInt8}
    {r : EStateM.Result Fault (System β) Unit} (hb : Opcode.ofByte b = .repeatNext)
    (hr : Returns (.handler b) (withPrefix b s) ps r) : Returns (.entry b) s (b :: ps) r
  | instruction {s : System β} {b : UInt8} (hm : (Opcode.ofByte b).kind ≠ .modifier)
    (hn : Opcode.ofByte b ≠ .repeatNext) : Returns (.entry b) s [] (runOpcode b s)
  | untargeted {s t : System β} {rep : UInt8} {f : Fault} (h : fetchByte s = .error f t) :
    Returns (.handler rep) s [] (.error f t)
  | targeted {s t : System β} {rep b : UInt8} {ps : List UInt8}
    {r : EStateM.Result Fault (System β) Unit} (h : fetchByte s = .ok b t)
    (hr : Returns (.target rep b) t ps r) : Returns (.handler rep) s ps r
  | chained {s : System β} {rep b : UInt8} {ps : List UInt8}
    {r : EStateM.Result Fault (System β) Unit} (hb : PrefixByte.isSimple b = true)
    (hr : Returns (.handler rep) (withPrefix b s) ps r) : Returns (.target rep b) s (b :: ps) r
  | exhausted {s : System β} {rep b : UInt8} {op : StringOperation} {size : OperandSize}
    (hb : Opcode.ofByte b = .string op size) (hc : s.cpu.registers.word .cx = 0) :
    Returns (.target rep b) s [] (.ok () s)
  | repeated {s : System β} {rep b : UInt8} {op : StringOperation} {size : OperandSize}
    {ps : List UInt8} {r : EStateM.Result Fault (System β) Unit}
    (hb : Opcode.ofByte b = .string op size) (hc : s.cpu.registers.word .cx ≠ 0)
    (hr : Returns (.entry b) (repeating rep op s) ps r) : Returns (.target rep b) s ps r
  | unrepeated {s : System β} {rep b : UInt8} {ps : List UInt8}
    {r : EStateM.Result Fault (System β) Unit} (hm : ¬PrefixByte.isSimple b = true)
    (hb : ∀ op size, Opcode.ofByte b ≠ .string op size) (hr : Returns (.loopFrom b) s ps r) :
    Returns (.target rep b) s ps r

theorem isSimple_iff_modifier (b : UInt8) :
    PrefixByte.isSimple b = true ↔ (Opcode.ofByte b).kind = .modifier :=
  byte_of_below (n := 256) (P := fun b => PrefixByte.isSimple b = true ↔
    (Opcode.ofByte b).kind = .modifier) (by decide +kernel) b.toNat_lt

theorem isRepeat_iff_repeatNext (b : UInt8) :
    PrefixByte.isRepeat b = true ↔ Opcode.ofByte b = .repeatNext := by
  have hbyte : PrefixByte.isRepeat b = match Opcode.ofByte b with
      | .repeatNext => true
      | _ => false :=
    byte_of_below (n := 256) (P := fun b => PrefixByte.isRepeat b = match Opcode.ofByte b with
      | .repeatNext => true
      | _ => false) (by decide +kernel) b.toNat_lt
  rw [hbyte]
  cases Opcode.ofByte b <;> simp

theorem not_isSimple_of_isRepeat {b : UInt8} (h : PrefixByte.isRepeat b = true) :
    ¬PrefixByte.isSimple b = true :=
  fun hm => ne_true_of_eq_false (not_isRepeat_of_isSimple hm) h

variable {s t : System β} {b rep : UInt8} {ps : List UInt8} {f : Fault}
  {r : EStateM.Result Fault (System β) Unit}

theorem entry_of_simple (hb : PrefixByte.isSimple b = true) :
    Returns (.entry b) s ps r ↔ ps = [b] ∧ r = .ok () (withPrefix b s) := by
  have hm := (isSimple_iff_modifier b).1 hb
  constructor
  · intro h
    cases h with
    | modifier => exact ⟨rfl, rfl⟩
    | repeatNext hn =>
      rw [hn] at hm
      cases hm
    | instruction hn => exact absurd hm hn
  · rintro ⟨rfl, rfl⟩
    exact .modifier hm

theorem entry_of_repeat (hb : PrefixByte.isRepeat b = true) :
    Returns (.entry b) s ps r ↔
      ∃ qs, ps = b :: qs ∧ Returns (.handler b) (withPrefix b s) qs r := by
  have hn := (isRepeat_iff_repeatNext b).1 hb
  constructor
  · intro h
    cases h with
    | modifier hm =>
      rw [hn] at hm
      cases hm
    | repeatNext _ hr => exact ⟨_, rfl, hr⟩
    | instruction _ hn' => exact absurd hn hn'
  · rintro ⟨qs, rfl, hr⟩
    exact .repeatNext hn hr

theorem entry_of_opcode (hb : ¬IsPrefix b) :
    Returns (.entry b) s ps r ↔ ps = [] ∧ r = runOpcode b s := by
  obtain ⟨hsimple, hrepeat⟩ := not_or.1 hb
  have hm := mt (isSimple_iff_modifier b).2 hsimple
  have hn := mt (isRepeat_iff_repeatNext b).2 hrepeat
  constructor
  · intro h
    cases h with
    | modifier hm' => exact absurd hm' hm
    | repeatNext hn' => exact absurd hn' hn
    | instruction => exact ⟨rfl, rfl⟩
  · rintro ⟨rfl, rfl⟩
    exact .instruction hm hn

theorem loopFrom_of_simple (hb : PrefixByte.isSimple b = true) :
    Returns (.loopFrom b) s ps r ↔ ∃ qs, ps = b :: qs ∧ Returns .loop (withPrefix b s) qs r := by
  constructor
  · intro h
    cases h with
    | another h _ hr =>
      obtain ⟨rfl, he⟩ := (entry_of_simple hb).1 h
      cases he
      exact ⟨_, rfl, hr⟩
    | last _ hm => exact absurd ((isSimple_iff_modifier b).1 hb) hm
    | failed h => cases ((entry_of_simple hb).1 h).2
  · rintro ⟨qs, rfl, hr⟩
    exact .another ((entry_of_simple hb).2 ⟨rfl, rfl⟩) ((isSimple_iff_modifier b).1 hb) hr

theorem loopFrom_of_not_simple (hb : ¬PrefixByte.isSimple b = true) :
    Returns (.loopFrom b) s ps r ↔ Returns (.entry b) s ps r := by
  have hm := mt (isSimple_iff_modifier b).2 hb
  constructor
  · intro h
    cases h with
    | another _ hm' => exact absurd hm' hm
    | last h => exact h
    | failed h => exact h
  · intro h
    cases r with
    | ok a t => exact .last h hm
    | error f t => exact .failed h

theorem target_of_simple (hb : PrefixByte.isSimple b = true) :
    Returns (.target rep b) s ps r ↔
      ∃ qs, ps = b :: qs ∧ Returns (.handler rep) (withPrefix b s) qs r := by
  constructor
  · intro h
    cases h with
    | chained _ hr => exact ⟨_, rfl, hr⟩
    | exhausted hs => exact absurd (.inl hb) (not_isPrefix_of_string hs)
    | repeated hs => exact absurd (.inl hb) (not_isPrefix_of_string hs)
    | unrepeated hm => exact absurd hb hm
  · rintro ⟨qs, rfl, hr⟩
    exact .chained hb hr

theorem target_of_other (hm : ¬PrefixByte.isSimple b = true)
    (hs : ∀ op size, Opcode.ofByte b ≠ .string op size) :
    Returns (.target rep b) s ps r ↔ Returns (.entry b) s ps r := by
  rw [← loopFrom_of_not_simple hm]
  constructor
  · intro h
    cases h with
    | chained hm' => exact absurd hm' hm
    | exhausted hs' => exact absurd hs' (hs _ _)
    | repeated hs' => exact absurd hs' (hs _ _)
    | unrepeated _ _ hr => exact hr
  · exact .unrepeated hm hs

theorem runPrefixed_of_string {op : StringOperation} {size : OperandSize}
    (hb : Opcode.ofByte b = .string op size) (rep : UInt8) (s : System β) :
    runPrefixed (some rep) b s =
      if s.cpu.registers.word .cx = 0 then .ok () s else runOpcode b (repeating rep op s) := by
  unfold runPrefixed
  rw [hb]
  dsimp only
  rw [run_registers]
  by_cases hc : s.cpu.registers.word .cx = 0
  · rw [if_pos hc, if_neg (by simp [hc])]
    rfl
  · rw [if_neg hc, if_pos (bne_iff_ne.2 hc)]
    rfl

theorem target_of_string {op : StringOperation} {size : OperandSize}
    (hb : Opcode.ofByte b = .string op size) :
    Returns (.target rep b) s ps r ↔ ps = [] ∧ r = runPrefixed (some rep) b s := by
  have hp := not_isPrefix_of_string hb
  rw [runPrefixed_of_string hb]
  constructor
  · intro h
    cases h with
    | chained hm => exact absurd (.inl hm) hp
    | exhausted _ hc => exact ⟨rfl, (if_pos hc).symm⟩
    | repeated hs hc hr =>
      cases hb.symm.trans hs
      rw [if_neg hc]
      exact (entry_of_opcode hp).1 hr
    | unrepeated _ hs => exact absurd hb (hs op size)
  · rintro ⟨rfl, rfl⟩
    by_cases hc : s.cpu.registers.word .cx = 0
    · rw [if_pos hc]
      exact .exhausted hb hc
    · rw [if_neg hc]
      exact .repeated hb hc ((entry_of_opcode hp).2 ⟨rfl, rfl⟩)

end Routines

section Search

variable {β : Type} [Bus β] {s t : System β} {b : UInt8} {rep : Option UInt8} {ps : List UInt8}
  {f : Fault} {r : EStateM.Result Fault (System β) Unit}

/-- What looks for the opcode: the fetch loop, or the handler of the last repeat prefix. -/
def Routine.search : Option UInt8 → Routine
  | none => .loop
  | some rep => .handler rep

def Routine.found : Option UInt8 → UInt8 → Routine
  | none, b => .loopFrom b
  | some rep, b => .target rep b

theorem search_of_unread (h : fetchByte s = .error f t) :
    Returns (.search rep) s ps r ↔ ps = [] ∧ r = .error f t := by
  constructor
  · intro hr
    cases rep with
    | none =>
      cases hr with
      | unread h' =>
        cases h.symm.trans h'
        exact ⟨rfl, rfl⟩
      | fetched h' => cases h.symm.trans h'
    | some rep =>
      cases hr with
      | untargeted h' =>
        cases h.symm.trans h'
        exact ⟨rfl, rfl⟩
      | targeted h' => cases h.symm.trans h'
  · rintro ⟨rfl, rfl⟩
    cases rep with
    | none => exact .unread h
    | some rep => exact .untargeted h

theorem search_of_fetched (h : fetchByte s = .ok b t) :
    Returns (.search rep) s ps r ↔ Returns (.found rep b) t ps r := by
  constructor
  · intro hr
    cases rep with
    | none =>
      cases hr with
      | unread h' => cases h.symm.trans h'
      | fetched h' hr =>
        cases h.symm.trans h'
        exact hr
    | some rep =>
      cases hr with
      | untargeted h' => cases h.symm.trans h'
      | targeted h' hr =>
        cases h.symm.trans h'
        exact hr
  · intro hr
    cases rep with
    | none => exact .fetched h hr
    | some rep => exact .targeted h hr

theorem found_of_simple (hb : PrefixByte.isSimple b = true) :
    Returns (.found rep b) s ps r ↔
      ∃ qs, ps = b :: qs ∧ Returns (.search rep) (withPrefix b s) qs r := by
  cases rep with
  | none => exact loopFrom_of_simple hb
  | some rep => exact target_of_simple hb

theorem found_of_repeat (hb : PrefixByte.isRepeat b = true) :
    Returns (.found rep b) s ps r ↔
      ∃ qs, ps = b :: qs ∧ Returns (.search (some b)) (withPrefix b s) qs r := by
  have hm := not_isSimple_of_isRepeat hb
  have hs : ∀ op size, Opcode.ofByte b ≠ .string op size :=
    fun op size hs => not_isPrefix_of_string hs (.inr hb)
  cases rep with
  | none => exact (loopFrom_of_not_simple hm).trans (entry_of_repeat hb)
  | some rep => exact (target_of_other hm hs).trans (entry_of_repeat hb)

theorem found_of_opcode (hb : ¬IsPrefix b) :
    Returns (.found rep b) s ps r ↔ ps = [] ∧ r = runPrefixed rep b s := by
  have hm : ¬PrefixByte.isSimple b = true := fun hm => hb (.inl hm)
  cases rep with
  | none => exact (loopFrom_of_not_simple hm).trans (entry_of_opcode hb)
  | some rep =>
    by_cases hs : ∃ op size, Opcode.ofByte b = .string op size
    · obtain ⟨op, size, hs⟩ := hs
      exact target_of_string hs
    · have hs : ∀ op size, Opcode.ofByte b ≠ .string op size :=
        fun op size h => hs ⟨op, size, h⟩
      have hrun : (runPrefixed (some rep) b : Exec β Unit) = runOpcode b := by
        rw [runPrefixed_eq, decodePrefixed_of_not_string hs, runOpcode_eq]
      rw [hrun]
      exact (target_of_other hm hs).trans (entry_of_opcode hb)

/-- The next byte is not a prefix, or cannot be read. -/
def Stops (s : System β) : Prop :=
  ∀ b t, fetchByte s = .ok b t → ¬IsPrefix b

theorem stops_or_isPrefix (s : System β) : Stops s ∨ ∃ b t, fetchByte s = .ok b t ∧ IsPrefix b := by
  cases hf : fetchByte s with
  | error f t => exact .inl fun b u h => by cases hf.symm.trans h
  | ok b t =>
    by_cases hb : IsPrefix b
    · exact .inr ⟨b, t, rfl, hb⟩
    · refine .inl fun c u h => ?_
      cases hf.symm.trans h
      exact hb

def latestRepeat (rep : Option UInt8) (b : UInt8) : Option UInt8 :=
  if PrefixByte.isRepeat b then some b else rep

theorem latestRepeat_of_isSimple (h : PrefixByte.isSimple b = true) : latestRepeat rep b = rep :=
  if_neg (ne_true_of_eq_false (not_isRepeat_of_isSimple h))

theorem latestRepeat_of_isRepeat (h : PrefixByte.isRepeat b = true) :
    latestRepeat rep b = some b :=
  if_pos h

theorem search_of_isPrefix (h : fetchByte s = .ok b t) (hb : IsPrefix b) :
    Returns (.search rep) s ps r ↔
      ∃ qs, ps = b :: qs ∧ Returns (.search (latestRepeat rep b)) (withPrefix b t) qs r := by
  rw [search_of_fetched h]
  rcases hb with hb | hb
  · rw [latestRepeat_of_isSimple hb]
    exact found_of_simple hb
  · rw [latestRepeat_of_isRepeat hb]
    exact found_of_repeat hb

theorem runInstruction_of_isPrefix (h : fetchByte s = .ok b t) (hb : IsPrefix b) (n : Nat) :
    runInstruction rep (n + 1) s = runInstruction (latestRepeat rep b) n (withPrefix b t) := by
  rw [runInstruction, bind_ok _ h]
  rcases hb with hb | hb
  · rw [latestRepeat_of_isSimple hb, if_pos hb]
    rfl
  · rw [latestRepeat_of_isRepeat hb, if_neg (not_isSimple_of_isRepeat hb), if_pos hb]
    rfl

theorem search_of_stops (h : Stops s) (n : Nat) :
    Returns (.search rep) s ps r ↔ ps = [] ∧ r = runInstruction rep (n + 1) s := by
  rw [runInstruction]
  cases hf : fetchByte s with
  | error f t =>
    rw [bind_error _ hf]
    exact search_of_unread hf
  | ok b t =>
    have hb := h b t hf
    obtain ⟨hsimple, hrepeat⟩ := not_or.1 hb
    rw [bind_ok _ hf, if_neg hsimple, if_neg hrepeat, search_of_fetched hf]
    exact found_of_opcode hb

/-- What returns is what an instruction does, if only it may look at enough bytes. By induction on
the prefixes. -/
theorem Returns.runInstruction (h : Returns (.search rep) s ps r) {n : Nat} (hn : ps.length < n) :
    runInstruction rep n s = r := by
  induction ps generalizing s rep n with
  | nil =>
    obtain ⟨n, rfl⟩ := Nat.exists_eq_add_one_of_ne_zero (Nat.ne_of_gt hn)
    rcases stops_or_isPrefix s with hs | ⟨b, t, hf, hb⟩
    · exact ((search_of_stops hs n).1 h).2.symm
    · obtain ⟨qs, hps, -⟩ := (search_of_isPrefix hf hb).1 h
      cases hps
  | cons p ps ih =>
    obtain ⟨n, rfl⟩ := Nat.exists_eq_add_one_of_ne_zero (Nat.ne_of_gt (Nat.zero_lt_of_lt hn))
    rcases stops_or_isPrefix s with hs | ⟨b, t, hf, hb⟩
    · cases ((search_of_stops hs n).1 h).1
    · obtain ⟨qs, hps, h⟩ := (search_of_isPrefix hf hb).1 h
      cases hps
      rw [runInstruction_of_isPrefix hf hb]
      exact ih h (Nat.lt_of_succ_lt_succ hn)

/-- Where nothing returns the instruction gives up after any number of bytes. -/
theorem endless_of_not_returns (h : ∀ ps r, ¬Returns (.search rep) s ps r) (n : Nat) :
    ∃ a t, runInstruction rep n s = .error (.endlessPrefixes a) t := by
  induction n generalizing s rep with
  | zero => exact ⟨s.cpu.instructionAddress, s, rfl⟩
  | succ n ih =>
    rcases stops_or_isPrefix s with hs | ⟨b, t, hf, hb⟩
    · exact absurd ((search_of_stops hs n).2 ⟨rfl, rfl⟩) (h _ _)
    · rw [runInstruction_of_isPrefix hf hb]
      exact ih fun qs r hr => h _ r ((search_of_isPrefix hf hb).2 ⟨qs, rfl, hr⟩)

end Search

section Code

def PrefixAt (m : Memory) (base offset : UInt16) : Prop :=
  ∃ b, m.byte? (linear base offset) = some b ∧ IsPrefix b

/-- Prefixes lie in a segment from an offset on, and behind them something else. -/
inductive Chain (m : Memory) (base : UInt16) : UInt16 → List UInt8 → Prop where
  | stop {offset : UInt16} (h : ¬PrefixAt m base offset) : Chain m base offset []
  | next {offset : UInt16} {b : UInt8} {ps : List UInt8}
    (h : m.byte? (linear base offset) = some b) (hb : IsPrefix b)
    (hr : Chain m base (offset + 1) ps) : Chain m base offset (b :: ps)

variable {m : Memory} {base offset : UInt16} {ps : List UInt8} {n : Nat}

theorem Chain.stops (h : Chain m base offset ps) :
    ¬PrefixAt m base (offset + UInt16.ofNat ps.length) := by
  induction h with
  | stop h =>
    rw [List.length_nil, add_ofNat_zero]
    exact h
  | next _ _ _ ih =>
    rw [List.length_cons, add_ofNat_succ]
    exact ih

theorem exists_chain (h : ¬PrefixAt m base (offset + UInt16.ofNat n)) :
    ∃ ps, Chain m base offset ps := by
  induction n generalizing offset with
  | zero =>
    rw [add_ofNat_zero] at h
    exact ⟨[], .stop h⟩
  | succ n ih =>
    by_cases hp : PrefixAt m base offset
    · obtain ⟨b, hread, hb⟩ := hp
      rw [add_ofNat_succ] at h
      obtain ⟨ps, hr⟩ := ih h
      exact ⟨b :: ps, .next hread hb hr⟩
    · exact ⟨[], .stop hp⟩

/-- The prefixes end before the first byte that is none. -/
theorem Chain.length_le (hc : Chain m base offset ps)
    (h : ¬PrefixAt m base (offset + UInt16.ofNat n)) : ps.length ≤ n := by
  induction n generalizing offset ps with
  | zero =>
    rw [add_ofNat_zero] at h
    cases hc with
    | stop => exact Nat.le_refl 0
    | next hread hb => exact absurd ⟨_, hread, hb⟩ h
  | succ n ih =>
    rw [add_ofNat_succ] at h
    cases hc with
    | stop => exact Nat.zero_le _
    | next _ _ hr => exact Nat.succ_le_succ (ih hr h)

theorem offset_reached (offset other : UInt16) :
    offset + UInt16.ofNat (other - offset).toNat = other := by
  rw [UInt16.ofNat_toNat, UInt16.add_comm, UInt16.sub_add_cancel]

theorem exists_chain_iff (offset : UInt16) :
    (∃ ps, Chain m base offset ps) ↔ ∃ other, ¬PrefixAt m base other := by
  constructor
  · rintro ⟨ps, h⟩
    exact ⟨_, h.stops⟩
  · rintro ⟨other, h⟩
    rw [← offset_reached offset other] at h
    exact exists_chain h

theorem Chain.length_lt (h : Chain m base offset ps) : ps.length < segmentSize := by
  have hstop := h.stops
  rw [← offset_reached offset (offset + UInt16.ofNat ps.length)] at hstop
  exact Nat.lt_of_le_of_lt (h.length_le hstop) (UInt16.toNat_lt _)

variable {δ : Type} [Peripheral δ] {s : System (Board δ)} {b : UInt8}

theorem fetchByte_board
    (h : s.bus.memory.byte? (linear s.cpu.registers.cs s.cpu.registers.ip) = some b) :
    fetchByte s = .ok b { s with cpu.registers.ip := s.cpu.registers.ip + 1 } := by
  have hspells : s.bus.memory.Spells s.cpu.registers.cs s.cpu.registers.ip [b] := ⟨h, trivial⟩
  exact supplies_singleton.1 (supplies_board hspells)

theorem byte_of_fetchByte {t : System (Board δ)} (h : fetchByte s = .ok b t) :
    s.bus.memory.byte? (linear s.cpu.registers.cs s.cpu.registers.ip) = some b := by
  change s.bus.memory.byte? s.cpu.codeAddress.linear = some b
  rw [fetchByte_eq] at h
  dsimp only [Bus.readByte, Memory.readByte] at h
  cases hread : s.bus.memory.byte? s.cpu.codeAddress.linear with
  | none =>
    rw [hread] at h
    cases h
  | some v =>
    rw [hread] at h
    cases h
    rfl

theorem stops_iff (s : System (Board δ)) :
    Stops s ↔ ¬PrefixAt s.bus.memory s.cpu.registers.cs s.cpu.registers.ip := by
  constructor
  · rintro h ⟨b, hread, hb⟩
    exact h b _ (fetchByte_board hread) hb
  · exact fun h b t hf hb => h ⟨b, byte_of_fetchByte hf, hb⟩

/-- The search returns over the prefixes before the first byte that is none. By induction on
these. -/
theorem returns_iff_chain (rep : Option UInt8) (s : System (Board δ)) (ps : List UInt8) :
    (∃ r, Returns (.search rep) s ps r) ↔
      Chain s.bus.memory s.cpu.registers.cs s.cpu.registers.ip ps := by
  induction ps generalizing s rep with
  | nil =>
    constructor
    · rintro ⟨r, hr⟩
      -- the byte at hand decides whether the search goes on
      rcases stops_or_isPrefix s with hs | ⟨b, t, hf, hb⟩
      · exact .stop ((stops_iff s).1 hs)
      · obtain ⟨qs, hps, -⟩ := (search_of_isPrefix hf hb).1 hr
        cases hps
    · rintro ⟨h⟩
      exact ⟨_, (search_of_stops ((stops_iff s).2 h) 0).2 ⟨rfl, rfl⟩⟩
  | cons p ps ih =>
    constructor
    · rintro ⟨r, hr⟩
      rcases stops_or_isPrefix s with hs | ⟨b, t, hf, hb⟩
      · cases ((search_of_stops hs 0).1 hr).1
      · have hread := byte_of_fetchByte hf
        cases (fetchByte_board hread).symm.trans hf
        obtain ⟨qs, hps, hr⟩ := (search_of_isPrefix hf hb).1 hr
        cases hps
        exact .next hread hb ((ih _ _).1 ⟨r, hr⟩)
    · intro h
      cases h with
      | next hread hb h =>
        have hf := fetchByte_board hread
        obtain ⟨r, hr⟩ := (ih (latestRepeat rep p) (pushed p s)).2 h
        exact ⟨r, (search_of_isPrefix hf hb).2 ⟨ps, rfl, hr⟩⟩

/-- A memory of nothing but segment overrides, as large as a segment. -/
def overrides : Memory :=
  ⟨⟨Array.replicate segmentSize 0x2E⟩⟩

theorem byte_overrides (offset : UInt16) : overrides.byte? (linear 0 offset) = some 0x2E := by
  have hlinear : linear 0 offset = offset.toUInt32 &&& addressMask := by
    unfold linear
    exact congrArg (· &&& addressMask) (UInt32.zero_add _)
  have hlt : (linear 0 offset).toNat < overrides.bytes.size := by
    have hsize : overrides.bytes.size = segmentSize := Array.size_replicate
    rw [hlinear, hsize, UInt32.toNat_and, UInt16.toNat_toUInt32]
    exact Nat.lt_of_le_of_lt Nat.and_le_left offset.toNat_lt
  rw [Memory.byte?, dif_pos hlt]
  exact congrArg some (Array.getElem_replicate _)

/-- When a step finds its opcode. Of a step that gets past hold, interrupt and halt, the fetch loop,
the opcode table and the handler of the repeat prefixes return if and only if some offset of the
code segment holds a byte that is not a prefix, or none that can be read. Then they have noted the
prefixes that lie before the first such offset, fewer than there are offsets, and their outcome is
the instruction's. If not, the iteration gives up on the prefixes. -/
theorem search_terminates_iff {s t : System (Board δ)} (h : Fetches s t) :
    let code := t.cpu.registers.cs
    ((∃ ps r, Returns .loop (begun t) ps r) ↔
      ∃ offset, ∀ b, t.bus.memory.byte? (linear code offset) = some b →
        b ∉ [0x26, 0x2E, 0x36, 0x3E, 0x66, 0xF0, 0xF2, 0xF3]) ∧
    (∀ ps r, Returns .loop (begun t) ps r →
      ps.length ≤ 65535 ∧ Chain t.bus.memory code t.cpu.registers.ip ps ∧
      Exec.iteration s =
        resume (fun _ => if t.cpu.registers.flags.trap then enterVector 1 else pure ()) r) ∧
    ((¬∃ ps r, Returns .loop (begun t) ps r) →
      ∃ a u, Exec.iteration s = .error (.endlessPrefixes a) u) := by
  intro code
  refine ⟨?_, fun ps r hr => ?_, fun hn => ?_⟩
  · have hstop : ∀ offset, ¬PrefixAt t.bus.memory code offset ↔
        ∀ b, t.bus.memory.byte? (linear code offset) = some b →
          b ∉ [0x26, 0x2E, 0x36, 0x3E, 0x66, 0xF0, 0xF2, 0xF3] := by
      intro offset
      unfold PrefixAt
      simp only [isPrefix_iff, not_exists, not_and]
    calc (∃ ps r, Returns .loop (begun t) ps r)
        ↔ ∃ ps, Chain t.bus.memory code t.cpu.registers.ip ps :=
          exists_congr fun ps => returns_iff_chain none (begun t) ps
      _ ↔ ∃ offset, ¬PrefixAt t.bus.memory code offset := exists_chain_iff _
      _ ↔ _ := exists_congr hstop
  · have hr : Returns (.search none) (begun t) ps r := hr
    have hchain := (returns_iff_chain none (begun t) ps).1 ⟨r, hr⟩
    have hlength : ps.length < segmentSize := hchain.length_lt
    refine ⟨Nat.le_of_lt_succ hlength, hchain, ?_⟩
    rw [h.iteration, bind_eq_resume, hr.runInstruction hlength]
  · have hnone : ∀ ps r, ¬Returns (.search none) (begun t) ps r := fun ps r hr => hn ⟨ps, r, hr⟩
    obtain ⟨a, u, hrun⟩ := endless_of_not_returns hnone segmentSize
    refine ⟨a, u, ?_⟩
    rw [h.iteration, bind_error _ hrun]

/-- A store is found behind four prefixes. In a segment of overrides nothing is found. -/
theorem store_found :
    let found : System (Board ExpansionCard) := ⟨{}, loaded [0x66, 0xF3, 0x2E, 0xF2, 0xAA]⟩
    let lost : System (Board ExpansionCard) := ⟨{}, { loaded [] with memory := overrides }⟩
    Fetches found found ∧ Fetches lost lost ∧
      (∃ ps r, Returns .loop (begun found) ps r ∧ ps.length ≤ 65535) ∧
      ∃ a u, Exec.iteration lost = .error (.endlessPrefixes a) u := by
  intro found lost
  have hfound : Fetches found found := ⟨Bool.false_ne_true, rfl, rfl⟩
  have hlost : Fetches lost lost := ⟨Bool.false_ne_true, rfl, rfl⟩
  obtain ⟨hiff, hbound, -⟩ := search_terminates_iff hfound
  obtain ⟨hiff', -, hendless⟩ := search_terminates_iff hlost
  refine ⟨hfound, hlost, ?_, ?_⟩
  · have hread : found.bus.memory.byte? (linear 0 4) = some 0xAA := rfl
    have hstore : ∀ b, found.bus.memory.byte? (linear 0 4) = some b →
        b ∉ [0x26, 0x2E, 0x36, 0x3E, 0x66, 0xF0, 0xF2, 0xF3] := by
      intro b hb
      cases hread.symm.trans hb
      decide
    obtain ⟨ps, r, hr⟩ := hiff.2 ⟨4, hstore⟩
    exact ⟨ps, r, hr, (hbound ps r hr).1⟩
  · refine hendless fun hr => ?_
    obtain ⟨offset, hoffset⟩ := hiff'.1 hr
    exact hoffset 0x2E (byte_overrides offset) (by decide)

end Code

end Pc8086.Cpu

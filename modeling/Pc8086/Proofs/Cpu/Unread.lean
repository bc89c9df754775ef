import Pc8086.Proofs.Board.Aside
import Pc8086.Proofs.Cpu.Journal
import Pc8086.Proofs.Cpu.OnBoard

namespace Pc8086

structure Memory.AgreesOff (D : UInt32 → Prop) (m m' : Memory) : Prop where
  size : m'.size = m.size
  peek : ∀ a, ¬D a → m'.peek a = m.peek a

namespace Memory.AgreesOff

variable {D E : UInt32 → Prop} {m m' : Memory}

theorem refl (D : UInt32 → Prop) (m : Memory) : m.AgreesOff D m :=
  ⟨rfl, fun _ _ => rfl⟩

theorem mono (h : m.AgreesOff D m') (hD : ∀ a, D a → E a) : m.AgreesOff E m' :=
  ⟨h.size, fun a ha => h.peek a (mt (hD a) ha)⟩

theorem differing (h : m.AgreesOff D m') : m.AgreesOff (fun a => m'.peek a ≠ m.peek a) m' :=
  ⟨h.size, fun _ ha => Classical.not_not.1 ha⟩

theorem mem_of_differs (h : m.AgreesOff D m') {a : UInt32} (ha : m'.peek a ≠ m.peek a) : D a :=
  Classical.byContradiction fun hD => ha (h.peek a hD)

/-- What is read outside `D` is the same, or missing from both. -/
theorem readByte (h : m.AgreesOff D m') {a : UInt32} (ha : ¬D a) :
    m'.readByte a = m.readByte a := by
  by_cases hm : a.toNat < m.size
  · rw [readByte_eq hm, readByte_eq (h.size ▸ hm), h.peek a ha]
  · rw [readByte_eq_error hm, readByte_eq_error (h.size ▸ hm)]

theorem poke (h : m.AgreesOff D m') (a : UInt32) (v : UInt8) :
    (m.poke a v).AgreesOff (fun b => D b ∧ b ≠ a) (m'.poke a v) where
  size := by rw [size_poke, size_poke, h.size]
  peek b hb := by
    by_cases hm : a.toNat < m.size
    · rw [peek_poke hm, peek_poke (h.size ▸ hm)]
      by_cases he : b = a
      · rw [if_pos he, if_pos he]
      · rw [if_neg he, if_neg he]
        exact h.peek b fun hD => hb ⟨hD, he⟩
    · have hm' : ¬a.toNat < m'.size := h.size ▸ hm
      rw [poke_of_beyond hm, poke_of_beyond hm']
      by_cases he : b = a
      · rw [he, peek_of_beyond hm, peek_of_beyond hm']
      · exact h.peek b fun hD => hb ⟨hD, he⟩

theorem poke_right (h : m.AgreesOff D m') {a : UInt32} (ha : D a) (v : UInt8) :
    m.AgreesOff D (m'.poke a v) where
  size := (size_poke ..).trans h.size
  peek b hb := by
    have hne : b ≠ a := fun he => hb (he ▸ ha)
    by_cases hm : a.toNat < m'.size
    · rw [peek_poke hm, if_neg hne]
      exact h.peek b hb
    · rw [poke_of_beyond hm]
      exact h.peek b hb

end Memory.AgreesOff

def unwritten (D : UInt32 → Prop) (calls : List BusCall) : UInt32 → Prop :=
  fun a => D a ∧ ∀ v, BusCall.write a v ∉ calls

/-- A byte of `D` is read before it is written over. -/
def Exposes (D : UInt32 → Prop) (calls : List BusCall) : Prop :=
  ∃ before a after, calls = before ++ .read a :: after ∧ unwritten D before a

section Exposure

variable {D : UInt32 → Prop} {calls calls' : List BusCall}

theorem unwritten_append (D : UInt32 → Prop) (calls calls' : List BusCall) :
    unwritten D (calls ++ calls') = unwritten (unwritten D calls) calls' := by
  funext a
  simp only [unwritten, List.mem_append, not_or, forall_and, and_assoc]

/-- Only writes cover anything. -/
theorem unwritten_of_not_write (h : ∀ a v, BusCall.write a v ∉ calls) : unwritten D calls = D := by
  funext a
  simp only [unwritten, h, not_false_eq_true, implies_true, and_true]

theorem Exposes.append (h : Exposes D calls) (calls' : List BusCall) :
    Exposes D (calls ++ calls') := by
  obtain ⟨before, a, after, rfl, ha⟩ := h
  exact ⟨before, a, after ++ calls', by simp, ha⟩

theorem Exposes.behind (h : Exposes (unwritten D calls) calls') : Exposes D (calls ++ calls') := by
  obtain ⟨before, a, after, rfl, ha⟩ := h
  refine ⟨calls ++ before, a, after, by simp, ?_⟩
  rwa [unwritten_append]

theorem not_exposes_of_not_read (h : ∀ a, D a → BusCall.read a ∉ calls) : ¬Exposes D calls := by
  rintro ⟨before, a, after, rfl, ha, -⟩
  exact h a ha (by simp)

end Exposure

namespace Cpu

open Exec

variable {δ α α' : Type}

def DiffersIn (D : UInt32 → Prop) (s t : System (Board δ)) : Prop :=
  ∃ m, t = withMemory s m ∧ s.bus.memory.AgreesOff D m

theorem DiffersIn.refl (D : UInt32 → Prop) (s : System (Board δ)) : DiffersIn D s s :=
  ⟨s.bus.memory, rfl, .refl D _⟩

def Beside (D : UInt32 → Prop) (s : System (Recorded (Board δ))) (t : System (Board δ)) : Prop :=
  DiffersIn D (erased s) t

theorem Agree.tracked {D E : UInt32 → Prop}
    {r : EStateM.Result Fault (System (Recorded (Board δ))) α}
    {p q : EStateM.Result Fault (System (Board δ)) α} (hp : Agree Tracks r p)
    (hq : Agree (Beside E) r q) (hE : ∀ a, E a → D a) : Agree (DiffersIn D) p q := by
  have hsame : ∀ {r : System (Recorded (Board δ))} {s t : System (Board δ)}, Tracks r s →
      Beside E r t → DiffersIn D s t := by
    rintro r _ _ rfl ⟨m, rfl, h⟩
    exact ⟨m, rfl, h.mono hE⟩
  cases hq with
  | ok a hq =>
    cases hp with
    | ok _ hp => exact .ok a (hsame hp hq)
  | error f hq =>
    cases hp with
    | error _ hp => exact .error f (hsame hp hq)

/-- From `s` on two computations came out alike, unless the first has read a byte of `D` before it
was written over. -/
def Heedless (D : UInt32 → Prop) (s : System (Recorded (Board δ)))
    (p : EStateM.Result Fault (System (Recorded (Board δ))) α)
    (q : EStateM.Result Fault (System (Board δ)) α) : Prop :=
  ∃ calls, (final p).bus.latestFirst = calls.reverse ++ s.bus.latestFirst ∧
    (¬Exposes D calls → Agree (Beside (unwritten D calls)) p q)

section Heedless

variable {D : UInt32 → Prop} {s : System (Recorded (Board δ))}
  {p : EStateM.Result Fault (System (Recorded (Board δ))) α}
  {q : EStateM.Result Fault (System (Board δ)) α}

theorem heedless_of_agree (hj : (final p).bus.latestFirst = s.bus.latestFirst)
    (h : Agree (Beside D) p q) : Heedless D s p q := by
  have hnone : unwritten D [] = D := unwritten_of_not_write fun _ _ => List.not_mem_nil
  exact ⟨[], hj, fun _ => hnone.symm ▸ h⟩

/-- Whatever comes of a recorded computation, the plain one may come out the same. -/
theorem exists_agree (D : UInt32 → Prop)
    (p : EStateM.Result Fault (System (Recorded (Board δ))) α) : ∃ q, Agree (Beside D) p q := by
  cases p with
  | ok a s => exact ⟨.ok a (erased s), .ok a (.refl D _)⟩
  | error e s => exact ⟨.error e (erased s), .error e (.refl D _)⟩

theorem Heedless.continue (h : Heedless D s p q)
    {K : EStateM.Result Fault (System (Recorded (Board δ))) α →
      EStateM.Result Fault (System (Recorded (Board δ))) α'}
    {L : EStateM.Result Fault (System (Board δ)) α → EStateM.Result Fault (System (Board δ)) α'}
    (hK : ∀ E q, Agree (Beside E) p q → Heedless E (final p) (K p) (L q)) :
    Heedless D s (K p) (L q) := by
  obtain ⟨calls, hj, h⟩ := h
  by_cases he : Exposes D calls
  · obtain ⟨q', hq'⟩ := exists_agree D p
    obtain ⟨calls', hj', -⟩ := hK D q' hq'
    refine ⟨calls ++ calls', ?_, fun hn => absurd (he.append calls') hn⟩
    rw [hj', hj, List.reverse_append, List.append_assoc]
  · obtain ⟨calls', hj', h'⟩ := hK _ q (h he)
    refine ⟨calls ++ calls', ?_, fun hn => ?_⟩
    · rw [hj', hj, List.reverse_append, List.append_assoc]
    · rw [unwritten_append]
      exact h' fun he' => hn he'.behind

/-- Calls before that cover nothing. -/
theorem Heedless.after {t : System (Recorded (Board δ))} (h : Heedless D t p q)
    {calls : List BusCall} (hc : ∀ a v, BusCall.write a v ∉ calls)
    (ht : t.bus.latestFirst = calls.reverse ++ s.bus.latestFirst) : Heedless D s p q := by
  obtain ⟨calls', hj, h⟩ := h
  refine ⟨calls ++ calls', ?_, fun hn => ?_⟩
  · rw [hj, ht, List.reverse_append, List.append_assoc]
  · rw [unwritten_append, unwritten_of_not_write hc]
    refine h fun he => hn (Exposes.behind ?_)
    rwa [unwritten_of_not_write hc]

end Heedless

/-- The two computations come out alike on systems that differ in bytes that are not read. -/
def Unread (x : Exec (Recorded (Board δ)) α) (y : Exec (Board δ) α) : Prop :=
  ∀ s t D, Beside D s t → Heedless D s (x s) (y t)

theorem Unread.bind {x : Exec (Recorded (Board δ)) α} {y : Exec (Board δ) α}
    {f : α → Exec (Recorded (Board δ)) α'} {g : α → Exec (Board δ) α'} (hx : Unread x y)
    (hf : ∀ a, Unread (f a) (g a)) : Unread (x >>= f) (y >>= g) := by
  intro s t D h
  rw [bind_eq_resume, bind_eq_resume]
  refine (hx s t D h).continue fun E q hq => ?_
  generalize x s = p at hq
  cases hq with
  | ok a h => exact hf a _ _ E h
  | error e h => exact heedless_of_agree rfl (.error e h)

section Accesses

inductive AlikeOff (D : UInt32 → Prop) :
    EStateM.Result Fault (Board δ) α → EStateM.Result Fault (Board δ) α → Prop where
  | ok (a : α) {b : Board δ} {m : Memory} (h : b.memory.AgreesOff D m) :
    AlikeOff D (.ok a b) (.ok a (b.withMemory m))
  | error (f : Fault) {b : Board δ} {m : Memory} (h : b.memory.AgreesOff D m) :
    AlikeOff D (.error f b) (.error f (b.withMemory m))

theorem unread_access {call : BusCall} {x : EStateM Fault (Board δ) α}
    (hx : ∀ D b m, b.memory.AgreesOff D m → ¬Exposes D [call] →
      AlikeOff (unwritten D [call]) (x b) (x (b.withMemory m))) :
    Unread (onBus (Recorded.access call x)) (onBus x) := by
  rintro ⟨cpu, ⟨b, past⟩⟩ _ D ⟨m, rfl, h⟩
  refine ⟨[call], access_calls call x _, fun hn => ?_⟩
  have halike := hx D b m h hn
  change Agree _ (onBus (Recorded.access call x) ⟨cpu, ⟨b, past⟩⟩) (onBus x ⟨cpu, b.withMemory m⟩)
  unfold onBus Recorded.access
  dsimp only
  generalize x b = p at halike
  generalize x (b.withMemory m) = q at halike
  cases halike with
  | ok a h => exact .ok a ⟨_, rfl, h⟩
  | error f h => exact .error f ⟨_, rfl, h⟩

theorem unread_port {call : BusCall} (hc : ∀ a v, BusCall.write a v ∉ [call])
    {x : EStateM Fault (Board δ) α} (hx : Board.Blind x) :
    Unread (onBus (Recorded.access call x)) (onBus x) := by
  refine unread_access fun D b m h _ => ?_
  rw [unwritten_of_not_write hc]
  have haside := hx b m
  generalize x b = p at haside
  generalize x (b.withMemory m) = q at haside
  cases haside with
  | ok a hb => exact .ok a (hb.symm ▸ h)
  | error f hb => exact .error f (hb.symm ▸ h)

variable [Peripheral δ]

theorem unread_readByte (a : UInt32) :
    Unread (δ := δ) (onBus (Bus.readByte a)) (onBus (Bus.readByte a)) := by
  refine unread_access fun D b m h hn => ?_
  have ha : ¬D a := fun hD => hn ⟨[], a, [], rfl, hD, fun _ => List.not_mem_nil⟩
  have hread : (b.withMemory m).memory.readByte a = b.memory.readByte a := h.readByte ha
  have hcall : ∀ c v, BusCall.write c v ∉ [BusCall.read a] := by simp
  rw [unwritten_of_not_write hcall]
  dsimp only [Bus.readByte]
  rw [hread]
  cases b.memory.readByte a with
  | ok v => exact .ok v h
  | error f => exact .error f h

theorem unread_writeByte (a : UInt32) (v : UInt8) :
    Unread (δ := δ) (onBus (Bus.writeByte a v)) (onBus (Bus.writeByte a v)) := by
  refine unread_access fun D b m h _ => ?_
  have hpoked : (b.memory.poke a v).AgreesOff (unwritten D [.write a v]) (m.poke a v) := by
    refine (h.poke a v).mono fun c hc => ⟨hc.1, fun w => ?_⟩
    simp [hc.2]
  dsimp only [Bus.writeByte]
  by_cases hm : a.toNat < b.memory.size
  · have hm' : a.toNat < (b.withMemory m).memory.size := h.size.symm ▸ hm
    rw [Memory.writeByte_eq hm, Memory.writeByte_eq hm']
    exact .ok () hpoked
  · have hm' : ¬a.toNat < m.size := h.size.symm ▸ hm
    have hm'' : ¬a.toNat < (b.withMemory m).memory.size := hm'
    rw [Memory.poke_of_beyond hm, Memory.poke_of_beyond hm'] at hpoked
    rw [Memory.writeByte_eq_error hm, Memory.writeByte_eq_error hm'']
    exact .error _ hpoked

/-- What is the same on every bus takes no account of bytes that are not read. -/
theorem Uniform.unread {x : Exec (Recorded (Board δ)) α} {y : Exec (Board δ) α}
    {C : (Cpu → Cpu) → Prop} (h : Uniform C (Recorded (Board δ)) (Board δ) x y) : Unread x y := by
  induction h with
  | pure a => exact fun s t D h => heedless_of_agree rfl (.ok a h)
  | bind _ _ ihx ihf => exact ihx.bind ihf
  | throw e => exact fun s t D h => heedless_of_agree rfl (.error e h)
  | view f =>
    rintro s _ D ⟨m, rfl, h⟩
    exact heedless_of_agree rfl (.ok _ ⟨m, rfl, h⟩)
  | change hf =>
    rintro s _ D ⟨m, rfl, h⟩
    exact heedless_of_agree rfl (.ok () ⟨m, rfl, h⟩)
  | readByte a => exact unread_readByte a
  | writeByte a v => exact unread_writeByte a v
  | input w port => exact unread_port (by simp) (Board.blind_ports.busInput w port)
  | output w port v => exact unread_port (by simp) (Board.blind_ports.busOutput w port v)

end Accesses

end Cpu

end Pc8086

import Pc8086.Proofs.Cpu.AlternateEncodings
import Pc8086.Proofs.Cpu.Unread

namespace Pc8086.Cpu

open Exec

variable {δ α : Type}

/-- The same systems but for the instruction pointer and for bytes of memory in `D`. -/
def Elsewhere (D : UInt32 → Prop) (s t : System (Board δ)) : Prop :=
  ∃ ip m, t = { s with cpu.registers.ip := ip, bus.memory := m } ∧ s.bus.memory.AgreesOff D m

/-- The outcomes are the same, and the instruction pointers are left at `ip` and `ip'`. Where the
instructions may end early, a fault may instead leave them where they are still the same. -/
def SameOutcome (D : UInt32 → Prop) (early : Prop) (ip ip' : UInt16)
    (p q : EStateM.Result Fault (System (Board δ)) α) : Prop :=
  Agree (Elsewhere D) p q ∧
    ((final p).cpu.registers.ip = ip ∧ (final q).cpu.registers.ip = ip' ∨
      early ∧ fault? p ≠ none ∧ (final q).cpu.registers.ip = (final p).cpu.registers.ip)

section Outcomes

variable {D E : UInt32 → Prop} {p q : EStateM.Result Fault (System (Board δ)) α}

theorem Agree.moved (h : Agree (DiffersIn D) p q) (ip : UInt16) :
    Agree (Elsewhere D) p (outcomeAt ip q) := by
  cases h with
  | ok a h =>
    obtain ⟨m, rfl, h⟩ := h
    exact .ok a ⟨ip, m, rfl, h⟩
  | error f h =>
    obtain ⟨m, rfl, h⟩ := h
    exact .error f ⟨ip, m, rfl, h⟩

theorem SameOutcome.mono {early : Prop} {ip ip' : UInt16} (h : SameOutcome D early ip ip' p q)
    (hE : ∀ a, D a → E a) : SameOutcome E early ip ip' p q := by
  obtain ⟨hagree, hip⟩ := h
  refine ⟨?_, hip⟩
  cases hagree with
  | ok a h =>
    obtain ⟨ip, m, rfl, h⟩ := h
    exact .ok a ⟨ip, m, rfl, h.mono hE⟩
  | error f h =>
    obtain ⟨ip, m, rfl, h⟩ := h
    exact .error f ⟨ip, m, rfl, h.mono hE⟩

end Outcomes

section Run

variable {β : Type}

def past (ps : List UInt8) (n : Nat) (s : System β) : System β :=
  { advanced n s with cpu.prefixes := collected ps s.cpu.prefixes }

theorem noted_past {c : Cpu} {s : System β} (ps : List UInt8) (n : Nat)
    (hc : SameButIp c (noted ps s.cpu)) : SameButIp c (past ps n s).cpu := by
  have hpast : SameButIp (noted ps s.cpu) (past ps n s).cpu := rfl
  exact hc.trans hpast

theorem advanced_past (ps : List UInt8) (m n : Nat) (s : System β) :
    advanced n (past ps m s) = past ps (m + n) s := by
  unfold past advanced
  dsimp only
  rw [UInt16.ofNat_add, UInt16.add_assoc]

section Products

variable [Bus β] {c : Cpu} {w : Width} {r : Reg} {p : Place} {v : UInt32}
  {ps front number : List UInt8} {s t u : System β} {n : Nat}

/-- A product comes to its operand before it comes to its number. -/
theorem Multiplies.run (h : Multiplies c w r p v front number) (hc : SameButIp c (noted ps s.cpu))
    (ht : Supplies s (ps ++ front) t) (hp : ∀ p ∈ ps, IsPrefix p) (rep : Option UInt8)
    (hn : ps.length < n) :
    ∃ (x : Exec β UInt32) (v' : UInt32), Reads c number x v' ∧ w.truncate v' = v ∧
      runInstruction rep n s =
        (do
          let a ← readPlace w p
          let v ← x
          modifyRegisters fun q => q.multiplyTruncated w r (w.truncate a) (w.truncate v))
        { t with cpu.prefixes := collected ps s.cpu.prefixes } := by
  obtain @⟨b, front, number, v', hb, hs, hv, h⟩ := h
  obtain ⟨x, hx, hproduct⟩ := h β
  obtain ⟨u, hu, hfront, hrun⟩ := runInstruction_opcode ht hp hb hs rep hn
  exact ⟨x, v', hx, hv, hrun.trans (hproduct u _ (hc.trans hu) hfront)⟩

theorem Multiplies.run_of_missing (h : Multiplies c w r p v front number)
    (hc : SameButIp c (noted ps s.cpu)) (ht : Supplies s (ps ++ front) t)
    (hp : ∀ p ∈ ps, IsPrefix p) (rep : Option UInt8) (hn : ps.length < n) {f : Fault}
    (hf : readPlace w p { t with cpu.prefixes := collected ps s.cpu.prefixes } = .error f u) :
    runInstruction rep n s = .error f u := by
  obtain ⟨x, v', -, -, hrun⟩ := h.run hc ht hp rep hn
  rw [hrun, bind_error _ hf]

theorem Multiplies.run_of_read (h : Multiplies c w r p v front number)
    (hc : SameButIp c (noted ps s.cpu)) (ht : Supplies s (ps ++ front) t)
    (hp : ∀ p ∈ ps, IsPrefix p) (rep : Option UInt8) (hn : ps.length < n) {a : UInt32}
    (ha : readPlace w p { t with cpu.prefixes := collected ps s.cpu.prefixes } = .ok a u)
    (hu : SameButIp c u.cpu) {t' : System β} (ht' : Supplies u number t') :
    runInstruction rep n s =
      modifyRegisters (fun q => q.multiplyTruncated w r (w.truncate a) v) t' := by
  obtain ⟨x, v', hx, rfl, hrun⟩ := h.run hc ht hp rep hn
  rw [hrun, bind_ok _ ha, bind_ok _ (hx u t' hu ht')]

end Products

end Run

section Boards

variable [Peripheral δ] {D : UInt32 → Prop}

/-- A computation that reads no byte of `D` does the same on a memory that differs there. -/
theorem agree_of_not_read {x : Exec (Recorded (Board δ)) α} {y : Exec (Board δ) α}
    (hxy : Uniform Change (Recorded (Board δ)) (Board δ) x y) (r : System (Recorded (Board δ)))
    {m : Memory} (hm : r.bus.bus.memory.AgreesOff D m) :
    ∃ calls : List BusCall, (final (x r)).bus.latestFirst = calls.reverse ++ r.bus.latestFirst ∧
      ((∀ a, D a → BusCall.read a ∉ calls) →
        Agree (DiffersIn D) (y (erased r)) (y (withMemory (erased r) m))) := by
  obtain ⟨calls, hj, hagree⟩ := hxy.unread r (withMemory (erased r) m) D ⟨m, rfl, hm⟩
  refine ⟨calls, hj, fun hread => ?_⟩
  have htracks : Agree Tracks (x r) (y (erased r)) := hxy.simulates tracks_simulation rfl
  exact htracks.tracked (hagree (not_exposes_of_not_read hread)) fun a ha => ha.1

/-- Of the bytes in `D` the instruction reads no more than it fetches as its `k` bytes of code. -/
def OnlyFetches (D : UInt32 → Prop) (k : Nat) (rep : Option UInt8) (n : Nat)
    (s : System (Board δ)) : Prop :=
  ∀ a, D a → (final (runInstruction rep n (recorded s))).bus.latestFirst.count (.read a) ≤
    (fetches s.cpu.registers k).count (.read a)

/-- The calls besides the fetches do not read the bytes. -/
theorem OnlyFetches.not_mem {k n : Nat} {rep : Option UInt8} {s : System (Board δ)}
    (h : OnlyFetches D k rep n s) {data : List BusCall}
    (hcalls : (final (runInstruction rep n (recorded s))).bus.latestFirst.Perm
      (fetches s.cpu.registers k ++ data)) {a : UInt32} (ha : D a) : BusCall.read a ∉ data := by
  have hcount := h a ha
  rw [hcalls.count_eq, List.count_append] at hcount
  exact List.count_eq_zero.1 (by omega)

/-- Behind the prefixes the system has the code `e` and the memory `m` has the code `e'`; else they
differ in `D` at most. The processor is like `c` when it comes there. -/
structure Reencoded (D : UInt32 → Prop) (c : Cpu) (ps e e' : List UInt8) (s : System (Board δ))
    (m : Memory) : Prop where
  cpu : SameButIp c (noted ps s.cpu)
  prefixes : ∀ p ∈ ps, IsPrefix p
  left : s.bus.memory.Spells s.cpu.registers.cs s.cpu.registers.ip (ps ++ e)
  right : m.Spells s.cpu.registers.cs s.cpu.registers.ip (ps ++ e')
  memory : s.bus.memory.AgreesOff D m

def pastRecorded (ps : List UInt8) (n : Nat) (s : System (Board δ)) :
    System (Recorded (Board δ)) :=
  { past ps n (recorded s) with bus.latestFirst := (fetches s.cpu.registers n).reverse }

variable {s : System (Board δ)} {m : Memory} {c : Cpu} {ps e e' : List UInt8} {i : Instruction}
  {rep : Option UInt8} {n : Nat} {early : Prop}

theorem Encodes.run_board (he : Encodes c e i) (hc : SameButIp c (noted ps s.cpu))
    (h : s.bus.memory.Spells s.cpu.registers.cs s.cpu.registers.ip (ps ++ e))
    (hp : ∀ p ∈ ps, IsPrefix p) (hn : ps.length < n) :
    runInstruction rep n s = execute i (past ps (ps ++ e).length s) :=
  he.run_supplied hc (supplies_board h) hp rep hn

theorem supplies_fetches {bytes : List UInt8}
    (h : s.bus.memory.Spells s.cpu.registers.cs s.cpu.registers.ip bytes) :
    Supplies (recorded s) bytes
      { advanced bytes.length (recorded s) with
        bus.latestFirst := (fetches s.cpu.registers bytes.length).reverse } := by
  have hsupplied := supplies_recorded (s := recorded s) h
  have hnone : (recorded s).bus.latestFirst = [] := rfl
  rwa [hnone, List.append_nil] at hsupplied

theorem Encodes.run_recorded (he : Encodes c e i) (hc : SameButIp c (noted ps s.cpu))
    (h : s.bus.memory.Spells s.cpu.registers.cs s.cpu.registers.ip (ps ++ e))
    (hp : ∀ p ∈ ps, IsPrefix p) (hn : ps.length < n) :
    runInstruction rep n (recorded s) = execute i (pastRecorded ps (ps ++ e).length s) :=
  he.run_supplied (s := recorded s) hc (supplies_fetches h) hp rep hn

theorem Twins.sameOutcome (h : Twins c e e') (hs : Reencoded D c ps e e' s m) (hn : ps.length < n)
    (hread : OnlyFetches D (ps ++ e).length rep n s) :
    SameOutcome D early (s.cpu.registers.ip + UInt16.ofNat (ps ++ e).length)
      (s.cpu.registers.ip + UInt16.ofNat (ps ++ e').length)
      (runInstruction rep n s) (runInstruction rep n (withMemory s m)) := by
  obtain @⟨i, i', first, second, same, relocatable⟩ := h
  let k := (ps ++ e).length
  let ip' := s.cpu.registers.ip + UInt16.ofNat (ps ++ e').length
  have hother : runInstruction rep n (withMemory s m) =
      outcomeAt ip' (execute i (withMemory (past ps k s) m)) := by
    rw [second.run_board (s := withMemory s m) hs.cpu hs.right hs.prefixes hn, ← same (Board δ),
      ← relocatable (Board δ)]
    rfl
  have huniform : Uniform Change (Recorded (Board δ)) (Board δ) (execute i) (execute i) :=
    (uniform_performing fun _ _ _ => change_finishElement).execute
  -- behind the fetches the record holds what the instruction itself does
  obtain ⟨data, hj, hagree⟩ := agree_of_not_read huniform (pastRecorded ps k s) hs.memory
  have hcalls : (final (runInstruction rep n (recorded s))).bus.latestFirst.Perm
      (fetches s.cpu.registers k ++ data) := by
    rw [first.run_recorded hs.cpu hs.left hs.prefixes hn, hj]
    exact List.reverse_append ▸ List.reverse_perm _
  have houtcome := (hagree fun _ ha => hread.not_mem hcalls ha).moved ip'
  rw [first.run_board hs.cpu hs.left hs.prefixes hn, hother]
  refine ⟨houtcome, .inl ⟨(relocatable (Board δ)).ip _, ?_⟩⟩
  cases execute i (withMemory (past ps k s) m) <;> rfl

theorem Hops.run {ip : UInt16} (h : Hops c e ip) (hc : SameButIp c (noted ps s.cpu))
    (hip : c.registers.ip = s.cpu.registers.ip + UInt16.ofNat ps.length)
    (hx : s.bus.memory.Spells s.cpu.registers.cs s.cpu.registers.ip (ps ++ e))
    (hp : ∀ p ∈ ps, IsPrefix p) (hn : ps.length < n) :
    runInstruction rep n s = .ok () (movedTo ip (past ps (ps ++ e).length s)) := by
  obtain @⟨i, d, he, hi, hd⟩ := h
  have hend : (past ps (ps ++ e).length s).cpu.registers.ip + d = ip := by
    rw [← hd, hip, UInt16.add_assoc s.cpu.registers.ip, ← UInt16.ofNat_add, ← List.length_append]
    rfl
  rw [he.run_board hc hx hp hn, hi (Board δ) _ (noted_past ps _ hc), hend]

theorem Hops.sameOutcome {ip ip' : UInt16} (h : Hops c e ip) (h' : Hops c e' ip')
    (hs : Reencoded D c ps e e' s m)
    (hip : c.registers.ip = s.cpu.registers.ip + UInt16.ofNat ps.length) (hn : ps.length < n) :
    SameOutcome D early ip ip' (runInstruction rep n s) (runInstruction rep n (withMemory s m)) := by
  rw [h.run hs.cpu hip hs.left hs.prefixes hn,
    h'.run (s := withMemory s m) hs.cpu hip hs.right hs.prefixes hn]
  exact ⟨.ok () ⟨ip', m, rfl, hs.memory⟩, .inl ⟨rfl, rfl⟩⟩

/-- Either all bytes of an operand can be read, or the first that is missing is reported whatever
the others are. -/
theorem readBytes_outcome (i : Segment) (offset : UInt16) (n : Nat) (s : System (Board δ)) :
    (∃ v, readBytes i offset n s = .ok v s) ∨
      ∃ f, ∀ m, m.size = s.bus.memory.size →
        readBytes i offset n (withMemory s m) = .error f (withMemory s m) := by
  induction n generalizing offset with
  | zero => exact .inl ⟨0, rfl⟩
  | succ n ih =>
    let a := linear (s.cpu.registers.segment i) offset
    have haddress : ∀ m, busAddress i offset (withMemory s m) = .ok a (withMemory s m) :=
      fun _ => rfl
    unfold readBytes
    -- memories of one size have the same bytes missing, so the first one missing is the same
    by_cases ha : a.toNat < s.bus.memory.size
    · have hread : ∀ m : Memory, m.size = s.bus.memory.size →
          onBus (Bus.readByte a) (withMemory s m) = .ok (m.peek a) (withMemory s m) := by
        intro m hm
        refine onBus_ok ?_
        dsimp only [Bus.readByte, withMemory]
        rw [Memory.readByte_eq (hm.symm ▸ ha)]
      rcases ih (offset + 1) with ⟨v, hv⟩ | ⟨f, hf⟩
      · have hat : busAddress i offset s = .ok a s := haddress s.bus.memory
        have hbyte : onBus (Bus.readByte a) s = .ok (s.bus.memory.peek a) s :=
          hread s.bus.memory rfl
        refine .inl ⟨v <<< 8 ||| (s.bus.memory.peek a).toUInt32, ?_⟩
        rw [bind_ok _ hat, bind_ok _ hbyte]
        exact bind_ok _ hv
      · refine .inr ⟨f, fun m hm => ?_⟩
        rw [bind_ok _ (haddress m), bind_ok _ (hread m hm), bind_error _ (hf m hm)]
    · refine .inr ⟨.addressOutOfRange a, fun m hm => ?_⟩
      have hread : onBus (Bus.readByte a) (withMemory s m) =
          .error (.addressOutOfRange a) (withMemory s m) := by
        unfold onBus
        dsimp only [Bus.readByte, withMemory]
        rw [Memory.readByte_eq_error (hm.symm ▸ ha)]
      rw [bind_ok _ (haddress m), bind_error _ hread]

theorem readPlace_outcome (w : Width) (p : Place) (s : System (Board δ)) :
    (∃ v, readPlace w p s = .ok v s) ∨
      ∃ f, ∀ m, m.size = s.bus.memory.size →
        readPlace w p (withMemory s m) = .error f (withMemory s m) := by
  cases p with
  | register i => exact .inl ⟨_, rfl⟩
  | memory l => exact readBytes_outcome _ _ _ s

section Products

variable {w : Width} {r : Reg} {v : UInt32} {front front' number number' : List UInt8}
  {place : Place}

theorem uniform_readPlace (w : Width) (place : Place) :
    Uniform Change (Recorded (Board δ)) (Board δ) (readPlace w place) (readPlace w place) :=
  uniform_working.toReading.readPlace w place

/-- The operand is the same on a memory that differs in bytes that are not read. -/
theorem readPlace_same {u : System (Board δ)} {a : UInt32} (ha : readPlace w place u = .ok a u)
    (hagree : Agree (DiffersIn D) (readPlace w place u) (readPlace w place (withMemory u m))) :
    readPlace w place (withMemory u m) = .ok a (withMemory u m) := by
  rw [ha] at hagree
  rcases readPlace_outcome w place (withMemory u m) with ⟨a', ha'⟩ | ⟨f, hf⟩
  · rw [ha'] at hagree ⊢
    cases hagree
    rfl
  · have hf : readPlace w place (withMemory u m) = .error f (withMemory u m) := hf m rfl
    rw [hf] at hagree
    cases hagree

theorem relocatable_multiply {β : Type} (w : Width) (r : Reg) (a v : UInt32) :
    Relocatable (modifyRegisters fun q => q.multiplyTruncated w r a v : Exec β Unit) :=
  relocatable_modify fun q ip => by cases w <;> cases r <;> rfl

theorem readPlace_recorded {u : System (Recorded (Board δ))} {a : UInt32}
    (ha : readPlace w place (erased u) = .ok a (erased u)) :
    ∃ u', readPlace w place u = .ok a u' ∧ erased u' = erased u := by
  have htracks : Agree Tracks (readPlace w place u) (readPlace w place (erased u)) :=
    (uniform_readPlace w place).simulates tracks_simulation rfl
  rw [ha] at htracks
  generalize readPlace w place u = p at htracks
  cases htracks with
  | ok _ h => exact ⟨_, rfl, h⟩

/-- Between the fetches there is nothing but the operand. -/
theorem Multiplies.latestFirst (h : Multiplies c w r place v front number)
    (hc : SameButIp c (noted ps s.cpu)) (hp : ∀ p ∈ ps, IsPrefix p) (hn : ps.length < n)
    (hx : s.bus.memory.Spells s.cpu.registers.cs s.cpu.registers.ip (ps ++ front ++ number))
    {a : UInt32} (ha : readPlace w place (past ps (ps ++ front).length s) =
      .ok a (past ps (ps ++ front).length s)) :
    (final (runInstruction rep n (recorded s))).bus.latestFirst =
      (fetches (past ps (ps ++ front).length s).cpu.registers number.length).reverse ++
        (final (readPlace w place (pastRecorded ps (ps ++ front).length s))).bus.latestFirst := by
  obtain ⟨hfront, hnumber⟩ := Memory.spells_append.1 hx
  obtain ⟨u, hu, hend⟩ := readPlace_recorded (u := pastRecorded ps (ps ++ front).length s) ha
  have hcpu : u.cpu = (past ps (ps ++ front).length s).cpu := congrArg System.cpu hend
  have hbus : u.bus.bus = s.bus := congrArg System.bus hend
  have hspells : u.bus.bus.memory.Spells u.cpu.registers.cs u.cpu.registers.ip number := by
    rw [hcpu, hbus]
    exact hnumber
  have hnoted : SameButIp c u.cpu := hcpu ▸ noted_past ps _ hc
  have hrun := h.run_of_read (s := recorded s) hc (supplies_fetches hfront) hp rep hn hu hnoted
    (supplies_recorded hspells)
  rw [hrun, hu, hcpu]
  rfl

theorem Multiplies.operand (h : Multiplies c w r place v front number)
    (hs : Reencoded D c ps (front ++ number) (front' ++ number') s m) (hn : ps.length < n)
    (hread : OnlyFetches D (ps ++ front ++ number).length rep n s) {a : UInt32}
    (ha : readPlace w place (past ps (ps ++ front).length s) =
      .ok a (past ps (ps ++ front).length s)) :
    readPlace w place (withMemory (past ps (ps ++ front).length s) m) =
      .ok a (withMemory (past ps (ps ++ front).length s) m) := by
  obtain ⟨data, hj, hagree⟩ := agree_of_not_read (uniform_readPlace w place)
    (pastRecorded ps (ps ++ front).length s) hs.memory
  have hx := hs.left
  rw [← List.append_assoc] at hx
  let before := fetches s.cpu.registers (ps ++ front).length
  let behind := fetches (past ps (ps ++ front).length s).cpu.registers number.length
  -- the operand is read between two runs of fetches, which together are those of the whole code
  have hfetches : fetches s.cpu.registers (ps ++ front ++ number).length = before ++ behind := by
    rw [List.length_append, fetches_add]
    rfl
  have hcalls : (final (runInstruction rep n (recorded s))).bus.latestFirst.Perm
      (before ++ behind ++ data) := by
    rw [h.latestFirst hs.cpu hs.prefixes hn hx ha, hj]
    change (behind.reverse ++ (data.reverse ++ before.reverse)).Perm _
    rw [← List.reverse_append, ← List.reverse_append, List.append_assoc before,
      List.append_assoc before]
    exact (List.reverse_perm _).trans (.append_left before List.perm_append_comm)
  rw [← hfetches] at hcalls
  exact readPlace_same ha (hagree fun _ hb => hread.not_mem hcalls hb)

theorem Multiplies.sameOutcome (h : Multiplies c w r place v front number)
    (h' : Multiplies c w r place v front' number') (hl : front'.length = front.length) (he : early)
    (hs : Reencoded D c ps (front ++ number) (front' ++ number') s m) (hn : ps.length < n)
    (hread : OnlyFetches D (ps ++ (front ++ number)).length rep n s) :
    SameOutcome D early (s.cpu.registers.ip + UInt16.ofNat (ps ++ (front ++ number)).length)
      (s.cpu.registers.ip + UInt16.ofNat (ps ++ (front' ++ number')).length)
      (runInstruction rep n s) (runInstruction rep n (withMemory s m)) := by
  have ⟨hc, hp, hx, hy, hm⟩ := hs
  simp only [← List.append_assoc] at hx hy hread ⊢
  obtain ⟨hfront, hnumber⟩ := Memory.spells_append.1 hx
  obtain ⟨hfront', hnumber'⟩ := Memory.spells_append.1 hy
  have hlength : (ps ++ front').length = (ps ++ front).length := by
    rw [List.length_append, List.length_append, hl]
  have hsupplied := supplies_board (s := withMemory s m) hfront'
  rw [hlength] at hnumber' hsupplied
  let u := past ps (ps ++ front).length s
  have hu : SameButIp c u.cpu := noted_past ps _ hc
  rcases readPlace_outcome w place u with ⟨a, ha⟩ | ⟨f, hf⟩
  · -- the product itself does not look at the instruction pointer
    have hmultiply := relocatable_multiply (β := Board δ) w r (w.truncate a) v
    have hrun := h.run_of_read hc (supplies_board hfront) hp rep hn ha hu
      (supplies_board (s := u) hnumber)
    have hrun' := h'.run_of_read (s := withMemory s m) hc hsupplied hp rep hn
      (h.operand hs hn hread ha) hu (supplies_board (s := withMemory u m) hnumber')
    let t := past ps (ps ++ front ++ number).length s
    have hmoved : advanced number'.length (withMemory u m) =
        movedTo (s.cpu.registers.ip + UInt16.ofNat (ps ++ front' ++ number').length)
          (withMemory t m) := by
      rw [List.length_append, hlength, UInt16.ofNat_add, ← UInt16.add_assoc]
      rfl
    rw [advanced_past, ← List.length_append] at hrun
    rw [hrun, hrun', hmoved, hmultiply]
    exact ⟨.ok () ⟨_, m, rfl, hm⟩, .inl ⟨hmultiply.ip t, rfl⟩⟩
  · -- neither number has been fetched yet
    have hf' : readPlace w place (withMemory u m) = .error f (withMemory u m) := hf m hm.size
    rw [h.run_of_missing hc (supplies_board hfront) hp rep hn (hf s.bus.memory rfl),
      h'.run_of_missing (s := withMemory s m) hc hsupplied hp rep hn hf']
    exact ⟨.error f ⟨_, m, rfl, hm⟩, .inr ⟨he, nofun, rfl⟩⟩

end Products

/-- Two encodings of an instruction do the same. Take two states that are the same except that one
has, behind the prefixes `ps` at CS:IP, the bytes `e` and the other the bytes `e'`, which are two
encodings for a processor that has come there. If the instruction does not read a byte in which the
states differ besides fetching it, then what comes of it is the same, in states that are the same up
to the code and the instruction pointer, which is behind the one encoding here and behind the other
there, or where a jump goes. Only a product whose operand cannot be read ends before that. -/
theorem alternate_encodings_agree (s : System (Board δ)) (m : Memory) (ps e e' : List UInt8)
    (target : Option UInt16) (rep : Option UInt8) (n : Nat)
    (h : Alternate (past ps ps.length s).cpu e e' target) (hp : ∀ p ∈ ps, IsPrefix p)
    (hn : ps.length < n)
    (hx : s.bus.memory.Spells s.cpu.registers.cs s.cpu.registers.ip (ps ++ e))
    (hy : m.Spells s.cpu.registers.cs s.cpu.registers.ip (ps ++ e'))
    (hm : s.bus.memory.AgreesOff
      (codeBytes s.cpu.registers (ps.length + max e.length e'.length)) m)
    (hread : OnlyFetches (fun a => m.peek a ≠ s.bus.memory.peek a) (ps ++ e).length rep n s) :
    SameOutcome (codeBytes s.cpu.registers (ps.length + max e.length e'.length)) (IsProduct e)
      (target.getD (s.cpu.registers.ip + UInt16.ofNat (ps ++ e).length))
      (target.getD (s.cpu.registers.ip + UInt16.ofNat (ps ++ e').length))
      (runInstruction rep n s) (runInstruction rep n (withMemory s m)) := by
  -- of the code only those bytes matter that are not the same in the two states
  have hs : Reencoded (fun a => m.peek a ≠ s.bus.memory.peek a) (past ps ps.length s).cpu ps e e'
      s m :=
    ⟨rfl, hp, hx, hy, hm.differing⟩
  refine SameOutcome.mono ?_ fun _ => hm.mem_of_differs
  cases h.equivalent with
  | twins hw => exact hw.sameOutcome hs hn hread
  | multiply hw hw' hl he => exact hw.sameOutcome hw' hl he hs hn hread
  | hops hw hw' =>
    have hip : ∀ bytes : List UInt8, (past ps ps.length s).cpu.registers.ip +
        UInt16.ofNat bytes.length = s.cpu.registers.ip + UInt16.ofNat (ps ++ bytes).length := by
      intro bytes
      rw [List.length_append, UInt16.ofNat_add, ← UInt16.add_assoc]
      rfl
    rw [hip] at hw hw'
    exact hw.sameOutcome hw' hs rfl hn

end Boards

/-- The number is a word with `81` and a byte with `83`. -/
theorem adds_extended_byte_in_either_encoding :
    let s : System (Board ExpansionCard) :=
      ⟨{ registers := { ebx := 8 } }, loaded [0x26, 0x81, 0x07, 0xFE, 0xFF, 0, 0, 0, 0x05]⟩
    let m := s.bus.memory.poke 1 0x83
    (final (runInstruction none segmentSize s)).bus.memory.peek 8 = 0x03 ∧
      SameOutcome (codeBytes s.cpu.registers 5) (IsProduct [0x81, 0x07, 0xFE, 0xFF]) 5 4
        (runInstruction none segmentSize s) (runInstruction none segmentSize (withMemory s m)) := by
  intro s m
  have hcode : s.bus.memory.AgreesOff (codeBytes s.cpu.registers 5) m :=
    (Memory.AgreesOff.refl _ _).poke_right ⟨1, by decide +kernel⟩ 0x83
  have hencodings : SameOperation (past [0x26] 1 s).cpu [0x81, 0x07, 0xFE, 0xFF]
      [0x83, 0x07, 0xFE] :=
    @SameOperation.signed _ 0x07 [] rfl 0xFE
  have hread : OnlyFetches (fun a => m.peek a ≠ s.bus.memory.peek a) 5 none segmentSize s := by
    intro a ha
    have hone : a = 1 := Classical.byContradiction fun hne => ha (by
      rw [Memory.peek_poke (by decide +kernel), if_neg hne])
    rw [hone]
    decide +kernel
  refine ⟨by decide +kernel, ?_⟩
  exact alternate_encodings_agree s m [0x26] [0x81, 0x07, 0xFE, 0xFF] [0x83, 0x07, 0xFE] none none
    segmentSize (.operation hencodings) (by decide +kernel) (by decide) (by decide +kernel)
    (by decide +kernel) hcode hread

end Pc8086.Cpu

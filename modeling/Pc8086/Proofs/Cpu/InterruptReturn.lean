import Pc8086.Board.ScratchCard
import Pc8086.Cpu.Step
import Pc8086.Proofs.Cpu.PackedFlags
import Pc8086.Proofs.Cpu.Stack

namespace Pc8086.Cpu

open Exec

/-- The three words that an entry leaves at the top of the stack. -/
structure Framed (m : Memory) (top : UInt16) (r : Registers) : Prop where
  ip : m.word r.ss top = r.ip
  cs : m.word r.ss (top + 2) = r.cs
  flags : m.word r.ss (top + 4) = r.flags.toWord

def withFrame (m : Memory) (top : UInt16) (r : Registers) : Memory :=
  let m := m.store r.ss (top + 4) r.flags.toWord.toUInt32 2
  let m := m.store r.ss (top + 2) r.cs.toUInt32 2
  m.store r.ss top r.ip.toUInt32 2

section Frame

variable {m m' : Memory} {top : UInt16} {r : Registers}

theorem size_withFrame (m : Memory) (top : UInt16) (r : Registers) :
    (withFrame m top r).size = m.size := by
  unfold withFrame
  simp

/-- Words at different even distances from the same offset lie apart. -/
theorem words_apart (top : UInt16) {a b : UInt16}
    (h : ∀ i < 2, ∀ j < 2, b + UInt16.ofNat j ≠ a + UInt16.ofNat i) :
    ∀ i < 2, ∀ j < 2, top + b + UInt16.ofNat j ≠ top + a + UInt16.ofNat i := by
  intro i hi j hj he
  rw [UInt16.add_assoc, UInt16.add_assoc, UInt16.add_right_inj] at he
  exact h i hi j hj he

theorem framed_withFrame (hm : 0x100000 ≤ m.size) (top : UInt16) (r : Registers) :
    Framed (withFrame m top r) top r := by
  have htop : ∀ b, (∀ i < 2, ∀ j < 2, 0 + UInt16.ofNat j ≠ b + UInt16.ofNat i) →
      ∀ i < 2, ∀ j < 2, top + UInt16.ofNat j ≠ top + b + UInt16.ofNat i := by
    intro b hb
    have h := words_apart top hb
    rwa [UInt16.add_zero] at h
  unfold withFrame
  -- each word is read through the pushes that came after it
  refine ⟨?_, ?_, ?_⟩
  · rw [Memory.word_store (by simpa using hm)]
  · rw [Memory.word_store_of_apart _ _ (htop 2 (by decide)),
      Memory.word_store (by simpa using hm)]
  · rw [Memory.word_store_of_apart _ _ (htop 4 (by decide)),
      Memory.word_store_of_apart _ _ (words_apart top (by decide)),
      Memory.word_store hm]

/-- Nothing but the six bytes of the frame is written. -/
theorem peek_withFrame {a : UInt32}
    (h : ∀ i < 6, linear r.ss (top + UInt16.ofNat i) ≠ a) :
    (withFrame m top r).peek a = m.peek a := by
  have hword : ∀ k ≤ 4, ∀ i < 2, linear r.ss (top + UInt16.ofNat k + UInt16.ofNat i) ≠ a := by
    intro k hk i hi
    rw [UInt16.add_assoc, ← UInt16.ofNat_add]
    exact h (k + i) (by omega)
  have hflags : ∀ i < 2, linear r.ss (top + 4 + UInt16.ofNat i) ≠ a := hword 4 (by decide)
  have hcs : ∀ i < 2, linear r.ss (top + 2 + UInt16.ofNat i) ≠ a := hword 2 (by decide)
  have hip : ∀ i < 2, linear r.ss (top + UInt16.ofNat i) ≠ a := fun i hi => h i (by omega)
  unfold withFrame
  rw [Memory.peek_store_of_ne _ _ hip, Memory.peek_store_of_ne _ _ hcs,
    Memory.peek_store_of_ne m _ hflags]

theorem Framed.congr (h : Framed m top r)
    (hm : ∀ i < 6, m'.peek (linear r.ss (top + UInt16.ofNat i)) =
      m.peek (linear r.ss (top + UInt16.ofNat i))) : Framed m' top r := by
  have hword : ∀ k ≤ 4,
      m'.word r.ss (top + UInt16.ofNat k) = m.word r.ss (top + UInt16.ofNat k) := by
    intro k hk
    refine Memory.word_congr fun i hi => ?_
    rw [UInt16.add_assoc, ← UInt16.ofNat_add]
    exact hm (k + i) (by omega)
  have htop : m'.word r.ss top = m.word r.ss top := Memory.word_congr fun i hi => hm i (by omega)
  exact ⟨htop.trans h.ip, (hword 2 (by decide)).trans h.cs, (hword 4 (by decide)).trans h.flags⟩

end Frame

section Run

variable {δ : Type} [Peripheral δ] {s : System (Board δ)}

theorem run_readWord (h : Roomy s) {a : UInt32} {offset : UInt16} (ha : a = offset.toUInt32)
    (ho : offset.toNat < 0xFFFF) :
    onBus (Bus.readWord a) s = .ok (s.bus.memory.word 0 offset) s := by
  have hlow : ∀ o : UInt16, o.toUInt32 &&& addressMask = linear 0 o := by
    intro o
    have hbase : (0 : UInt16).toUInt32 <<< 4 = 0 := rfl
    rw [linear, hbase, UInt32.zero_add]
  have hnext : offset.toUInt32 + 1 = (offset + 1).toUInt32 := by
    apply UInt32.toNat_inj.1
    simp
    omega
  unfold Bus.readWord
  rw [ha, hnext, hlow, hlow, onBus_bind, bind_ok _ (run_readByte h ..), onBus_bind,
    bind_ok _ (run_readByte h ..)]
  rfl

/-- The entry of a vector is at four times its number. -/
theorem vector_entry (vector : UInt8) :
    vector.toUInt32 <<< 2 = (vector.toUInt16 * 4).toUInt32 ∧
      vector.toUInt32 <<< 2 + 2 = (vector.toUInt16 * 4 + 2).toUInt32 ∧
      (vector.toUInt16 * 4).toNat < 0xFFFF ∧ (vector.toUInt16 * 4 + 2).toNat < 0xFFFF := by
  have hv := vector.toNat_lt
  refine ⟨UInt32.toNat_inj.1 ?_, UInt32.toNat_inj.1 ?_, ?_, ?_⟩
  · simp [Nat.shiftLeft_eq]
    omega
  · simp [Nat.shiftLeft_eq]
    omega
  · simp
    omega
  · simp
    omega

def masked (r : Registers) : Registers :=
  { r with flags := { r.flags with interrupt := false, trap := false } }

theorem run_enterVector {m : Memory} (hm : 0x100000 ≤ m.size) (r : Registers) {sp top : UInt16}
    (htop : sp - 6 = top) (vector : UInt8) :
    enterVector vector (withRegisters (withMemory s m) (r.setWord .sp sp)) =
      .ok () (withRegisters (withMemory s (withFrame m top r))
        (Registers.setWord
          { masked r with
            cs := (withFrame m top r).word 0 (vector.toUInt16 * 4 + 2)
            ip := (withFrame m top r).word 0 (vector.toUInt16 * 4) } .sp top)) := by
  have h4 : sp - 2 = top + 4 := by grind
  have h2 : top + 4 - 2 = top + 2 := by grind
  have h0 : top + 2 - 2 = top := by grind
  -- the memory after each push is named, so that the terms stay small
  have hflags := run_pushWord_at (s := s) hm r r.flags.toWord h4
  generalize hm4 : m.store r.ss (top + 4) r.flags.toWord.toUInt32 2 = m4 at hflags
  have hroom : 0x100000 ≤ m4.size := by simpa [← hm4] using hm
  have hmask : modifyRegisters masked (withRegisters (withMemory s m4) (r.setWord .sp (top + 4))) =
      .ok () (withRegisters (withMemory s m4) ((masked r).setWord .sp (top + 4))) := rfl
  have hcs := run_pushWord_at (s := s) hroom (masked r) r.cs h2
  generalize hm2 : m4.store (masked r).ss (top + 2) r.cs.toUInt32 2 = m2 at hcs
  have hroom : 0x100000 ≤ m2.size := by simpa [← hm2] using hroom
  have hip := run_pushWord_at (s := s) hroom (masked r) r.ip h0
  have hframe : withFrame m top r = m2.store (masked r).ss top r.ip.toUInt32 2 := by
    rw [← hm2, ← hm4]
    rfl
  rw [hframe]
  generalize hm0 : m2.store (masked r).ss top r.ip.toUInt32 2 = m0 at hip ⊢
  have hroom : 0x100000 ≤ m0.size := by simpa [← hm0] using hroom
  have hread : Roomy (withRegisters (withMemory s m0) ((masked r).setWord .sp top)) := hroom
  obtain ⟨hlow, hhigh, hlow_lt, hhigh_lt⟩ := vector_entry vector
  unfold enterVector
  refine (bind_ok _ hflags).trans ?_
  refine (bind_ok _ hmask).trans ?_
  refine (bind_ok _ hcs).trans ?_
  refine (bind_ok _ hip).trans ?_
  refine (bind_ok _ (run_readWord hread hlow hlow_lt)).trans ?_
  exact bind_ok _ (run_readWord hread hhigh hhigh_lt)

/-- The entry leaves a frame, touches no other byte and goes where the vector table points to. -/
theorem enterVector_framed (h : Roomy s) (vector : UInt8) :
    ∃ m : Memory,
      let r := s.cpu.registers
      let top := r.word .sp - 6
      enterVector vector s = .ok () (withRegisters (withMemory s m)
        (Registers.setWord
          { masked r with
            cs := m.word 0 (vector.toUInt16 * 4 + 2)
            ip := m.word 0 (vector.toUInt16 * 4) } .sp top)) ∧
      Framed m top r ∧
      ∀ a, (∀ i < 6, linear r.ss (top + UInt16.ofNat i) ≠ a) → m.peek a = s.bus.memory.peek a := by
  refine ⟨withFrame s.bus.memory (s.cpu.registers.word .sp - 6) s.cpu.registers, ?_⟩
  intro r top
  have henter := run_enterVector (s := s) h r (rfl : r.word .sp - 6 = top) vector
  rw [Registers.setWord_self] at henter
  exact ⟨henter, framed_withFrame h top r, fun a ha => peek_withFrame ha⟩

/-- The return from interrupt takes a frame off the stack, whatever else has changed. -/
theorem run_returnInterrupt (h : Roomy s) {r u : Registers} {top sp : UInt16}
    (htop : top + 6 = sp) (hss : u.ss = r.ss) (hf : Framed s.bus.memory top r) :
    runOpcode 0xCF (withRegisters s (u.setWord .sp top)) = .ok () (withRegisters s
      (Registers.setWord { u with cs := r.cs, ip := r.ip, flags := r.flags } .sp sp)) := by
  have hop : (runOpcode 0xCF : Exec (Board δ) Unit) = execute .returnInterrupt := rfl
  have h2 : top + 2 + 2 = top + 4 := by grind
  have h4 : top + 4 + 2 = sp := by grind
  let u1 : Registers := { u with ip := r.ip }
  let u2 : Registers := { u1 with cs := r.cs }
  have hip : popWord (withRegisters s (u.setWord .sp top)) =
      .ok r.ip (withRegisters s (u.setWord .sp (top + 2))) := by
    rw [← hf.ip, ← hss]
    exact run_popWord_at h u rfl
  have hcs : popWord (withRegisters s (u1.setWord .sp (top + 2))) =
      .ok r.cs (withRegisters s (u1.setWord .sp (top + 4))) := by
    rw [← hf.cs, ← hss]
    exact run_popWord_at h u1 h2
  have hflags : popWord (withRegisters s (u2.setWord .sp (top + 4))) =
      .ok r.flags.toWord (withRegisters s (u2.setWord .sp sp)) := by
    rw [← hf.flags, ← hss]
    exact run_popWord_at h u2 h4
  have hjump : jumpTo r.ip (withRegisters s (u.setWord .sp (top + 2))) =
      .ok () (withRegisters s (u1.setWord .sp (top + 2))) := rfl
  have hsegment : modifyRegisters (fun q => { q with cs := r.cs })
      (withRegisters s (u1.setWord .sp (top + 4))) =
      .ok () (withRegisters s (u2.setWord .sp (top + 4))) := rfl
  rw [hop]
  refine (bind_ok _ hip).trans ?_
  refine (bind_ok _ hjump).trans ?_
  refine (bind_ok _ hcs).trans ?_
  refine (bind_ok _ hsegment).trans ?_
  refine (bind_ok _ hflags).trans ?_
  rw [Flags.ofWord_toWord]
  rfl

/-- The return from interrupt as it is fetched, behind whatever prefixes. -/
theorem run_fetchedReturn (h : Roomy s) {r : Registers} {top sp : UInt16}
    (hop : s.bus.memory.peek (linear s.cpu.registers.cs s.cpu.registers.ip) = 0xCF)
    (htop : s.cpu.registers.word .sp = top) (hsp : top + 6 = sp) (hss : s.cpu.registers.ss = r.ss)
    (hf : Framed s.bus.memory top r) (rep : Option UInt8) (n : Nat) :
    runInstruction rep (n + 1) s = .ok () (withRegisters s
      (Registers.setWord
        { s.cpu.registers with cs := r.cs, ip := r.ip, flags := r.flags } .sp sp)) := by
  let past : Registers := { s.cpu.registers with ip := s.cpu.registers.ip + 1 }
  have hfetch : fetchByte s = .ok 0xCF (withRegisters s past) := by
    rw [run_fetchByte h, hop]
  have hpast : past = past.setWord .sp top := by
    rw [← htop]
    exact (past.setWord_self .sp).symm
  have hrun : runPrefixed rep 0xCF (withRegisters s past) =
      runOpcode 0xCF (withRegisters s (past.setWord .sp top)) := by
    rw [← hpast]
    cases rep <;> rfl
  refine (bind_ok _ hfetch).trans (hrun.trans ?_)
  exact run_returnInterrupt (u := past) h hsp hss hf

/-- Entry to a vector and return from interrupt undo each other. The entry leaves IP, CS and flags
in the six bytes below the stack pointer, turns interrupts and single steps off and goes where the
vector table points to, all else being as before. A return in any state with these six bytes and
this stack pointer restores what was there before and touches nothing else of that state. -/
theorem interrupt_return_inverse (h : Roomy s) (vector : UInt8) :
    ∃ m : Memory,
      let r := s.cpu.registers
      let top := r.word .sp - 6
      enterVector vector s = .ok () (withRegisters (withMemory s m)
        (Registers.setWord
          { r with
            cs := m.word 0 (vector.toUInt16 * 4 + 2)
            ip := m.word 0 (vector.toUInt16 * 4)
            flags := { r.flags with interrupt := false, trap := false } } .sp top)) ∧
      m.size = s.bus.memory.size ∧
      Framed m top r ∧
      (∀ a, (∀ i < 6, linear r.ss (top + UInt16.ofNat i) ≠ a) → m.peek a = s.bus.memory.peek a) ∧
      ∀ (u : System (Board δ)) (rep : Option UInt8) (n : Nat), Roomy u →
        u.cpu.registers.ss = r.ss → u.cpu.registers.word .sp = top →
        (∀ i < 6, u.bus.memory.peek (linear r.ss (top + UInt16.ofNat i)) =
          m.peek (linear r.ss (top + UInt16.ofNat i))) →
        u.bus.memory.peek (linear u.cpu.registers.cs u.cpu.registers.ip) = 0xCF →
        runInstruction rep (n + 1) u = .ok () (withRegisters u
          (Registers.setWord
            { u.cpu.registers with cs := r.cs, ip := r.ip, flags := r.flags } .sp
              (r.word .sp))) := by
  refine ⟨withFrame s.bus.memory (s.cpu.registers.word .sp - 6) s.cpu.registers, ?_⟩
  intro r top
  refine ⟨?_, size_withFrame .., framed_withFrame h top r, fun a ha => peek_withFrame ha, ?_⟩
  · have henter := run_enterVector (s := s) h r (rfl : r.word .sp - 6 = top) vector
    rw [Registers.setWord_self] at henter
    exact henter
  · -- the frame was there at the entry, and its bytes are what the handler has kept
    intro u rep n hu hss hsp hbytes hop
    have hframed := framed_withFrame h top r
    have hsum : top + 6 = r.word .sp := UInt16.sub_add_cancel _ _
    exact run_fetchedReturn hu hop hsp hsum hss (hframed.congr hbytes) rep n

end Run

def atStackEnd : Registers :=
  { eax := 0x41, esp := 2, ss := 0x1000, cs := 0xF00, ip := 0x1234 }

/-- A board without devices. All its vectors lead to address 0, where an interrupt returns. -/
def returning (m : Memory) : System (Board ExpansionCard) where
  cpu := { registers := atStackEnd }
  bus :=
    { memory := m.poke 0 0xCF
      controller := .initial
      components := []
      owners := []
      ignoreUnknownPorts := true }

/-- An interrupt that returns at once comes back with all registers as they were. -/
theorem returning_comes_back :
    let s := returning (Memory.zeroed Memory.defaultSize)
    ∃ t : System (Board ExpansionCard), enterVector 0x21 s = .ok () t ∧
      t.cpu.registers.word .sp = 0xFFFC ∧
      runInstruction none 1 t = .ok () (withRegisters t s.cpu.registers) := by
  have hm : 0x100000 ≤ (Memory.zeroed Memory.defaultSize).size := by
    rw [Memory.size_zeroed]
    exact Nat.le_refl _
  have hzero : ∀ a, (Memory.zeroed Memory.defaultSize).peek a = 0 := Memory.peek_zeroed _
  -- nothing is to be evaluated byte by byte
  generalize Memory.zeroed Memory.defaultSize = m at hm hzero ⊢
  have hroom : Roomy (returning m) := by
    change 0x100000 ≤ (m.poke 0 0xCF).size
    rwa [Memory.size_poke]
  have hpoked : ∀ a, (m.poke 0 0xCF).peek a = if a = 0 then 0xCF else 0 := by
    intro a
    rw [Memory.peek_poke (Nat.lt_of_lt_of_le (by decide) hm), hzero]
  obtain ⟨f, henter, hsize, _, hkept, hreturn⟩ := interrupt_return_inverse hroom 0x21
  have hoff : ∀ i < 6, 0x88 ≤ linear 0x1000 (atStackEnd.word .sp - 6 + UInt16.ofNat i) := by decide
  have hpeek : ∀ a < 0x88, f.peek a = if a = 0 then 0xCF else 0 := by
    intro a ha
    have hne : ∀ i < 6, linear 0x1000 (atStackEnd.word .sp - 6 + UInt16.ofNat i) ≠ a :=
      fun i hi he => UInt32.not_lt.2 (hoff i hi) (he ▸ ha)
    exact (hkept a hne).trans (hpoked a)
  have hword : ∀ a ∈ [(0x84 : UInt32), 0x86], joined (f.peek a) (f.peek (a + 1)) = 0 := by
    intro a ha
    obtain rfl | rfl : a = 0x84 ∨ a = 0x86 := by simpa using ha
    · rw [hpeek _ (by decide), hpeek _ (by decide)]
      rfl
    · rw [hpeek _ (by decide), hpeek _ (by decide)]
      rfl
  have hip : f.word 0 ((0x21 : UInt8).toUInt16 * 4) = 0 := hword 0x84 (by decide)
  have hcs : f.word 0 ((0x21 : UInt8).toUInt16 * 4 + 2) = 0 := hword 0x86 (by decide)
  rw [hip, hcs] at henter
  let inside : Registers := { atStackEnd with cs := 0, ip := 0 }
  let t := withRegisters (withMemory (returning m) f) (inside.setWord .sp 0xFFFC)
  have hsp : t.cpu.registers.word .sp = 0xFFFC := inside.word_setWord .sp 0xFFFC
  have htop : atStackEnd.word .sp - 6 = 0xFFFC := by decide
  have hop : t.bus.memory.peek (linear t.cpu.registers.cs t.cpu.registers.ip) = 0xCF := by
    have hstart : linear 0 0 = 0 := by decide
    change f.peek (linear 0 0) = 0xCF
    rw [hstart]
    exact hpeek 0 (by decide)
  have hback := hreturn t none 0 (roomy_at (hsize ▸ hroom)) rfl (hsp.trans htop.symm)
    (fun _ _ => rfl) hop
  have hregisters : Registers.setWord { inside.setWord .sp 0xFFFC with
      cs := atStackEnd.cs, ip := atStackEnd.ip, flags := atStackEnd.flags } .sp
        (atStackEnd.word .sp) = atStackEnd := by decide
  refine ⟨t, ?_, hsp, hback.trans ?_⟩
  · exact henter
  · exact congrArg (fun q => EStateM.Result.ok () (withRegisters t q)) hregisters

end Pc8086.Cpu

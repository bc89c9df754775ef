import Pc8086.Proofs.Cpu.AlternateEncodings
import Pc8086.Proofs.Cpu.Stack
import Pc8086.Proofs.Cpu.SegmentedAccess

namespace Pc8086.Cpu

open Exec

section Encodings

variable {c : Cpu} {β : Type} [Bus β]

theorem encodes_pushRegister (r : Reg) :
    Encodes c [0x50 + r.code] (.pushRegister c.prefixes.operandWidth r) :=
  encodes_of_isPlain (.push r) (by cases r <;> rfl) rfl fun _ _ =>
    .look (reads_widthOf .current) (reads_pure _)

theorem encodes_popRegister (r : Reg) :
    Encodes c [0x58 + r.code] (.pop c.prefixes.operandWidth (.register r)) :=
  encodes_of_isPlain (.pop r) (by cases r <;> rfl) rfl fun _ _ =>
    .look (reads_widthOf .current) (reads_pure _)

theorem encodes_popMemory (r : Reg) :
    Encodes c [0x8F, registerByte 0 r] (.pop c.prefixes.operandWidth (.register r)) :=
  encodes_of_isPlain .popMemory rfl rfl fun _ _ =>
    .look (reads_widthOf .current) (.last (reads_registerByte (by decide) r) (reads_pure _))

/-- Behind its opcode the instruction takes the rest of its bytes. -/
theorem Encodes.runOpcode {b : UInt8} {rest : List UInt8} {i : Instruction} {s t : System β}
    (h : Encodes s.cpu (b :: rest) i) (ht : Supplies s rest t) :
    Exec.runOpcode b s = execute i t := by
  obtain ⟨_, _, hbytes, -, -, hreads⟩ := h
  cases hbytes
  rw [runOpcode_eq, bind_ok _ (hreads β s t rfl ht)]

theorem relocatable_pop (w : Width) (target : Place) :
    Relocatable (execute (.pop w target) : Exec β Unit) := by
  refine Relocatable.bind ?_ fun v => relocatable_writePlace w v target
  refine relocatable_registers (fun r => ?_) fun _ _ => rfl
  exact (relocatable_readBytes _ _ _).bind fun _ =>
    (relocatable_modify fun _ _ => rfl).bind fun _ => relocatable_pure _

/-- But for a word of the stack pointer, what is pushed is the register. -/
theorem execute_pushRegister {w : Width} {r : Reg} (h : ¬(w = .word ∧ r = .sp)) :
    (execute (.pushRegister w r) : Exec β Unit) = execute (.push w (.register r)) := by
  unfold execute
  simp only [if_neg h]
  rfl

theorem relocatable_pushRegister (w : Width) (r : Reg) :
    Relocatable (execute (.pushRegister w r) : Exec β Unit) := by
  by_cases h : w = .word ∧ r = .sp
  · obtain ⟨rfl, rfl⟩ := h
    exact relocatable_registers (fun q => relocatable_push .word (q.word .sp - 2).toUInt32)
      fun _ _ => rfl
  · rw [execute_pushRegister h]
    exact relocatable_pushSource w (.register r)

end Encodings

variable {δ : Type} [Peripheral δ] {s : System (Board δ)}

section Writing

variable {i : Segment} {offset : UInt16} {v : UInt32} {n : Nat}

/-- What a write does not reach stays, whether it succeeds or not. By induction on the number of its
bytes. -/
theorem peek_writeBytes_of_ne {a : UInt32}
    (h : ∀ k < n, linear (s.cpu.registers.segment i) (offset + UInt16.ofNat k) ≠ a) :
    (final (writeBytes i offset v n s)).bus.memory.peek a = s.bus.memory.peek a := by
  induction n generalizing offset v s with
  | zero => rfl
  | succ n ih =>
    have h0 : linear (s.cpu.registers.segment i) offset ≠ a := by
      have hfirst := h 0 n.succ_pos
      rwa [add_ofNat_zero] at hfirst
    unfold writeBytes
    have haddress : busAddress i offset s = .ok (linear (s.cpu.registers.segment i) offset) s := rfl
    rw [bind_ok _ haddress]
    by_cases hlt : (linear (s.cpu.registers.segment i) offset).toNat < s.bus.memory.size
    · rw [bind_ok _ (writeByte_of_lt hlt _), ih, ← Memory.peek_poke_of_ne s.bus.memory h0.symm]
      · rfl
      · intro k hk
        rw [← add_ofNat_succ]
        exact h (k + 1) (Nat.succ_lt_succ hk)
    · rw [bind_error _ (writeByte_of_beyond hlt _)]
      rfl

theorem writeBytes_of_beyond
    (h : ¬(linear (s.cpu.registers.segment i) offset).toNat < s.bus.memory.size) :
    writeBytes i offset v (n + 1) s =
      .error (.addressOutOfRange (linear (s.cpu.registers.segment i) offset)) s := by
  unfold writeBytes
  have haddress : busAddress i offset s = .ok (linear (s.cpu.registers.segment i) offset) s := rfl
  rw [bind_ok _ haddress, bind_error _ (writeByte_of_beyond h _)]

theorem peek_writeBytes (hn : n < 0x10000)
    (h : (linear (s.cpu.registers.segment i) offset).toNat < s.bus.memory.size) :
    (final (writeBytes i offset v (n + 1) s)).bus.memory.peek
      (linear (s.cpu.registers.segment i) offset) = v.toUInt8 := by
  unfold writeBytes
  have haddress : busAddress i offset s = .ok (linear (s.cpu.registers.segment i) offset) s := rfl
  rw [bind_ok _ haddress, bind_ok _ (writeByte_of_lt h _), peek_writeBytes_of_ne]
  · exact (Memory.peek_poke h ..).trans (if_pos rfl)
  · exact fun k hk => linear_ne_next _ offset (by omega)

/-- Pushes of different low bytes differ, unless there is no place for these. -/
theorem push_eq_push_iff {w : Width} {v v' : UInt32} (hv : v.toUInt8 ≠ v'.toUInt8) :
    let r := s.cpu.registers
    push w v s = push w v' s ↔
      ¬(linear r.ss (r.word .sp - w.bytes.toUInt16)).toNat < s.bus.memory.size := by
  intro r
  let offset := r.word .sp - w.bytes.toUInt16
  let lowered := withRegisters s (r.setWord .sp offset)
  obtain ⟨n, hn, hlt⟩ : ∃ n, w.bytes = n + 1 ∧ n < 0x10000 := by
    cases w
    · exact ⟨0, rfl, by decide⟩
    · exact ⟨1, rfl, by decide⟩
    · exact ⟨3, rfl, by decide⟩
  have hpush : ∀ v, push w v s = writeBytes .ss offset v (n + 1) lowered := fun v => hn ▸ rfl
  rw [hpush, hpush]
  constructor
  · intro he h
    have hfirst := fun v => peek_writeBytes (s := lowered) (i := .ss) (v := v) hlt h
    apply hv
    rw [← hfirst v, ← hfirst v', he]
  · intro h
    have herror : ∀ v, writeBytes .ss offset v (n + 1) lowered =
        .error (.addressOutOfRange (linear r.ss offset)) lowered :=
      fun v => writeBytes_of_beyond (s := lowered) (i := .ss) h
    rw [herror, herror]

end Writing

theorem toUInt8_sub_two (sp : UInt16) : sp.toUInt32.toUInt8 ≠ (sp - 2).toUInt32.toUInt8 := by
  intro h
  have hbyte := congrArg UInt8.toNat h
  rw [UInt32.toNat_toUInt8, UInt32.toNat_toUInt8, UInt16.toNat_toUInt32, UInt16.toNat_toUInt32,
    UInt16.toNat_sub] at hbyte
  have hsp := sp.toNat_lt
  have htwo : UInt16.toNat 2 = 2 := rfl
  rw [htwo] at hbyte
  omega

/-- A push of a register is the same in both encodings, and so is a pop, but for the instruction
pointer. The one exception is a push of the stack pointer as a word: the opcode of its own stores it
lowered, the other as it was. It shows unless there is no place for the first byte. -/
theorem push_and_pop_encodings_agree (s : System (Board δ)) (r : Reg) :
    let q := s.cpu.registers
    let next := q.ip + 1
    (s.bus.memory.Spells q.cs q.ip [registerByte 6 r] →
      (runOpcode 0xFF s = outcomeAt next (runOpcode (0x50 + r.code) s) ↔
        ¬(s.cpu.prefixes.operandWidth = .word ∧ r = .sp ∧
          (linear q.ss (q.word .sp - 2)).toNat < s.bus.memory.size))) ∧
    (s.bus.memory.Spells q.cs q.ip [registerByte 0 r] →
      runOpcode 0x8F s = outcomeAt next (runOpcode (0x58 + r.code) s)) := by
  intro q next
  let w := s.cpu.prefixes.operandWidth
  constructor
  · intro hcode
    have hlong : runOpcode 0xFF s = execute (.push w (.register r)) (movedTo next s) :=
      (encodes_indirect (by decide) r).runOpcode (supplies_board hcode)
    have hshort : runOpcode (0x50 + r.code) s = execute (.pushRegister w r) s :=
      (encodes_pushRegister r).runOpcode rfl
    rw [hlong, hshort, ← relocatable_pushRegister w r next s]
    -- only for the stack pointer as a word do the values differ, and then in the first byte
    by_cases h : w = .word ∧ r = .sp
    · obtain ⟨hw, rfl⟩ := h
      have hstored : execute (.push .word (.register .sp)) =
          (Exec.registers >>= fun q => push .word (q.word .sp).toUInt32 :
            Exec (Board δ) Unit) := rfl
      have hlowered : execute (.pushRegister .word .sp) =
          (Exec.registers >>= fun q => push .word (q.word .sp - 2).toUInt32 :
            Exec (Board δ) Unit) := rfl
      have hiff := push_eq_push_iff (s := movedTo next s) (w := .word) (toUInt8_sub_two (q.word .sp))
      rw [hw, hstored, hlowered, run_registers, run_registers]
      exact hiff.trans (not_congr ⟨fun h => ⟨hw, rfl, h⟩, fun h => h.2.2⟩)
    · rw [execute_pushRegister h]
      exact iff_of_true rfl fun hp => h ⟨hp.1, hp.2.1⟩
  · intro hcode
    have hlong : runOpcode 0x8F s = execute (.pop w (.register r)) (movedTo next s) :=
      (encodes_popMemory r).runOpcode (supplies_board hcode)
    have hshort : runOpcode (0x58 + r.code) s = execute (.pop w (.register r)) s :=
      (encodes_popRegister r).runOpcode rfl
    rw [hlong, hshort, relocatable_pop]

/-- Both encodings of a push and of a pop of BX, each on a board that begins with the longer one. -/
theorem push_and_pop_encodings_agree_for_bx :
    let s (x : UInt8) : System (Board ExpansionCard) := ⟨{ registers := { esp := 8 } }, loaded [x]⟩
    (s 0xF3).bus.memory.Spells 0 0 [registerByte 6 .bx] ∧
      runOpcode 0xFF (s 0xF3) = outcomeAt 1 (runOpcode 0x53 (s 0xF3)) ∧
      (s 0xC3).bus.memory.Spells 0 0 [registerByte 0 .bx] ∧
      runOpcode 0x8F (s 0xC3) = outcomeAt 1 (runOpcode 0x5B (s 0xC3)) := by
  intro s
  have hpush : (s 0xF3).bus.memory.Spells 0 0 [registerByte 6 .bx] := by decide
  have hpop : (s 0xC3).bus.memory.Spells 0 0 [registerByte 0 .bx] := by decide
  exact ⟨hpush, ((push_and_pop_encodings_agree (s 0xF3) .bx).1 hpush).2 (by decide), hpop,
    (push_and_pop_encodings_agree (s 0xC3) .bx).2 hpop⟩

/-- Where SP is 8 its own opcode stores 6, and the addressing byte has 8 stored. -/
theorem push_encodings_disagree_for_sp :
    let s : System (Board ExpansionCard) := ⟨{ registers := { esp := 8 } }, loaded [0xF4]⟩
    s.bus.memory.Spells 0 0 [registerByte 6 .sp] ∧
      (final (runOpcode 0x54 s)).bus.memory.word 0 6 = 6 ∧
      (final (runOpcode 0xFF s)).bus.memory.word 0 6 = 8 ∧
      runOpcode 0xFF s ≠ outcomeAt 1 (runOpcode 0x54 s) := by
  intro s
  have hshort : (final (runOpcode 0x54 s)).bus.memory.word 0 6 = 6 := by decide +kernel
  have hlong : (final (runOpcode 0xFF s)).bus.memory.word 0 6 = 8 := by decide +kernel
  refine ⟨by decide, hshort, hlong, fun he => ?_⟩
  have hmoved : (final (outcomeAt 1 (runOpcode 0x54 s))).bus = (final (runOpcode 0x54 s)).bus := by
    cases runOpcode 0x54 s <;> rfl
  rw [he, hmoved, hshort] at hlong
  exact absurd hlong (by decide)

end Pc8086.Cpu

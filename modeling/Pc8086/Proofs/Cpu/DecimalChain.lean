import Pc8086.Proofs.Cpu.Decimal
import Pc8086.Proofs.Cpu.MultiWord

namespace Pc8086.Cpu

open Exec
open Alu (AddSub)

section Carry

variable {β : Type} [Bus β]

/-- Besides what may stand between limbs, the strings that copy bytes. -/
def Instruction.betweenDigits : Instruction → Bool
  | .string .move _ | .string .store _ | .string .load _ => true
  | i => i.betweenLimbs

theorem segment_finishElement (c : Cpu) (i : Segment) :
    c.finishElement.registers.segment i = c.registers.segment i := by
  unfold finishElement
  split
  · rfl
  · dsimp only
    split <;> cases i <;> rfl

theorem keepsCarry_between {i : Instruction} (h : i.betweenDigits = true) :
    Keeps carryFlag (execute i : Exec β Unit) := by
  have hcarry : .carry ∉ i.affected := by
    unfold Instruction.betweenDigits at h
    split at h
    · exact List.not_mem_nil
    · exact List.not_mem_nil
    · exact List.not_mem_nil
    · exact carry_not_mem_affected h
  exact keepsFlag_execute hcarry

end Carry

variable {δ : Type} [Peripheral δ] {s t u v : System (Board δ)} {a b r : UInt32} {w : Width}

section Writing

theorem lt_of_writeByte {x : UInt32} {b : UInt8} (h : onBus (Bus.writeByte x b) s = .ok () t) :
    x.toNat < s.bus.memory.size := by
  refine Classical.byContradiction fun hlt => ?_
  rw [writeByte_of_beyond hlt] at h
  cases h

/-- Only bytes that are there can be written. By induction on their number. -/
theorem spans_of_writeBytes {i : Segment} {offset : UInt16} {n : Nat}
    (h : writeBytes i offset a n s = .ok () t) :
    s.bus.memory.Spans (s.cpu.registers.segment i) offset n := by
  induction n generalizing offset a s with
  | zero => exact fun k hk => absurd hk (Nat.not_lt_zero k)
  | succ n ih =>
    unfold writeBytes at h
    have haddress : busAddress i offset s = .ok (linear (s.cpu.registers.segment i) offset) s := rfl
    rw [bind_ok _ haddress] at h
    obtain ⟨_, u, hbyte, hrest⟩ := ok_of_bind h
    have h0 := lt_of_writeByte hbyte
    rw [writeByte_of_lt h0] at hbyte
    cases hbyte
    exact Memory.spans_succ.2 ⟨h0, (ih hrest).congr (Memory.size_poke ..).symm⟩

/-- What was written is read again. -/
theorem exists_readPlace {p : Place} (h : writePlace w a p s = .ok () t) :
    t.cpu.registers.flags = s.cpu.registers.flags ∧
      ∃ r, readPlace w p t = .ok r t ∧ r.toNat = w.toNat a := by
  have hread : ∃ x, readPlace w p s = .ok x s := by
    cases p with
    | register i => exact ⟨_, rfl⟩
    | memory l => exact ⟨_, readBytes_eq_ok_iff.2 ⟨spans_of_writeBytes h, rfl, rfl⟩⟩
  obtain ⟨x, hx⟩ := hread
  obtain ⟨r, t', hwrite, hflags, hr, hvalue⟩ := exists_writePlace hx a
  rw [h] at hwrite
  cases hwrite
  exact ⟨hflags, r, hr, hvalue⟩

theorem readPlace_memory_congr {l : Location}
    (hs : ∀ i, t.cpu.registers.segment i = s.cpu.registers.segment i)
    (hm : t.bus.memory = s.bus.memory) (h : readPlace w (.memory l) s = .ok a s) :
    readPlace w (.memory l) t = .ok a t := by
  obtain ⟨hspans, ha, -⟩ := readBytes_eq_ok_iff.1 h
  rw [← hs, ← hm] at hspans ha
  exact readBytes_eq_ok_iff.2 ⟨hspans, ha, rfl⟩

end Writing

omit [Peripheral δ] in
theorem SameOperands.al (h : SameOperands s t) : t.cpu.registers.al = s.cpu.registers.al := by
  have hread : t.cpu.registers.al.toUInt32 = s.cpu.registers.al.toUInt32 := h.read .byte .ax
  rw [← UInt32.toNat_inj] at hread
  exact UInt8.toNat_inj.1 hread

omit [Peripheral δ] in
theorem SameOperands.di (h : SameOperands s t) :
    t.cpu.registers.word .di = s.cpu.registers.word .di := by
  have hread : (t.cpu.registers.word .di).toUInt32 = (s.cpu.registers.word .di).toUInt32 :=
    h.read .word .di
  rw [← UInt32.toNat_inj] at hread
  exact UInt16.toNat_inj.1 hread

inductive Stores (s : System (Board δ)) : Place → System (Board δ) → Prop
  | move {target : Place} {t : System (Board δ)}
    (h : Completes s (.move .byte target (.register .ax)) t) : Stores s target t
  | string {t : System (Board δ)} (h : Completes s (.string .store .byte) t) :
    Stores s (.memory ⟨.es, s.cpu.registers.word .di⟩) t

theorem Stores.step {p : Place} (h : Stores s p t) : Cpu.step s = .ok () t := by
  cases h with
  | move h => exact h.step
  | string h => exact h.step

theorem Stores.effect {p : Place} (h : Stores s p t) :
    t.cpu.registers.flags.carry = s.cpu.registers.flags.carry ∧
      ∃ r, readPlace .byte p t = .ok r t ∧ r.toNat = s.cpu.registers.al.toNat := by
  cases h with
  | move h =>
    refine ⟨h.keepsCarry (keepsCarry_between rfl), ?_⟩
    obtain ⟨u, v, hu, he, rfl⟩ := h
    have hwrite : writePlace .byte u.cpu.registers.al.toUInt32 p u = .ok () v := he
    obtain ⟨-, r, hr, hvalue⟩ := exists_readPlace hwrite
    refine ⟨r, (sameOperands_retire v).readPlace hr, ?_⟩
    rw [hvalue, hu.sameOperands.1.al]
    exact Width.byte.toNat_eq_self (UInt8.toNat_lt _)
  | string h =>
    refine ⟨h.keepsCarry (keepsCarry_between rfl), ?_⟩
    obtain ⟨u, v, hu, he, rfl⟩ := h
    obtain ⟨e, helement, rfl⟩ := execute_string he
    change (writeTarget .byte u.cpu.registers.al.toUInt32 >>= fun _ => advance .di .byte) u = _
      at helement
    obtain ⟨_, x, hwrite, hadvance⟩ := ok_of_bind helement
    cases hadvance
    have hplace : writePlace .byte u.cpu.registers.al.toUInt32
      (.memory ⟨.es, u.cpu.registers.word .di⟩) u = .ok () x := hwrite
    obtain ⟨-, r, hr, hvalue⟩ := exists_readPlace hplace
    rw [hu.sameOperands.1.di] at hr
    refine ⟨r, (sameOperands_retire _).readPlace (readPlace_memory_congr (s := x) ?_ rfl hr), ?_⟩
    · intro i
      rw [segment_finishElement]
      cases i <;> rfl
    · rw [hvalue, hu.sameOperands.1.al]
      exact Width.byte.toNat_eq_self (UInt8.toNat_lt _)

theorem exists_stores_of_move {p : Place} (h : Begins s (.move .byte p (.register .ax)) u)
    (hr : readPlace .byte p s = .ok r s) : ∃ t, Stores s p t := by
  obtain ⟨_, v, hwrite, -⟩ :=
    exists_writePlace (h.sameOperands.1.readPlace hr) u.cpu.registers.al.toUInt32
  exact ⟨retire v, .move ⟨u, v, h, hwrite, rfl⟩⟩

theorem exists_stores_of_string (h : Begins s (.string .store .byte) u)
    (hr : readPlace .byte (.memory ⟨.es, s.cpu.registers.word .di⟩) s = .ok r s) :
    ∃ t, Stores s (.memory ⟨.es, s.cpu.registers.word .di⟩) t := by
  have hsame := h.sameOperands.1
  obtain ⟨_, v, hwrite, -⟩ :=
    exists_writePlace (hsame.readPlace hr) u.cpu.registers.al.toUInt32
  rw [← hsame.di] at hwrite
  have htarget : writeTarget .byte u.cpu.registers.al.toUInt32 u = .ok () v := hwrite
  have helement : element .byte .store u = _ := bind_ok (fun _ => advance .di .byte) htarget
  have hexecute : execute (.string .store .byte) u = _ :=
    bind_ok (fun _ => modifyCpu finishElement) helement
  exact ⟨_, .string ⟨u, _, h, hexecute, rfl⟩⟩

namespace Decimal

variable {d : Decimal} {op : AddSub} {source : Source} {target : Place}

theorem execute_adjustment (d : Decimal) (op : AddSub) (s : System (Board δ)) :
    execute (d.adjustment op) s =
      .ok () { s with cpu.registers := d.adjust op s.cpu.registers } := by
  cases d <;> cases op <;> rfl

/-- An adjustment looks at AL and the flags. -/
theorem adjusted_of_completes (h : Completes s (d.adjustment op) t) :
    ∃ r : Registers, r.al = s.cpu.registers.al ∧ r.flags = s.cpu.registers.flags ∧
      t.cpu.registers.al = (d.adjust op r).al ∧
      t.cpu.registers.flags = (d.adjust op r).flags := by
  obtain ⟨u, v, hu, he, rfl⟩ := h
  obtain ⟨hsame, hflags⟩ := hu.sameOperands
  rw [execute_adjustment] at he
  cases he
  exact ⟨u.cpu.registers, hsame.al, hflags, (sameOperands_retire _).al, rfl⟩

/-- A byte of digits is added to or subtracted from AL with the carry, adjusted and stored. -/
inductive Step (d : Decimal) (op : AddSub) (s : System (Board δ)) (a b r : UInt32)
    (t : System (Board δ)) : Prop
  | mk {source : Source} {target : Place} {u v : System (Board δ)} {x : UInt32}
    (hlimb : LimbStep op true .byte (.register .ax) source s a b x u)
    (hadjust : Completes u (d.adjustment op) v) (hstore : Stores v target t)
    (hresult : readPlace .byte target t = .ok r t)

theorem Step.effect (h : Step d op s a b r t) (ha : d.Valid a.toNat) (hb : d.Valid b.toNat) :
    d.Makes op a.toNat b.toNat s.cpu.registers.flags.carry r.toNat
      t.cpu.registers.flags.carry := by
  cases h with
  | @mk source target u v x hlimb hadjust hstore hresult =>
    obtain ⟨hx, hflags⟩ := hlimb.effect
    obtain ⟨q, hal, hqflags, hadjusted, hadjustedFlags⟩ := adjusted_of_completes hadjust
    obtain ⟨hcarry, r', hr', hvalue⟩ := hstore.effect
    cases hresult.symm.trans hr'
    have hlow : u.cpu.registers.al.toUInt32 = x := (EStateM.Result.ok.inj hlimb.result).1
    have hcomputed : Computed op a.toNat b.toNat s.cpu.registers.flags.carry q := by
      refine computed_of_compute (lt_of_valid ha) (lt_of_valid hb) ?_ (hqflags.trans hflags)
      rw [hal, ← UInt8.toNat_toUInt32, hlow]
      exact hx
    rw [hvalue, hadjusted, hcarry, hadjustedFlags]
    exact hcomputed.adjust_digits ha hb

/-- Two numbers are added or subtracted by bytes of digits, the lowest first, from a clear carry. -/
inductive Chain (d : Decimal) (op : AddSub) : List UInt32 → List UInt32 → List UInt32 →
    System (Board δ) → Prop
  | start {s : System (Board δ)} (h : s.cpu.registers.flags.carry = false) : Chain d op [] [] [] s
  | next {as bs rs : List UInt32} {s t u : System (Board δ)} {a b r : UInt32}
    (hrest : Chain d op as bs rs s) (hi : Interlude s t) (h : Step d op t a b r u) :
    Chain d op (as ++ [a]) (bs ++ [b]) (rs ++ [r]) u

variable {as bs rs : List UInt32}

/-- By induction on the chain: the carry goes from byte to byte. -/
theorem Chain.carries (h : d.Chain op as bs rs t) (ha : ∀ a ∈ as, d.Valid a.toNat)
    (hb : ∀ b ∈ bs, d.Valid b.toNat) : d.Carries op as bs rs t.cpu.registers.flags.carry := by
  induction h with
  | start h =>
    rw [h]
    exact carries_nil d op
  | next _ hi h ih =>
    rw [List.forall_mem_append, List.forall_mem_singleton] at ha hb
    have hmakes := h.effect ha.2 hb.2
    rw [hi.carry] at hmakes
    exact (ih ha.1 hb.1).append hmakes

end Decimal

/-- Decimal sums and differences of any length, packed or not. Steps up and down, moves, loops and
copied bytes keep the carry flag. A byte that can be read is added to AL or subtracted from it with
the carry, the adjustment never fails, and AL is stored where a byte can be read. Whatever keeps the
carry between the bytes, the results are the digits of the sum or difference cut to the length of
the numbers, and in the end the carry tells whether it was cut. -/
theorem digits_make_sum_or_difference (d : Decimal) (op : AddSub) :
    (∀ i : Instruction, i.betweenDigits = true →
      Keeps carryFlag (execute i : Exec (Board δ) Unit)) ∧
    (∀ source (s u : System (Board δ)) b,
      Begins s (.arithmetic (op.operation true) .byte (.register .ax) source) u →
      readSource .byte source s = .ok b s →
      ∃ x t, LimbStep op true .byte (.register .ax) source s s.cpu.registers.al.toUInt32 b x t) ∧
    (∀ s u : System (Board δ), Begins s (d.adjustment op) u →
      ∃ t, Completes s (d.adjustment op) t) ∧
    (∀ p (s u : System (Board δ)) x, readPlace .byte p s = .ok x s →
      Begins s (.move .byte p (.register .ax)) u ∨
        p = .memory ⟨.es, s.cpu.registers.word .di⟩ ∧ Begins s (.string .store .byte) u →
      ∃ t r, Stores s p t ∧ readPlace .byte p t = .ok r t ∧
        r.toNat = s.cpu.registers.al.toNat) ∧
    ∀ as bs rs (t : System (Board δ)), d.Chain op as bs rs t → (∀ a ∈ as, d.Valid a.toNat) →
      (∀ b ∈ bs, d.Valid b.toNat) → d.Yields op as bs rs t.cpu.registers.flags.carry := by
  refine ⟨fun i => keepsCarry_between, ?_, ?_, ?_,
    fun as bs rs t h ha hb => (h.carries ha hb).yields⟩
  · intro source s u b h hb
    obtain ⟨x, t, hstep, -, -⟩ := exists_limbStep h (readPlace_register rfl) hb
    exact ⟨x, t, hstep⟩
  · intro s u h
    exact ⟨_, u, _, h, Decimal.execute_adjustment d op u, rfl⟩
  · intro p s u x hx h
    have hstores : ∃ t, Stores s p t := by
      rcases h with h | ⟨rfl, h⟩
      · exact exists_stores_of_move h hx
      · exact exists_stores_of_string h hx
    obtain ⟨t, ht⟩ := hstores
    obtain ⟨-, r, hr, hvalue⟩ := ht.effect
    exact ⟨t, r, ht, hr, hvalue⟩

/-- Two numbers of four digits in AX and BX. The program adds their low bytes in AL and stores the
sum, moves AH to AL, and does the same with the high bytes. -/
def fourDigits : System (Board ExpansionCard) where
  cpu := { registers := { eax := 0x5558, ebx := 0x6667, edi := 12 } }
  bus := loaded [0x10, 0xD8, 0x27, 0xAA, 0x88, 0xE0, 0x10, 0xF8, 0x27, 0xAA]

def fourDigitsProgram : Vector Instruction 7 :=
  #v[.arithmetic .adc .byte (.register .ax) (.register .bx), .adjustAfterAdd,
    .string .store .byte, .move .byte (.register .ax) (.register .sp),
    .arithmetic .adc .byte (.register .ax) (.register .di), .adjustAfterAdd,
    .string .store .byte]

theorem completes_fourDigits : ∀ n, (h : n < 7) →
    Completes (stepped fourDigits n) fourDigitsProgram[n] (stepped fourDigits (n + 1)) := by
  have hcalm : ∀ n < 7, Bus.holdRequested (stepped fourDigits n).bus = false ∧
      (stepped fourDigits n).cpu.registers.flags.interrupt = false ∧
      (stepped fourDigits n).cpu.halted = false ∧
      (stepped fourDigits n).cpu.registers.flags.trap = false := by
    decide +kernel
  have hdecodes : ∀ n, (h : n < 7) → result? (decodeInstruction none segmentSize
      (begun (sampled (stepped fourDigits n)))) = some fourDigitsProgram[n] := by
    decide +kernel
  have hexecutes : ∀ n, (h : n < 7) → fault? (execute fourDigitsProgram[n]
      (final (decodeInstruction none segmentSize (begun (sampled (stepped fourDigits n)))))) =
      none := by
    decide +kernel
  intro n h
  obtain ⟨hf, hu, hr, ht⟩ := hcalm n h
  exact completes_of_decodes hf hu hr ht (hdecodes n h) (hexecutes n h)

/-- The sum of 5558 and 6667 has five digits, and its low bytes make a carry for the high ones. -/
theorem digits_make_sum_of_five_digits :
    let t := stepped fourDigits 7
    Decimal.packed.Chain .sum [0x58, 0x55] [0x67, 0x66] [0x25, 0x22] t ∧
      readPlace .word (.memory ⟨.es, 12⟩) t = .ok 0x2225 t ∧
      Decimal.packed.number [0x58, 0x55] = 5558 ∧ Decimal.packed.number [0x67, 0x66] = 6667 ∧
      Decimal.packed.number [0x25, 0x22] = 2225 ∧ t.cpu.registers.flags.carry = true ∧
      Keeps carryFlag (execute (.string .load .byte) : Exec (Board ExpansionCard) Unit) := by
  intro t
  obtain ⟨hkeeps, hadds, hadjusts, hstores, hyields⟩ :=
    digits_make_sum_or_difference (δ := ExpansionCard) .packed .sum
  -- One byte of digits: what can be done from a state is what the run does there.
  have hdigits : ∀ {s t₁ t₂ t₃ : System (Board ExpansionCard)} {i : Reg} {r : UInt32},
      Completes s (.arithmetic .adc .byte (.register .ax) (.register i)) t₁ →
      Completes t₁ .adjustAfterAdd t₂ → Completes t₂ (.string .store .byte) t₃ →
      t₂.bus.memory.Spans (t₂.cpu.registers.segment .es) (t₂.cpu.registers.word .di) 1 →
      t₂.cpu.registers.al.toNat = r.toNat →
      Decimal.packed.Step .sum s s.cpu.registers.al.toUInt32 (s.cpu.registers.read .byte i) r
        t₃ := by
    intro s t₁ t₂ t₃ i r hadd hadjust hstore hspans hr
    obtain ⟨u, -, hadding, -⟩ := id hadd
    obtain ⟨x, p, hlimb⟩ := hadds (.register i) s u _ hadding rfl
    obtain rfl := hlimb.completes.unique hadd
    obtain ⟨u', -, hadjusting, -⟩ := id hadjust
    obtain ⟨p', hadjusted⟩ := hadjusts p u' hadjusting
    obtain rfl := hadjusted.unique hadjust
    have hroom : readPlace .byte (.memory ⟨.es, p'.cpu.registers.word .di⟩) p' = .ok _ p' :=
      readBytes_eq_ok_iff.2 ⟨hspans, rfl, rfl⟩
    obtain ⟨v, -, hstoring, -⟩ := id hstore
    obtain ⟨q, r', hstored, hr', hvalue⟩ := hstores _ p' v _ hroom (.inr ⟨rfl, hstoring⟩)
    obtain rfl := (EStateM.Result.ok.inj (hstore.step.symm.trans hstored.step)).2
    obtain rfl := UInt32.toNat_inj.1 (hvalue.trans hr)
    exact ⟨hlimb, hadjusted, hstored, hr'⟩
  have hlowAdd : Completes fourDigits (.arithmetic .adc .byte (.register .ax) (.register .bx))
      (stepped fourDigits 1) := completes_fourDigits 0 (by decide)
  have hlowAdjust : Completes (stepped fourDigits 1) .adjustAfterAdd (stepped fourDigits 2) :=
    completes_fourDigits 1 (by decide)
  have hlowStore : Completes (stepped fourDigits 2) (.string .store .byte)
      (stepped fourDigits 3) := completes_fourDigits 2 (by decide)
  have hmove : Completes (stepped fourDigits 3) (.move .byte (.register .ax) (.register .sp))
      (stepped fourDigits 4) := completes_fourDigits 3 (by decide)
  have hhighAdd : Completes (stepped fourDigits 4)
      (.arithmetic .adc .byte (.register .ax) (.register .di)) (stepped fourDigits 5) :=
    completes_fourDigits 4 (by decide)
  have hhighAdjust : Completes (stepped fourDigits 5) .adjustAfterAdd (stepped fourDigits 6) :=
    completes_fourDigits 5 (by decide)
  have hhighStore : Completes (stepped fourDigits 6) (.string .store .byte) t :=
    completes_fourDigits 6 (by decide)
  have hlow := hdigits (r := 0x25) hlowAdd hlowAdjust hlowStore (by decide +kernel)
    (by decide +kernel)
  have hhigh := hdigits (r := 0x22) hhighAdd hhighAdjust hhighStore (by decide +kernel)
    (by decide +kernel)
  have hread : (stepped fourDigits 4).cpu.registers.al.toUInt32 = 0x55 ∧
      (stepped fourDigits 4).cpu.registers.read .byte .di = 0x66 := by
    decide +kernel
  rw [hread.1, hread.2] at hhigh
  have hclear : fourDigits.cpu.registers.flags.carry = false := rfl
  have hchain : Decimal.packed.Chain .sum [0x58, 0x55] [0x67, 0x66] [0x25, 0x22] t :=
    .next (.next (.start hclear) (.done _) hlow) (.step hmove (hkeeps _ rfl) (.done _)) hhigh
  have hleft : ∀ a ∈ [(0x58 : UInt32), 0x55], Decimal.packed.Valid a.toNat :=
    List.forall_mem_cons.2 ⟨by decide +kernel, List.forall_mem_singleton.2 (by decide +kernel)⟩
  have hright : ∀ b ∈ [(0x67 : UInt32), 0x66], Decimal.packed.Valid b.toNat :=
    List.forall_mem_cons.2 ⟨by decide +kernel, List.forall_mem_singleton.2 (by decide +kernel)⟩
  obtain ⟨-, -, -, -, hcarry⟩ := hyields _ _ _ t hchain hleft hright
  have hstored : t.bus.memory.Spans (t.cpu.registers.segment .es) 12 2 ∧
      0x2225 = t.bus.memory.load (t.cpu.registers.segment .es) 12 2 := by
    decide +kernel
  exact ⟨hchain, readBytes_eq_ok_iff.2 ⟨hstored.1, hstored.2, rfl⟩, by decide +kernel,
    by decide +kernel, by decide +kernel, hcarry.2 (by decide +kernel), hkeeps _ rfl⟩

end Pc8086.Cpu

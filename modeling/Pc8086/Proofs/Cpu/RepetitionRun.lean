import Pc8086.Board.ScratchCard
import Pc8086.Proofs.Cpu.Repetition

namespace Pc8086.Cpu

open Exec

namespace Repetition

section Step

variable {δ : Type} [Peripheral δ] {x : Repetition} {s t : System (Board δ)} {k : Nat}

def behind (x : Repetition) (s : System (Board δ)) : UInt16 :=
  s.cpu.registers.ip + UInt16.ofNat x.bytes.length

def entered (x : Repetition) (s : System (Board δ)) : System (Board δ) :=
  fetched x.prefixes (begun (sampled s))

theorem entered_registers (x : Repetition) (s : System (Board δ)) :
    (x.entered s).cpu.registers = s.cpu.registers.positioned (x.behind s) (count s) := by
  have hlen : x.bytes.length = x.prefixes.length + 1 := List.length_append
  rw [behind, hlen]
  exact (Registers.positioned_self (x.entered s).cpu.registers).symm

theorem entered_prefixes (h : x.Ready s) :
    (x.entered s).cpu.prefixes = collected x.prefixes {} := by
  change collected x.prefixes (if s.cpu.prefixes.isRepeating then _ else _) = _
  rw [h.fresh]
  rfl

theorem entered_latestFirst (h : x.Ready s) :
    (x.entered s).cpu.prefixes.latestFirst = x.prefixes.reverse := by
  rw [entered_prefixes h, collected_latestFirst, List.append_nil]

theorem entered_fresh (h : x.Ready s) : (x.entered s).cpu.prefixes.isRepeating = false := by
  rw [entered_prefixes h]
  exact collected_isRepeating x.prefixes rfl

theorem Ready.runInstruction (h : x.Ready s) :
    Exec.runInstruction none segmentSize (begun (sampled s)) =
      runPrefixed (some x.rep) x.opcode (x.entered s) := by
  have hb : Roomy (begun (sampled s)) := h.roomy
  have hp := not_isPrefix_of_string x.decodes
  have hlt := length_lt_of_holds h.code x.isPrefix hp
  rw [runInstruction_prefixed hb h.code x.isPrefix hp none hlt, x.last]
  rfl

/-- A step is the instruction and a clock pulse, since nothing else is due. -/
theorem Ready.step (h : x.Ready s) (ht : ¬Taken s)
    (hr : runPrefixed (some x.rep) x.opcode (x.entered s) = .ok () t) :
    Cpu.step s = .ok () (retire t) := by
  have hi : iteration s = .ok () t := by
    have hrun : (sampled s).cpu.halted = false := h.running
    have htrap : (sampled s).cpu.registers.flags.trap = false := h.trap
    rw [iteration_eq, bind_ok _ (serviceInterrupt_of_not_taken ht),
      instructionPhase_of_running hrun, htrap, bind_ok _ (h.runInstruction.trans hr)]
    rfl
  rw [step_of_not_held h.free, hi]

theorem at_zero (h : x.Ready s) : x.At s s.cpu.registers.ip 0 s where
  registers := by
    change _ = s.cpu.registers.positioned _ (count s - 0)
    rw [UInt16.sub_zero]
    exact s.cpu.registers.positioned_self.symm
  memory := rfl
  running := h.running
  fresh := h.fresh
  free := h.free

/-- The instruction's bytes stay what they are, since the elements lie elsewhere. -/
theorem performed_holds (h : x.Ready s) (ha : x.Apart s) (hk : k ≤ x.elements s) :
    (x.performed s k).bus.memory.Holds s.cpu.registers.cs s.cpu.registers.ip x.bytes := by
  induction k with
  | zero => exact h.code
  | succ k ih =>
    have hkept := x.performed_kept h.roomy k
    have hes : (x.performed s k).cpu.registers.es = s.cpu.registers.es := hkept.segment .es
    rw [performed_succ x h.roomy]
    refine (ih (by omega)).congr fun j hj => ?_
    refine peek_elementEffect _ _ _ _ _ fun hw i hi => ?_
    rw [hes]
    exact ha hw k hk i hi j hj

/-- Between elements the instruction is the next one again. -/
theorem At.ready (hat : x.At s s.cpu.registers.ip k t) (h : x.Ready s) (ha : x.Apart s)
    (hk : k ≤ x.elements s) : x.Ready t := by
  have hkept := x.performed_kept h.roomy k
  have hcs : (x.performed s k).cpu.registers.cs = s.cpu.registers.cs := hkept.segment .cs
  have hcode := performed_holds h ha hk
  rw [← hat.memory, ← hcs] at hcode
  exact {
    roomy := by
      unfold Roomy
      rw [hat.memory]
      exact hkept.roomy h.roomy
    trap := by
      rw [hat.registers]
      exact hkept.trap.trans h.trap
    running := hat.running
    fresh := hat.fresh
    free := hat.free
    code := by
      rw [hat.registers]
      exact hcode }

/-- A step that finds a count of zero passes over the instruction. -/
theorem Ready.step_zero (h : x.Ready s) (ht : ¬Taken s) (hc : count s = 0) :
    ∃ t, Cpu.step s = .ok () t ∧ x.At s (x.behind s) 0 t := by
  have hc' : count (x.entered s) = 0 := hc
  refine ⟨_, h.step ht (runPrefixed_of_zero hc'), ?_⟩
  exact {
    registers := by
      change (x.entered s).cpu.registers = s.cpu.registers.positioned _ (count s - 0)
      rw [entered_registers, UInt16.sub_zero]
    memory := rfl
    running := h.running
    fresh := entered_fresh h
    free := h.free }

/-- An element of the instruction at work is one of the opcode alone. -/
theorem At.effect (hat : x.At s s.cpu.registers.ip k t) (h : Roomy s) :
    x.effect (x.entered t).cpu.registers (x.entered t).bus.memory =
      ((x.performed s (k + 1)).cpu.registers.positioned (x.behind t) (count t),
        (x.performed s (k + 1)).bus.memory) := by
  have hr : (x.entered t).cpu.registers =
      (x.performed s k).cpu.registers.positioned (x.behind t) (count t) := by
    rw [entered_registers, hat.registers, Registers.positioned_positioned]
  have hm : (x.entered t).bus.memory = (x.performed s k).bus.memory := hat.memory
  rw [hr, hm, performed_succ x h]
  exact elementEffect_positioned ..

/-- A step performs an element and goes back to the first prefix unless it was the last one. -/
theorem At.step (hat : x.At s s.cpu.registers.ip k t) (h : Roomy s) (hr : x.Ready t)
    (ht : ¬Taken t) (hk : k < x.elements s) :
    ∃ u, Cpu.step t = .ok () u ∧
      x.At s (if k + 1 < x.elements s then s.cpu.registers.ip else x.behind s) (k + 1) u := by
  have hstart : (x.entered t).cpu.instructionStart = s.cpu.registers.ip := by
    change t.cpu.registers.ip = _
    rw [hat.registers]
    rfl
  have hend : (x.entered t).cpu.registers.ip = x.behind s :=
    (congrArg Registers.ip (entered_registers x t)).trans
      (congrArg (· + UInt16.ofNat x.bytes.length) hstart)
  have hcount : count (x.entered t) = count s - UInt16.ofNat k := by
    change count t = _
    rw [count, hat.registers, Registers.count_positioned]
  have hnext : count (x.entered t) - 1 = count s - UInt16.ofNat (k + 1) := by
    rw [hcount, UInt16.ofNat_add]
    change _ = count s - (UInt16.ofNat k + 1)
    grind
  have hne : count (x.entered t) ≠ 0 := by
    have hle := x.elements_le s
    rw [hcount, ne_eq, sub_ofNat_eq_zero_iff (by omega)]
    omega
  have hroomy : Roomy (x.entered t) := hr.roomy
  have hrun := runPrefixed_of_ne_zero hroomy (entered_latestFirst hr) hne
  have he := hat.effect h
  refine ⟨_, hr.step ht hrun, ?_⟩
  exact {
    registers := by
      -- whether the processor goes back is told by the same condition as whether an element is left
      change Registers.positioned _ (if _ then _ else _) (count (x.entered t) - 1) = _
      rw [he, Registers.positioned_positioned, Registers.flags_positioned, hnext, x.goes_on s hk,
        hstart, hend]
      simp only [decide_eq_true_eq]
    memory := congrArg Prod.snd he
    running := hr.running
    fresh := rfl
    free := hr.free }

/-- By induction on the elements done: before each of them the instruction is the next one. -/
theorem at_stepped (h : x.Ready s) (ha : x.Apart s) (hk : k < x.elements s)
    (ht : ∀ i < k, ¬Taken (stepped s i)) : x.At s s.cpu.registers.ip k (stepped s k) := by
  induction k with
  | zero => exact at_zero h
  | succ k ih =>
    have hat := ih (by omega) fun i hi => ht i (by omega)
    obtain ⟨u, hu, hnext⟩ := hat.step h.roomy (hat.ready h ha (by omega))
      (ht k (Nat.lt_succ_self k)) (by omega)
    rw [if_pos hk] at hnext
    rw [stepped, hu]
    exact hnext

/-- With interrupts off none is delivered on the way. -/
theorem not_taken (h : x.Ready s) (ha : x.Apart s)
    (hi : s.cpu.registers.flags.interrupt = false) (hk : k < x.steps s) :
    ¬Taken (stepped s k) := by
  induction k using Nat.strongRecOn with
  | ind k ih =>
    intro ht
    have hon := ht.2.2
    by_cases hlt : k < x.elements s
    · have hat := at_stepped h ha hlt fun i hik => ih i hik (by omega)
      rw [hat.registers, Registers.flags_positioned, (x.performed_kept h.roomy k).interrupt,
        hi] at hon
      cases hon
    · -- the only step, for a count of zero
      have hz : k = 0 := by
        unfold steps at hk
        omega
      rw [hz, stepped, hi] at hon
      cases hon

/-- Each step succeeds, and the last one leaves the instruction behind. -/
theorem run_step (h : x.Ready s) (ha : x.Apart s) (ht : ∀ i < x.steps s, ¬Taken (stepped s i))
    (hk : k < x.steps s) :
    Cpu.step (stepped s k) = .ok () (stepped s (k + 1)) ∧
      (k + 1 = x.steps s → x.At s (x.behind s) (x.elements s) (stepped s (k + 1))) := by
  unfold steps at hk ht ⊢
  by_cases hz : x.elements s = 0
  · -- without elements there is still the step that passes over the instruction
    obtain rfl : k = 0 := by omega
    obtain ⟨u, hu, hat⟩ := h.step_zero (ht 0 (by omega)) (x.count_eq_zero s hz)
    have hs : stepped s 1 = u := congrArg final hu
    rw [hs, hz]
    exact ⟨hu, fun _ => hat⟩
  · have hat := at_stepped h ha (k := k) (by omega) fun i hi => ht i (by omega)
    obtain ⟨u, hu, hnext⟩ := hat.step h.roomy (hat.ready h ha (by omega)) (ht k hk) (by omega)
    have hs : stepped s (k + 1) = u := congrArg final hu
    rw [hs]
    refine ⟨hu, fun hlast => ?_⟩
    have hlast : k + 1 = x.elements s := by omega
    rwa [if_neg (by omega), hlast] at hnext

/-- A repeated string instruction is the loop of its elements. With no interrupt delivered it takes
as many steps as it has elements, or one: none of them fails, before each element only those before
it are done and the instruction is still the next one, and the last step leaves it behind. The index
registers it uses have then moved by as many elements. -/
theorem loop (h : x.Ready s) (ha : x.Apart s) (ht : ∀ k < x.steps s, ¬Taken (stepped s k)) :
    (∀ k < x.steps s, Cpu.step (stepped s k) = .ok () (stepped s (k + 1))) ∧
    (∀ k < x.elements s, x.At s s.cpu.registers.ip k (stepped s k)) ∧
    x.At s (x.behind s) (x.elements s) (stepped s (x.steps s)) ∧
    (∀ k, runOpcode x.opcode (x.performed s k) = .ok () (x.performed s (k + 1))) ∧
    ∀ j, j = .si ∨ j = .di → (stepped s (x.steps s)).cpu.registers.word j =
      if x.operation.uses j then s.cpu.registers.past j x.width (x.elements s)
      else s.cpu.registers.word j := by
  have hsteps : 0 < x.steps s := Nat.le_max_left 1 _
  have hend : x.At s (x.behind s) (x.elements s) (stepped s (x.steps s)) := by
    have hlast := (run_step h ha ht (k := x.steps s - 1) (by omega)).2
    rw [Nat.sub_add_cancel hsteps] at hlast
    exact hlast rfl
  refine ⟨fun k hk => (run_step h ha ht hk).1, fun k hk => ?_, hend, x.run_performed h.roomy, ?_⟩
  · refine at_stepped h ha hk fun i hi => ht i ?_
    have hle : x.elements s ≤ x.steps s := Nat.le_max_right 1 _
    omega
  · intro j hj
    have hne : j ≠ .cx := by
      rintro rfl
      rcases hj with hj | hj <;> cases hj
    rw [hend.registers, Registers.word_positioned _ _ _ hne]
    exact x.performed_index h.roomy hj _

end Step

def storing : Repetition where
  prefixes := [0xF3]
  opcode := 0xAA
  rep := 0xF3
  operation := .store
  size := .byte
  isPrefix p hp := by
    rw [List.mem_singleton.1 hp]
    exact .inr rfl
  last := rfl
  decodes := rfl
  internal := rfl

/-- A board without devices that is about to store three bytes. -/
def filling (m : Memory) : System (Board ExpansionCard) where
  cpu := { registers := { eax := 0x41, ecx := 3, edi := 0x10 } }
  bus :=
    { memory := (m.poke 0 0xF3).poke 1 0xAA
      controller := .initial
      components := []
      owners := []
      ignoreUnknownPorts := true }

section Filling

variable {m : Memory}

theorem filling_ready (hm : 0x100000 ≤ m.size) : storing.Ready (filling m) where
  roomy := by
    change 0x100000 ≤ ((m.poke 0 0xF3).poke 1 0xAA).size
    rwa [Memory.size_poke, Memory.size_poke]
  trap := rfl
  running := rfl
  fresh := rfl
  free h := by cases h
  code := by
    have h0 : (0 : UInt32).toNat < m.size := Nat.lt_of_lt_of_le (by decide) hm
    have h1 : (1 : UInt32).toNat < (m.poke 0 0xF3).size := by
      rw [Memory.size_poke]
      exact Nat.lt_of_lt_of_le (by decide) hm
    have ha : ∀ i < 2, linear 0 (0 + UInt16.ofNat i) = UInt32.ofNat i := by decide
    intro i hi
    change ((m.poke 0 0xF3).poke 1 0xAA).peek (linear 0 (0 + UInt16.ofNat i)) = _
    rw [Memory.peek_poke h1, Memory.peek_poke h0, ha i hi]
    have hi : i < 2 := hi
    obtain rfl | rfl : i = 0 ∨ i = 1 := by omega
    · rfl
    · rfl

theorem filling_elements : storing.elements (filling m) = 3 :=
  elements_of_not_comparing storing (filling m) rfl

theorem filling_apart (hm : 0x100000 ≤ m.size) : storing.Apart (filling m) := by
  intro _ k hk i hi j hj
  have hall : ∀ k < 3, ∀ i < 1, ∀ j < 2, linear 0 (0x10 + UInt16.ofNat (k * 1) + UInt16.ofNat i) ≠
      linear 0 (0 + UInt16.ofNat j) := by decide
  rw [storing.performed_index (filling_ready hm).roomy (.inr rfl)]
  rw [filling_elements] at hk
  exact hall k hk i hi j hj

end Filling

/-- Three bytes are stored in three steps. -/
theorem filling_loop :
    let s := filling (Memory.zeroed Memory.defaultSize)
    storing.At s 2 3 (stepped s 3) ∧ (stepped s 3).cpu.registers.word .di = 0x13 := by
  have hm : 0x100000 ≤ (Memory.zeroed Memory.defaultSize).size := by
    rw [Memory.size_zeroed]
    exact Nat.le_refl _
  -- nothing is to be evaluated byte by byte
  generalize Memory.zeroed Memory.defaultSize = m at hm ⊢
  have hready := filling_ready hm
  have hapart := filling_apart hm
  have hl := loop hready hapart fun k hk => not_taken hready hapart rfl hk
  have hsteps : storing.steps (filling m) = 3 := by
    rw [steps, filling_elements]
    rfl
  rw [hsteps, filling_elements] at hl
  exact ⟨hl.2.2.1, hl.2.2.2.2 .di (.inr rfl)⟩

end Repetition

end Pc8086.Cpu

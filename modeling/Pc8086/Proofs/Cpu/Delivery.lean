import Pc8086.Proofs.Cpu.Journal

namespace Pc8086.Cpu

open Exec

/-- The system before each step. A step decides what becomes of the processor, and nothing is said
about the bus, which others may change at any boundary. -/
structure Run (β : Type) [Bus β] where
  boundary : Nat → System β
  reset : ∃ registers divides,
    (boundary 0).cpu = { registers := registers, divideErrorInterrupt := divides }
  next : ∀ n, (boundary (n + 1)).cpu = (final (step (boundary n))).cpu

/-- A step that ends with a request that has waited saw the line high. -/
theorem line_of_waited {l : RequestLatch} {line : Bool} (h : (l.sample line).2.retire = .waited) :
    line = true := by
  cases line with
  | true => rfl
  | false => cases h

namespace Run

variable {β : Type} [Bus β] (r : Run β)

/-- The request was seen at boundary `j`, waited through the whole of step `j`, and has been there
ever since, with nothing to make it wait anew. -/
structure Waiting (j n : Nat) : Prop where
  before : j < n
  free : ¬Held (r.boundary j)
  untaken : ¬Taken (r.boundary j)
  high : ∀ k, j ≤ k → k < n → ¬Held (r.boundary k) → Requested (r.boundary k)
  undisturbed : ∀ k, j ≤ k → k < n → ¬Enables (r.boundary k)

variable {r}

theorem Waiting.extend {j n : Nat} (h : r.Waiting j n)
    (hh : ¬Held (r.boundary n) → Requested (r.boundary n)) (he : ¬Enables (r.boundary n)) :
    r.Waiting j (n + 1) where
  before := by
    have hj := h.before
    omega
  free := h.free
  untaken := h.untaken
  high k hj hk hf := by
    rcases Nat.lt_succ_iff_lt_or_eq.1 hk with hk | rfl
    · exact h.high k hj hk hf
    · exact hh hf
  undisturbed k hj hk := by
    rcases Nat.lt_succ_iff_lt_or_eq.1 hk with hk | rfl
    · exact h.undisturbed k hj hk
    · exact he

theorem waiting_first {n : Nat} (hf : ¬Held (r.boundary n)) (ht : ¬Taken (r.boundary n))
    (hr : Requested (r.boundary n)) (he : ¬Enables (r.boundary n)) : r.Waiting n (n + 1) where
  before := Nat.lt_succ_self n
  free := hf
  untaken := ht
  high k hj hk _ := by
    obtain rfl : k = n := by omega
    exact hr
  undisturbed k hj hk := by
    obtain rfl : k = n := by omega
    exact he

variable (r)

/-- How a request comes to have waited, by induction on the step: each step keeps the one that had
waited before or sees it for the first time. -/
theorem exists_waiting (n : Nat) (h : (r.boundary n).cpu.latch = .waited) :
    ∃ j, r.Waiting j n := by
  induction n with
  | zero =>
    obtain ⟨registers, divides, h0⟩ := r.reset
    rw [h0] at h
    cases h
  | succ n ih =>
    by_cases hs : Held (r.boundary n)
    · rw [r.next, step_of_held hs] at h
      obtain ⟨j, hj⟩ := ih h
      exact ⟨j, hj.extend (fun hf => absurd hs hf) fun he => he.1 hs⟩
    · have he : ¬Enables (r.boundary n) := by
        intro he
        rw [r.next, he.latch] at h
        cases h
      obtain ⟨t, ht⟩ := exists_entry (r.boundary n)
      have hl := step_latch hs ht
      rw [← r.next, h] at hl
      cases ht with
      | taken ht => rcases hl with hl | hl <;> cases hl
      | sampled ht =>
        have hr : Requested (r.boundary n) := by
          rcases hl with hl | hl
          · exact line_of_waited hl.symm
          · cases hl
        -- either the request had waited before, or this step is the first to see it
        by_cases hw : (r.boundary n).cpu.latch = .waited
        · obtain ⟨j, hj⟩ := ih hw
          exact ⟨j, hj.extend (fun _ => hr) he⟩
        · exact ⟨n, waiting_first hs ht hr he⟩

theorem taken_of_awakened {n : Nat} (h : (r.boundary n).cpu.halted = true)
    (h' : (r.boundary (n + 1)).cpu.halted = false) :
    ¬Held (r.boundary n) ∧ Taken (r.boundary n) := by
  have hs : ¬Held (r.boundary n) := by
    intro hs
    rw [r.next, step_of_held hs, ← Bool.not_eq_true] at h'
    exact h' h
  refine ⟨hs, Classical.byContradiction fun ht => ?_⟩
  rw [r.next, step_halted hs (.sampled ht) h] at h'
  cases h'

/-- Interrupt delivery. A step acknowledges only with interrupts on, first of all and once, a
request that has been there since an earlier step began, that step having run to its end and no step
since having turned interrupts on; and nothing else ends a halt. -/
theorem delivery (n : Nat) :
    (.acknowledge ∈ calls (r.boundary n) →
      (r.boundary n).cpu.registers.flags.interrupt = true ∧
      (∃ rest, calls (r.boundary n) = .acknowledge :: rest ∧ .acknowledge ∉ rest) ∧
      ∃ j, j < n ∧ ¬Held (r.boundary j) ∧
        .acknowledge ∉ calls (r.boundary j) ∧ .clockPulse ∈ calls (r.boundary j) ∧
        (∀ k, j ≤ k → k ≤ n → ¬Held (r.boundary k) → Requested (r.boundary k)) ∧
        ∀ k, j ≤ k → k < n → ¬Enables (r.boundary k)) ∧
    ((r.boundary n).cpu.halted = true → (r.boundary (n + 1)).cpu.halted = false →
      .acknowledge ∈ calls (r.boundary n)) := by
  refine ⟨fun h => ?_, fun h h' => ?_⟩
  · obtain ⟨hs, ht⟩ := (acknowledge_mem_calls_iff _).1 h
    obtain ⟨j, hj⟩ := r.exists_waiting n ht.1
    refine ⟨ht.2.2, calls_of_taken hs ht, j, hj.before, hj.free, ?_,
      clockPulse_mem_calls hj.free, ?_, hj.undisturbed⟩
    · exact fun hc => hj.untaken ((acknowledge_mem_calls_iff _).1 hc).2
    · intro k hk hn hf
      rcases Nat.lt_or_eq_of_le hn with hn | rfl
      · exact hj.high k hk hn hf
      · exact ht.2.1
  · exact (acknowledge_mem_calls_iff _).2 (r.taken_of_awakened h h')

def unattended (registers : Registers) (bus : β) : Run β where
  boundary n := n.rec ⟨{ registers := registers }, bus⟩ fun _ s => final (step s)
  reset := ⟨registers, true, rfl⟩
  next _ := rfl

end Run

/-- A bus without state: every byte of memory is the one-byte instruction that does nothing, and the
request line is always high. -/
inductive Idling where
  | idling

instance : Bus Idling where
  readByte _ := pure 0x90
  writeByte _ _ := pure ()
  input _ _ := pure 0
  output _ _ _ := pure ()
  interruptRequested _ := true
  acknowledgeInterrupt b := (8, b)
  holdRequested _ := false
  acknowledgeHold b := b
  clockPulse b := b

/-- With interrupts on from the beginning, a request is taken at the second boundary. -/
theorem idling_delivery :
    let r := Run.unattended { flags := { interrupt := true } } Idling.idling
    .acknowledge ∈ calls (r.boundary 1) ∧
      ∃ j, j < 1 ∧ ¬Held (r.boundary j) ∧ .acknowledge ∉ calls (r.boundary j) := by
  intro r
  have h : .acknowledge ∈ calls (r.boundary 1) := by decide +kernel
  obtain ⟨-, -, j, hj, hf, hn, -⟩ := (r.delivery 1).1 h
  exact ⟨h, j, hj, hf, hn⟩

end Pc8086.Cpu

import Pc8086.Proofs.Machine.Accounting

namespace Pc8086.Machine

variable {δ : Type}

inductive AtEnd (limit : Option Nat) (m : Machine δ) : Prop where
  | stopped (h : m.board.stopRequested = true)
  | limitReached {n : Nat} (hn : limit = some n) (h : n ≤ m.cpu.instructionCount)
  /-- Halted for good. -/
  | halted (h : m.cpu.halted = true) (hi : m.cpu.registers.flags.interrupt = false)
    (hp : m.board.holdPulses = 0)

theorem exit?_eq_none_iff (limit : Option Nat) (m : Machine δ) :
    m.exit? limit = none ↔ ¬m.AtEnd limit := by
  have hend : m.AtEnd limit ↔ m.board.stopRequested = true ∨
      (limit.any fun n => n ≤ m.cpu.instructionCount) = true ∨
      (m.cpu.halted && !m.cpu.registers.flags.interrupt && m.board.holdPulses == 0) = true := by
    constructor
    · rintro (h | ⟨hn, h⟩ | ⟨h, hi, hp⟩)
      · exact .inl h
      · exact .inr (.inl ((Option.any_eq_true ..).2 ⟨_, hn, decide_eq_true h⟩))
      · exact .inr (.inr (by rw [h, hi, hp]; rfl))
    · rintro (h | h | h)
      · exact .stopped h
      · obtain ⟨n, hn, h⟩ := (Option.any_eq_true ..).1 h
        exact .limitReached hn (of_decide_eq_true h)
      · simp only [Bool.and_eq_true, Bool.not_eq_true', beq_iff_eq] at h
        exact .halted h.1.1 h.1.2 h.2
  rw [hend]
  unfold exit?
  -- what is left does not depend on what the three tests look at
  generalize m.board.stopRequested = stopped
  generalize (limit.any fun n => n ≤ m.cpu.instructionCount) = reached
  generalize (m.cpu.halted && !m.cpu.registers.flags.interrupt && m.board.holdPulses == 0) = halted
  cases stopped <;> cases reached <;> cases halted <;> simp

section Limit

variable {m : Machine δ}

theorem AtEnd.mono {n n' : Nat} (hn : n ≤ n') (h : m.AtEnd (some n')) : m.AtEnd (some n) := by
  cases h with
  | stopped h => exact .stopped h
  | limitReached hlimit h =>
    cases hlimit
    exact .limitReached rfl (Nat.le_trans hn h)
  | halted h hi hp => exact .halted h hi hp

def limitFor (m : Machine δ) (n : Nat) : Nat :=
  match m.session.config.maxInstructions with
  | some most => min most (m.cpu.instructionCount + n)
  | none => m.cpu.instructionCount + n

theorem limitFor_le (m : Machine δ) (n : Nat) : m.limitFor n ≤ m.cpu.instructionCount + n := by
  unfold limitFor
  split
  · exact Nat.min_le_right _ _
  · exact Nat.le_refl _

theorem limitFor_mono (m : Machine δ) {a b : Nat} (h : a ≤ b) : m.limitFor a ≤ m.limitFor b := by
  unfold limitFor
  split <;> omega

/-- A limit that is reached after at most so many instructions is, counted from there, what it was
counted from the beginning. -/
theorem limitFor_cut (m₁ : Machine δ) {a : Nat} (hconfig : m₁.session.config = m.session.config)
    (hreached : m.limitFor a ≤ m₁.cpu.instructionCount)
    (hcount : m₁.cpu.instructionCount ≤ m.cpu.instructionCount + a) (b : Nat) :
    m₁.limitFor b = m.limitFor (a + b) := by
  unfold limitFor at hreached ⊢
  rw [hconfig]
  generalize m.session.config.maxInstructions = configured at hreached ⊢
  cases configured with
  | none =>
    dsimp only at hreached ⊢
    omega
  | some most =>
    dsimp only at hreached ⊢
    omega

/-- A run goes on where another one stopped, unless a stop request was lost. -/
theorem begin_settle (h : m.session.running = true) (hs : m.board.stopRequested = false) :
    m.settle.begin = m := by
  obtain ⟨⟨c, b⟩, s⟩ := m
  obtain ⟨memory, controller, components, owners, pulses, ignore, stop⟩ := b
  obtain ⟨config, running, base, length, trace⟩ := s
  obtain rfl : running = true := h
  obtain rfl : stop = false := hs
  rfl

end Limit

section Iterations

variable [Peripheral δ]

theorem counted (m : Machine δ) (n : Nat) :
    Counted (m.after n).system (m.after (n + 1)).system := by
  change Counted _ (m.after n).step.2.system
  rw [step_system]
  exact counted_step _

theorem after_holdPulses (m : Machine δ) (n : Nat) :
    (m.after n).board.holdPulses = m.board.holdPulses - n := by
  induction n with
  | zero => rfl
  | succ n ih =>
    have hstep : (m.after (n + 1)).board.holdPulses = (m.after n).board.holdPulses - 1 :=
      (m.counted n).hold
    rw [hstep, ih, Nat.sub_sub]

theorem after_instructionCount (m : Machine δ) (n : Nat) :
    (m.after n).cpu.instructionCount = m.cpu.instructionCount + (n - m.board.holdPulses) := by
  induction n with
  | zero => simp [after]
  | succ n ih =>
    have hp : (m.after n).board.holdPulses = m.board.holdPulses - n := m.after_holdPulses n
    by_cases h : n < m.board.holdPulses
    · have hstep : (m.after (n + 1)).cpu = (m.after n).cpu :=
        (m.counted n).held (by change 0 < (m.after n).board.holdPulses; omega)
      rw [hstep, ih]
      omega
    · have hstep : (m.after (n + 1)).cpu.instructionCount = (m.after n).cpu.instructionCount + 1 :=
        (m.counted n).instruction (by change (m.after n).board.holdPulses = 0; omega)
      rw [hstep, ih]
      omega

/-- A stop request was there from the start or came from a component in the meantime. -/
theorem after_stopRequested_iff (m : Machine δ) (n : Nat) :
    (m.after n).board.stopRequested = true ↔
      m.board.stopRequested = true ∨ ∃ i < n, RaisesStop (m.after i).system := by
  induction n with
  | zero => simp [after]
  | succ n ih =>
    have hstep : (m.after (n + 1)).board.stopRequested = true ↔
        (m.after n).board.stopRequested = true ∨ RaisesStop (m.after n).system :=
      (m.counted n).stop
    rw [hstep, ih, or_assoc, Nat.exists_lt_succ_right]

/-- The processor has nothing to do with the session. -/
theorem session_step (m : Machine δ) : m.step.2.session = m.traceInstruction.session := by
  unfold Machine.step exec
  dsimp only
  cases Cpu.step m.traceInstruction.system <;> rfl

theorem step_session (m : Machine δ) : ∃ t, m.step.2.session = { m.session with trace := t } := by
  rw [session_step]
  unfold traceInstruction
  split
  · exact ⟨_, rfl⟩
  · exact ⟨m.session.trace, rfl⟩

theorem after_session (m : Machine δ) (n : Nat) :
    ∃ t, (m.after n).session = { m.session with trace := t } := by
  induction n with
  | zero => exact ⟨m.session.trace, rfl⟩
  | succ n ih =>
    obtain ⟨t, ht⟩ := ih
    obtain ⟨t', hstep⟩ := (m.after n).step_session
    refine ⟨t', ?_⟩
    change (m.after n).step.2.session = _
    rw [hstep, ht]

end Iterations

section Runs

variable [Peripheral δ]

def Proceeds (limit : Option Nat) (m : Machine δ) (n : Nat) : Prop :=
  ∀ i < n, ¬(m.after i).AtEnd limit ∧ (m.after i).step.1 = .ok ()

/-- A run up to the limit ends after so many iterations with a result and a machine. -/
inductive Ends (limit : Option Nat) (m : Machine δ) :
    Nat → Except Fault Unit → Machine δ → Prop where
  /-- At the first boundary to end at. -/
  | boundary {n : Nat} (h : m.Proceeds limit n) (he : (m.after n).AtEnd limit) :
    Ends limit m n (.ok ()) (m.after n).settle
  /-- With the first fault. -/
  | fault {n : Nat} {f : Fault} (h : m.Proceeds limit n) (he : ¬(m.after n).AtEnd limit)
    (hf : (m.after n).step.1 = .error f) : Ends limit m (n + 1) (.error f) (m.after (n + 1)).settle

variable {limit : Option Nat} {m m' : Machine δ} {k n : Nat} {r : Except Fault Unit} {f : Fault}

theorem proceeds_zero (limit : Option Nat) (m : Machine δ) : m.Proceeds limit 0 :=
  fun i hi => absurd hi (Nat.not_lt_zero i)

theorem Proceeds.succ (h : m.Proceeds limit n) (he : ¬(m.after n).AtEnd limit)
    (hs : (m.after n).step.1 = .ok ()) : m.Proceeds limit (n + 1) := by
  intro i hi
  rcases Nat.lt_succ_iff_lt_or_eq.1 hi with hi | rfl
  · exact h i hi
  · exact ⟨he, hs⟩

theorem continueRun_of_atEnd (h : m.AtEnd limit) (n : Nat) :
    m.continueRun limit n = .finished (.ok ()) m.settle := by
  have he := mt (exit?_eq_none_iff limit m).1 (not_not_intro h)
  cases hx : m.exit? limit with
  | none => exact absurd hx he
  | some e =>
    cases n with
    | zero => rw [Machine.continueRun, hx]
    | succ n => rw [Machine.continueRun, hx]

theorem continueRun_zero (h : ¬m.AtEnd limit) : m.continueRun limit 0 = .unfinished m := by
  rw [continueRun, (exit?_eq_none_iff limit m).2 h]

theorem continueRun_of_ok (h : ¬m.AtEnd limit) (hs : m.step.1 = .ok ()) (n : Nat) :
    m.continueRun limit (n + 1) = m.step.2.continueRun limit n := by
  have hpair : m.step = (.ok (), m.step.2) := Prod.ext hs rfl
  rw [continueRun, (exit?_eq_none_iff limit m).2 h, hpair]

theorem continueRun_of_error (h : ¬m.AtEnd limit) (hs : m.step.1 = .error f) (n : Nat) :
    m.continueRun limit (n + 1) = .finished (.error f) m.step.2.settle := by
  have hpair : m.step = (.error f, m.step.2) := Prod.ext hs rfl
  rw [continueRun, (exit?_eq_none_iff limit m).2 h, hpair]

theorem Proceeds.continueRun (h : m.Proceeds limit n) (k : Nat) :
    m.continueRun limit (n + k) = (m.after n).continueRun limit k := by
  induction n generalizing k with
  | zero => rw [Nat.zero_add]; rfl
  | succ n ih =>
    obtain ⟨he, hs⟩ := h n n.lt_succ_self
    rw [Nat.succ_add_eq_add_succ, ih (fun i hi => h i (Nat.lt_succ_of_lt hi)),
      continueRun_of_ok he hs]
    rfl

theorem Ends.continueRun (h : Ends limit m k r m') (hk : k ≤ n) :
    m.continueRun limit n = .finished r m' := by
  obtain ⟨d, rfl⟩ := Nat.exists_eq_add_of_le hk
  cases h with
  | boundary h he => rw [h.continueRun, continueRun_of_atEnd he]
  | fault h he hf =>
    rw [Nat.succ_add_eq_add_succ, h.continueRun, continueRun_of_error he hf]
    rfl

/-- A run is over after some of its iterations or goes on behind them. -/
theorem ends_or_proceeds (limit : Option Nat) (m : Machine δ) (n : Nat) :
    (∃ k ≤ n, ∃ r m', Ends limit m k r m') ∨
      m.Proceeds limit n ∧ ¬(m.after n).AtEnd limit := by
  induction n with
  | zero =>
    have h := proceeds_zero limit m
    by_cases he : m.AtEnd limit
    · exact .inl ⟨0, Nat.le_refl _, _, _, .boundary h he⟩
    · exact .inr ⟨h, he⟩
  | succ n ih =>
    rcases ih with ⟨k, hk, hends⟩ | ⟨h, he⟩
    · exact .inl ⟨k, Nat.le_succ_of_le hk, hends⟩
    · cases hs : (m.after n).step.1 with
      | error f => exact .inl ⟨n + 1, Nat.le_refl _, _, _, .fault h he hs⟩
      | ok a =>
        have hnext := h.succ he hs
        by_cases he' : (m.after (n + 1)).AtEnd limit
        · exact .inl ⟨n + 1, Nat.le_refl _, _, _, .boundary hnext he'⟩
        · exact .inr ⟨hnext, he'⟩

theorem continueRun_eq_finished_iff :
    m.continueRun limit n = .finished r m' ↔ ∃ k ≤ n, Ends limit m k r m' := by
  constructor
  · intro h
    rcases ends_or_proceeds limit m n with ⟨k, hk, r', m'', hends⟩ | ⟨hp, he⟩
    · cases (hends.continueRun hk).symm.trans h
      exact ⟨k, hk, hends⟩
    · have hn := hp.continueRun 0
      rw [Nat.add_zero, continueRun_zero he] at hn
      cases hn.symm.trans h
  · rintro ⟨k, hk, hends⟩
    exact hends.continueRun hk

/-- Iterations of the hold are counted in, and so a limit is reached. -/
theorem exists_ends (limit : Nat) (m : Machine δ) :
    ∃ k ≤ limit - m.cpu.instructionCount + m.board.holdPulses, ∃ r m',
      Ends (some limit) m k r m' := by
  rcases ends_or_proceeds (some limit) m
    (limit - m.cpu.instructionCount + m.board.holdPulses) with h | ⟨-, he⟩
  · exact h
  · refine absurd (.limitReached rfl ?_) he
    rw [after_instructionCount]
    omega

theorem Ends.settled (h : Ends limit m k r m') :
    m'.session.running = false ∧ m'.board.stopRequested = false := by
  cases h with
  | boundary => exact ⟨rfl, rfl⟩
  | fault => exact ⟨rfl, rfl⟩

theorem runFor_eq (m : Machine δ) (n : Nat) :
    m.runFor n = m.begin.continueRun (some (m.limitFor n)) (n + m.board.holdPulses) := by
  unfold runFor limitFor
  cases m.session.config.maxInstructions <;> rfl

theorem exists_ends_runFor (m : Machine δ) (n : Nat) :
    ∃ k ≤ n + m.board.holdPulses, ∃ r m',
      Ends (some (m.limitFor n)) m.begin k r m' ∧ m.runFor n = .finished r m' := by
  obtain ⟨k, hk, r, m', hends⟩ := exists_ends (m.limitFor n) m.begin
  have hlimit := m.limitFor_le n
  have hk : k ≤ n + m.board.holdPulses := by
    change k ≤ m.limitFor n - m.cpu.instructionCount + m.board.holdPulses at hk
    omega
  exact ⟨k, hk, r, m', hends, (runFor_eq m n).trans (hends.continueRun hk)⟩

/-- The run loop. `runFor` and a run with a configured limit are over after at most as many
iterations as there are instructions left and pulses of the hold. A run ends at the first boundary
to end at, or with the first fault, and as long as there is neither it goes on. It leaves the
machine at rest and no stop request behind: a run from there finds those only that its own devices
raise. An iteration, whatever its outcome, is one clock pulse for each component, and it is an
instruction unless the bus is held, when the processor stays as it is. One that would look for its
opcode for ever stands here as one with a fault. -/
theorem run_contract (m : Machine δ) :
    (∀ n, ∃ k ≤ n + m.board.holdPulses, ∃ r m',
      Ends (some (m.limitFor n)) m.begin k r m' ∧ m.runFor n = .finished r m') ∧
    (∀ limit, m.session.config.maxInstructions = some limit →
      ∃ k ≤ limit - m.cpu.instructionCount + m.board.holdPulses, ∃ r m',
        Ends (some limit) m.begin k r m' ∧ ∀ n ≥ k, m.run n = .finished r m') ∧
    (∀ n r m', m.run n = .finished r m' ↔
      ∃ k ≤ n, Ends m.session.config.maxInstructions m.begin k r m') ∧
    (∀ limit k r m', Ends limit m.begin k r m' →
      m'.session.running = false ∧ m'.board.stopRequested = false ∧
      ∀ n, (m'.begin.after n).board.stopRequested = true ↔
        ∃ i < n, RaisesStop (m'.begin.after i).system) ∧
    ∀ n, Counted (m.begin.after n).system (m.begin.after (n + 1)).system := by
  refine ⟨m.exists_ends_runFor, ?_, fun n r m' => continueRun_eq_finished_iff, ?_, m.begin.counted⟩
  · intro limit hlimit
    obtain ⟨k, hk, r, m', hends⟩ := exists_ends limit m.begin
    refine ⟨k, hk, r, m', hends, fun n hn => ?_⟩
    rw [← hlimit] at hends
    exact hends.continueRun hn
  · intro limit k r m' hends
    obtain ⟨hrest, hstop⟩ := hends.settled
    refine ⟨hrest, hstop, fun n => ?_⟩
    rw [after_stopRequested_iff]
    exact or_iff_right (ne_true_of_eq_false hstop)

end Runs

section Composition

variable [Peripheral δ] {limit limit' : Option Nat} {m m₁ m₂ : Machine δ} {j k n : Nat}
  {r r₁ r₂ : Except Fault Unit}

theorem Ends.unique (h₁ : Ends limit m j r₁ m₁) (h₂ : Ends limit m k r₂ m₂) :
    r₁ = r₂ ∧ m₁ = m₂ := by
  have hrun₁ := h₁.continueRun (Nat.le_max_left j k)
  have hrun₂ := h₂.continueRun (Nat.le_max_right j k)
  cases hrun₁.symm.trans hrun₂
  exact ⟨rfl, rfl⟩

theorem runFor_of_ends (h : Ends (some (m.limitFor n)) m.begin k r m₁) :
    m.runFor n = .finished r m₁ := by
  obtain ⟨j, -, r', m', hends, hrun⟩ := m.exists_ends_runFor n
  obtain ⟨rfl, rfl⟩ := hends.unique h
  exact hrun

theorem Proceeds.mono (h : m.Proceeds limit n)
    (hmono : ∀ m : Machine δ, m.AtEnd limit' → m.AtEnd limit) : m.Proceeds limit' n :=
  fun i hi => ⟨fun he => (h i hi).1 (hmono _ he), (h i hi).2⟩

theorem Proceeds.ends (h : m.Proceeds limit n) (hends : Ends limit (m.after n) k r m₁) :
    ∃ j, Ends limit m j r m₁ := by
  have hrun := (h.continueRun k).trans (hends.continueRun (Nat.le_refl k))
  obtain ⟨j, -, hj⟩ := continueRun_eq_finished_iff.1 hrun
  exact ⟨j, hj⟩

/-- Without stop requests a run that is over can be taken up where it ended. -/
theorem begin_settle_after (hs : m.board.stopRequested = false)
    (hq : ∀ i, ¬RaisesStop (m.begin.after i).system) (n : Nat) :
    (m.begin.after n).board.stopRequested = false ∧
      (m.begin.after n).settle.begin = m.begin.after n := by
  have hstop : (m.begin.after n).board.stopRequested = false := by
    refine Bool.eq_false_iff.2 fun hstop => ?_
    rcases (m.begin.after_stopRequested_iff n).1 hstop with hstop | ⟨i, -, hi⟩
    · exact absurd hstop (ne_true_of_eq_false hs)
    · exact hq i hi
  obtain ⟨t, hsession⟩ := m.begin.after_session n
  have hrunning : (m.begin.after n).session.running = true := by
    rw [hsession]
    rfl
  exact ⟨hstop, begin_settle hrunning hstop⟩

/-- At the end of the first run the second one and the one over both have the same before them: the
limit is the same for them, unless the processor has halted and neither does anything more. -/
theorem ends_alike {a : Nat} (hs : m.board.stopRequested = false)
    (hq : ∀ i, ¬RaisesStop (m.begin.after i).system) (hk : k ≤ a + m.board.holdPulses)
    (he : (m.begin.after k).AtEnd (some (m.limitFor a))) (b : Nat) :
    ∃ j r m₂,
      Ends (some ((m.begin.after k).settle.limitFor b)) (m.begin.after k).settle.begin j r m₂ ∧
      Ends (some (m.limitFor (a + b))) (m.begin.after k) j r m₂ := by
  obtain ⟨hstop, hresume⟩ := begin_settle_after hs hq k
  rw [hresume]
  cases he with
  | stopped h => cases hstop.symm.trans h
  | limitReached hlimit h =>
    cases hlimit
    obtain ⟨t, hsession⟩ := m.begin.after_session k
    have hconfig : (m.begin.after k).session.config = m.session.config := by
      rw [hsession]
      rfl
    -- the pulses of a hold are no instructions, so at most `a` of those have run
    have hcount : (m.begin.after k).cpu.instructionCount ≤ m.cpu.instructionCount + a := by
      have hcount := m.begin.after_instructionCount k
      change _ = m.cpu.instructionCount + (k - m.board.holdPulses) at hcount
      omega
    have hlimits := limitFor_cut (m.begin.after k).settle hconfig h hcount b
    obtain ⟨j, -, r, m₂, hends, -⟩ := (m.begin.after k).settle.exists_ends_runFor b
    rw [hresume] at hends
    exact ⟨j, r, m₂, hends, hlimits ▸ hends⟩
  | halted h hi hp =>
    exact ⟨0, _, _, .boundary (proceeds_zero _ _) (.halted h hi hp),
      .boundary (proceeds_zero _ _) (.halted h hi hp)⟩

/-- Runs compose. When nothing asks for a stop, a run that reported no fault, continued by another,
is the run over the instructions of both, with the same result and the same machine: whether it was
cut by its own limit or by the configured one, halted, or had a hold or a repetition outstanding. -/
theorem runFor_add {a : Nat} (hs : m.board.stopRequested = false)
    (hq : ∀ i, ¬RaisesStop (m.begin.after i).system) (h : m.runFor a = .finished (.ok ()) m₁)
    (b : Nat) : ∃ r m₂, m₁.runFor b = .finished r m₂ ∧ m.runFor (a + b) = .finished r m₂ := by
  obtain ⟨k, hk, r, m', hends, hrun⟩ := m.exists_ends_runFor a
  cases hrun.symm.trans h
  cases hends with
  | boundary hp he =>
    obtain ⟨j, r, m₂, hfirst, hsecond⟩ := ends_alike hs hq hk he b
    have hproceeds : m.begin.Proceeds (some (m.limitFor (a + b))) k :=
      hp.mono fun _ => .mono (m.limitFor_mono (Nat.le_add_right a b))
    obtain ⟨i, hboth⟩ := hproceeds.ends hsecond
    exact ⟨r, m₂, runFor_of_ends hfirst, runFor_of_ends hboth⟩

/-- A repeated store of three bytes is cut after the first, behind a hold of two pulses. -/
theorem store_cut :
    let loaded : Machine Timer.IntervalTimer :=
      ((ofConfig smallConfig).loadProgram ⟨#[0xB9, 0x03, 0x00, 0xF3, 0xAA, 0xEB, 0xFE]⟩).2
    let m := loaded.modifyBoard fun b => b.requestHold 2
    let m₁ := (m.begin.after 4).settle
    m.runFor 2 = .finished (.ok ()) m₁ ∧ m₁.cpu.registers.ecx = 2 ∧
      ∃ r m₂, m₁.runFor 3 = .finished r m₂ ∧ m.runFor 5 = .finished r m₂ := by
  intro loaded m m₁
  have hproceeds : m.begin.Proceeds (some (m.limitFor 2)) 4 := by
    have hcheck : ∀ i < 4, (m.begin.after i).exit? (some (m.limitFor 2)) = none ∧
        (m.begin.after i).step.1 = .ok () := by decide +kernel
    exact fun i hi => ⟨(exit?_eq_none_iff ..).1 (hcheck i hi).1, (hcheck i hi).2⟩
  have hreached : m.limitFor 2 ≤ (m.begin.after 4).cpu.instructionCount := by decide +kernel
  have hrun : m.runFor 2 = .finished (.ok ()) m₁ :=
    runFor_of_ends (.boundary hproceeds (.limitReached rfl hreached))
  exact ⟨hrun, by decide +kernel,
    runFor_add rfl (fun _ => not_raisesStop_of_quiet (fun _ _ => rfl) _) hrun 3⟩

end Composition

end Pc8086.Machine

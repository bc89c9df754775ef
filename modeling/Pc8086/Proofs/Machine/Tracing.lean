import Pc8086.Proofs.Machine.Run

namespace Pc8086.Machine

variable {δ : Type}

def untraced (m : Machine δ) : Machine δ :=
  m.modifyTrace fun _ => {}

def Progress.untraced : Progress δ → Progress δ
  | .finished r m => .finished r m.untraced
  | .unfinished m => .unfinished m.untraced

def Progress.machine : Progress δ → Machine δ
  | .finished _ m | .unfinished m => m

inductive Call where
  | step
  | runFor (n : Nat)
  deriving DecidableEq

section Parts

variable {m m' : Machine δ}

theorem Progress.machine_untraced (p : Progress δ) : p.untraced.machine = p.machine.untraced := by
  cases p <;> rfl

theorem system_congr (h : m.untraced = m'.untraced) : m.system = m'.system := by
  have hsystem : m.untraced.system = m'.untraced.system := by rw [h]
  exact hsystem

theorem begin_congr (h : m.untraced = m'.untraced) : m.begin.untraced = m'.begin.untraced :=
  congrArg begin h

theorem settle_congr (h : m.untraced = m'.untraced) : m.settle.untraced = m'.settle.untraced :=
  congrArg settle h

theorem traceInstruction_untraced (m : Machine δ) : m.traceInstruction.untraced = m.untraced := by
  unfold traceInstruction
  split <;> rfl

theorem exec_untraced {α : Type} (x : Cpu.Exec (Board δ) α) (m : Machine δ) :
    m.untraced.exec x = ((m.exec x).1, (m.exec x).2.untraced) := by
  obtain ⟨system, session⟩ := m
  unfold exec untraced modifyTrace
  dsimp only
  cases x system <;> rfl

theorem exit?_congr (h : m.untraced = m'.untraced) (limit : Option Nat) :
    m.exit? limit = m'.exit? limit := by
  have hexit : ∀ m : Machine δ, m.exit? limit = m.untraced.exit? limit := fun _ => rfl
  rw [hexit m, h, ← hexit m']

theorem limitFor_congr (h : m.untraced = m'.untraced) (n : Nat) : m.limitFor n = m'.limitFor n := by
  have hlimit : ∀ m : Machine δ, m.limitFor n = m.untraced.limitFor n := fun _ => rfl
  rw [hlimit m, h, ← hlimit m']

end Parts

variable [Peripheral δ] {m m' : Machine δ}

def call (m : Machine δ) : Call → Progress δ
  | .step => .finished m.step.1 m.step.2
  | .runFor n => m.runFor n

/-- What becomes of calls that are made one after the other, also after one that fails. -/
def outcomes (m : Machine δ) : List Call → List (Progress δ)
  | [] => []
  | c :: cs => m.call c :: (m.call c).machine.outcomes cs

theorem step_untraced (m : Machine δ) :
    m.untraced.exec Cpu.step = (m.step.1, m.step.2.untraced) := by
  rw [← traceInstruction_untraced]
  exact exec_untraced Cpu.step m.traceInstruction

theorem step_congr (h : m.untraced = m'.untraced) :
    m.step.1 = m'.step.1 ∧ m.step.2.untraced = m'.step.2.untraced := by
  have hpair := m.step_untraced
  rw [h, step_untraced] at hpair
  exact Prod.ext_iff.1 hpair.symm

theorem continueRun_congr (h : m.untraced = m'.untraced) (limit : Option Nat) (n : Nat) :
    (m.continueRun limit n).untraced = (m'.continueRun limit n).untraced := by
  induction n generalizing m m' with
  | zero =>
    unfold continueRun
    rw [exit?_congr h]
    cases m'.exit? limit with
    | some e => exact congrArg (Progress.finished (.ok ())) (settle_congr h)
    | none => exact congrArg Progress.unfinished h
  | succ n ih =>
    obtain ⟨hresult, hmachine⟩ := step_congr h
    unfold continueRun
    rw [exit?_congr h]
    cases m'.exit? limit with
    | some e => exact congrArg (Progress.finished (.ok ())) (settle_congr h)
    | none =>
      dsimp only
      generalize m.step = p at hresult hmachine
      generalize m'.step = p' at hresult hmachine
      obtain ⟨r, m₁⟩ := p
      obtain ⟨r', m₁'⟩ := p'
      obtain rfl : r = r' := hresult
      cases r with
      | ok a => exact ih hmachine
      | error f => exact congrArg (Progress.finished (.error f)) (settle_congr hmachine)

theorem call_congr (h : m.untraced = m'.untraced) (c : Call) :
    (m.call c).untraced = (m'.call c).untraced := by
  cases c with
  | step =>
    obtain ⟨hresult, hmachine⟩ := step_congr h
    exact congrArg₂ Progress.finished hresult hmachine
  | runFor n =>
    have hpulses : m.board.holdPulses = m'.board.holdPulses :=
      congrArg (fun s => s.bus.holdPulses) (system_congr h)
    change (m.runFor n).untraced = (m'.runFor n).untraced
    rw [runFor_eq, runFor_eq, limitFor_congr h, hpulses]
    exact continueRun_congr (begin_congr h) _ _

theorem call_finished (m : Machine δ) (c : Call) : ∃ r m', m.call c = .finished r m' := by
  cases c with
  | step => exact ⟨_, _, rfl⟩
  | runFor n =>
    obtain ⟨k, -, r, m', -, h⟩ := m.exists_ends_runFor n
    exact ⟨r, m', h⟩

/-- Two machines that differ in nothing but their traces give the same results to the same calls,
and after each of them they differ in nothing but their traces again. Every call gives a result. -/
theorem tracing_invisible (h : m.untraced = m'.untraced) (cs : List Call) :
    (m.outcomes cs).map Progress.untraced = (m'.outcomes cs).map Progress.untraced ∧
      ∀ p ∈ m.outcomes cs, ∃ r m₁, p = .finished r m₁ := by
  induction cs generalizing m m' with
  | nil => exact ⟨rfl, fun _ hp => absurd hp List.not_mem_nil⟩
  | cons c cs ih =>
    have hcall := call_congr h c
    have hmachine : (m.call c).machine.untraced = (m'.call c).machine.untraced := by
      rw [← Progress.machine_untraced, hcall, Progress.machine_untraced]
    obtain ⟨hrest, hfinished⟩ := ih hmachine
    refine ⟨congrArg₂ List.cons hcall hrest, fun p hp => ?_⟩
    rcases List.mem_cons.1 hp with rfl | hp
    · exact m.call_finished c
    · exact hfinished p hp

/-- A machine without a trace, and one that is to write two lines to a file on a full disk. -/
theorem full_disk_unnoticed :
    let plain : Machine Timer.IntervalTimer :=
      ((ofConfig smallConfig).loadProgram ⟨#[0xB9, 0x03, 0x00, 0xF3, 0xAA, 0xEB, 0xFE]⟩).2
    let traced := plain.modifyTrace fun _ =>
      { active := true, file := some { room := some 0 }, remaining := some 2 }
    let calls := [.runFor 3, .step, .runFor 4]
    plain.untraced = traced.untraced ∧
      (plain.outcomes calls).map Progress.untraced =
        (traced.outcomes calls).map Progress.untraced := by
  intro plain traced calls
  have hsame : plain.untraced = traced.untraced := rfl
  exact ⟨hsame, (tracing_invisible hsame calls).1⟩

end Pc8086.Machine

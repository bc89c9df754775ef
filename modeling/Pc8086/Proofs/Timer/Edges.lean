import Mathlib.Data.List.Induction
import Pc8086.Proofs.Interrupt.Balance
import Pc8086.Proofs.Timer.Period

namespace Pc8086.Timer

open Interrupt (Controller Operation)
open Interrupt.Controller (IsOuter Sound event lineOf)

structure Clockwork where
  timer : IntervalTimer
  controller : Controller
  deriving DecidableEq

inductive Action where
  | read (port : UInt16)
  | write (port : UInt16) (v : UInt8)
  | pulse
  | control (op : Operation)
  deriving DecidableEq

namespace Clockwork

def perform (w : Clockwork) : Action → Clockwork
  | .read port => { w with timer := (w.timer.readPort port).2 }
  | .write port v => { w with timer := (w.timer.writePort port v).2 }
  | .pulse => ⟨(w.timer.clock w.controller).1, (w.timer.clock w.controller).2⟩
  | .control op => { w with controller := w.controller.perform op }

def performAll (w : Clockwork) (acts : List Action) : Clockwork :=
  acts.foldl perform w

theorem performAll_concat (w : Clockwork) (acts : List Action) (a : Action) :
    w.performAll (acts ++ [a]) = (w.performAll acts).perform a := by
  simp [performAll]

def output (w : Clockwork) : Bool :=
  w.timer.counter0.output

/-- The line is high for the controller only while the timer drives it high. -/
def InStep (n : UInt8) (w : Clockwork) : Prop :=
  (w.controller.lineOf n).high = true → w.output = true

def Rises (w : Clockwork) : Prop :=
  w.output = false ∧ (w.perform .pulse).output = true

def Drops (n : UInt8) (w : Clockwork) (port : UInt16) (v : UInt8) : Prop :=
  (w.controller.lineOf n).high = true ∧ w.output = true ∧ (w.perform (.write port v)).output = false

structure Drives (n : UInt8) (w : Clockwork) : Prop where
  line : w.timer.line = some n
  sound : Sound n w.controller

variable {n : UInt8} {w : Clockwork}

section Pulse

theorem pulse_output (w : Clockwork) :
    (w.perform .pulse).output = w.timer.counter0.next.output :=
  congrArg (·.counter0.output) (clock_timer w.timer w.controller)

theorem reports_iff (w : Clockwork) :
    w.timer.counter0.tick.1 = true ↔ (w.perform .pulse).output ≠ w.output := by
  rw [pulse_output]
  exact w.timer.counter0.tick_reports_iff

theorem pulse_still (h : (w.perform .pulse).output = w.output) :
    (w.perform .pulse).controller = w.controller := by
  refine clock_silent _ _ (Bool.eq_false_iff.2 fun hr => ?_)
  exact (reports_iff w).1 hr h

theorem pulse_rise (hl : w.timer.line = some n) (h : w.Rises) :
    (w.perform .pulse).controller = w.controller.perform (.raise n) := by
  obtain ⟨hlow, hhigh⟩ := h
  have hr : w.timer.counter0.tick.1 = true := (reports_iff w).2 (by rw [hlow, hhigh]; decide)
  rw [pulse_output] at hhigh
  exact (clock_reported _ _ hl hr).trans (if_pos hhigh)

theorem pulse_fall (hl : w.timer.line = some n) (hhigh : w.output = true)
    (hlow : (w.perform .pulse).output = false) :
    (w.perform .pulse).controller = w.controller.perform (.lower n) := by
  have hr : w.timer.counter0.tick.1 = true := (reports_iff w).2 (by rw [hlow, hhigh]; decide)
  rw [pulse_output] at hlow
  exact (clock_reported _ _ hl hr).trans (if_neg (by rw [hlow]; decide))

/-- A pulse leaves the output alone, or makes it rise or fall and tells the controller. -/
theorem pulse_cases (hl : w.timer.line = some n) :
    (w.perform .pulse).output = w.output ∧ (w.perform .pulse).controller = w.controller ∨
    w.Rises ∧ (w.perform .pulse).controller = w.controller.perform (.raise n) ∨
    (w.output = true ∧ (w.perform .pulse).output = false) ∧
      (w.perform .pulse).controller = w.controller.perform (.lower n) := by
  by_cases hs : (w.perform .pulse).output = w.output
  · exact .inl ⟨hs, pulse_still hs⟩
  · cases ho : w.output with
    | false =>
      have hr : w.Rises := ⟨ho, by simpa [ho] using hs⟩
      exact .inr (.inl ⟨hr, pulse_rise hl hr⟩)
    | true =>
      have hf : (w.perform .pulse).output = false := by simpa [ho] using hs
      exact .inr (.inr ⟨⟨rfl, hf⟩, pulse_fall hl ho hf⟩)

end Pulse

section Step

theorem perform_line (w : Clockwork) (a : Action) : (w.perform a).timer.line = w.timer.line := by
  cases a with
  | read port =>
    unfold perform IntervalTimer.readPort
    dsimp only
    split <;> rfl
  | write port v =>
    unfold perform IntervalTimer.writePort IntervalTimer.control
    dsimp only
    split
    · rfl
    · rfl
    · rfl
    · split <;> rfl
    · rfl
  | pulse =>
    change (w.timer.clock w.controller).1.line = w.timer.line
    rw [clock_timer]
  | control op => rfl

theorem Drives.perform (hn : IsOuter n) (h : w.Drives n) (a : Action) :
    (w.perform a).Drives n where
  line := (perform_line w a).trans h.line
  sound := by
    cases a with
    | read port => exact h.sound
    | write port v => exact h.sound
    | pulse =>
      obtain ⟨-, hc⟩ | ⟨-, hc⟩ | ⟨-, hc⟩ := pulse_cases h.line
      · rw [hc]
        exact h.sound
      · rw [hc]
        exact h.sound.perform hn _
      · rw [hc]
        exact h.sound.perform hn _
    | control op => exact h.sound.perform hn op

/-- Reading takes a byte of the count and does not touch the output. -/
theorem read_output (w : Clockwork) (port : UInt16) : (w.perform (.read port)).output = w.output := by
  unfold perform IntervalTimer.readPort
  dsimp only
  split <;> rfl

theorem eq_raise_of_edge {c : Controller} {op : Operation} (h : event n c op = some .edge) :
    op = .raise n := by
  unfold event at h
  split at h
  · split_ifs at h with hr
    rw [hr.1]
  -- the other operations are other events
  all_goals first | cases h | (split_ifs at h <;> cases h)

theorem control_high (hn : IsOuter n) (h : w.Drives n) {op : Operation} (hop : op ≠ .raise n)
    (hh : ((w.controller.perform op).lineOf n).high = true) :
    (w.controller.lineOf n).high = true := by
  have ht := Interrupt.Controller.lineOf_perform hn h.sound.bounded op
  generalize he : event n w.controller op = e at ht
  generalize (w.controller.perform op).lineOf n = t at ht hh
  cases ht with
  | edge => exact absurd (eq_raise_of_edge he) hop
  | acceptance => exact hh
  | lowering => cases hh
  | initialization => exact hh
  | endOfInterrupt hr => rwa [hr.high] at hh
  | other => exact hh

theorem lower_high (hn : IsOuter n) (c : Controller) :
    ((c.perform (.lower n)).lineOf n).high = false := by
  have hl : (c.perform (.lower n)).lineOf n = _ := Interrupt.Controller.lineOf_clearIrq hn n
  rw [hl, if_pos rfl]

/-- A pulse keeps timer and controller in step. -/
theorem InStep.pulse (hn : IsOuter n) (hl : w.timer.line = some n) (h : w.InStep n) :
    (w.perform .pulse).InStep n := by
  intro hh
  obtain ⟨ho, hc⟩ | ⟨hr, -⟩ | ⟨-, hc⟩ := pulse_cases hl
  · rw [hc] at hh
    exact ho.trans (h hh)
  · exact hr.2
  · rw [hc, lower_high hn] at hh
    cases hh

/-- One action keeps timer and controller in step, unless it drops the output of a high line. -/
theorem InStep.perform_iff (hn : IsOuter n) (hd : w.Drives n) (h : w.InStep n) {a : Action}
    (ha : a ≠ .control (.raise n)) :
    (w.perform a).InStep n ↔ ∀ port v, a = .write port v → ¬w.Drops n port v := by
  cases a with
  | read port =>
    refine iff_of_true (fun hh => ?_) nofun
    rw [read_output]
    exact h hh
  | write port v =>
    constructor
    · rintro hs _ _ ⟨⟩ ⟨hh, -, ho⟩
      exact Bool.false_ne_true (ho.symm.trans (hs hh))
    · intro hnot hh
      by_contra ho
      exact hnot port v rfl ⟨hh, h hh, by simpa using ho⟩
  | pulse => exact iff_of_true (h.pulse hn hd.line) nofun
  | control op =>
    refine iff_of_true (fun hh => ?_) nofun
    exact h (control_high hn hd (fun he => ha (congrArg _ he)) hh)

end Step

section Run

theorem Drives.performAll (hn : IsOuter n) (h : w.Drives n) (acts : List Action) :
    (w.performAll acts).Drives n := by
  induction acts generalizing w with
  | nil => exact h
  | cons a acts ih => exact ih (h.perform hn a)

/-- Timer and controller stay in step until a write drops the output of a high line, and no
longer. -/
theorem performAll_inStep_iff (hn : IsOuter n) (hd : w.Drives n) (h : w.InStep n)
    {acts : List Action} (hacts : ∀ a ∈ acts, a ≠ .control (.raise n)) :
    (∀ pre, pre <+: acts → (w.performAll pre).InStep n) ↔
      ∀ pre port v, pre ++ [.write port v] <+: acts → ¬(w.performAll pre).Drops n port v := by
  have hstep : ∀ pre a, pre ++ [a] <+: acts → (w.performAll pre).InStep n →
      ((w.performAll (pre ++ [a])).InStep n ↔
        ∀ port v, a = .write port v → ¬(w.performAll pre).Drops n port v) := by
    intro pre a hpre hs
    rw [performAll_concat]
    exact hs.perform_iff hn (hd.performAll hn pre) (hacts a (hpre.subset (by simp)))
  constructor
  · intro hall pre port v hpre
    have hs := hall pre ((List.prefix_append _ _).trans hpre)
    exact (hstep pre _ hpre hs).1 (hall _ hpre) port v rfl
  · intro hnot pre
    induction pre using List.reverseRecOn with
    | nil => exact fun _ => h
    | append_singleton pre a ih =>
      intro hpre
      refine (hstep pre a hpre (ih ((List.prefix_append _ _).trans hpre))).2 ?_
      rintro port v rfl
      exact hnot pre port v hpre

theorem pulse_requested (hn : IsOuter n) (hd : w.Drives n)
    (ha : w.controller.registry.isActive n = true) (hr : w.Rises) :
    ((w.perform .pulse).controller.lineOf n).requested = true ↔
      (w.controller.lineOf n).high = false ∨ (w.controller.lineOf n).requested = true := by
  rw [pulse_rise hd.line hr, Interrupt.Controller.lineOf_raise hn hd.sound.bounded]
  split_ifs with hl
  · exact iff_of_true rfl (.inl hl.2.2)
  · exact (or_iff_right fun hlow => hl ⟨rfl, ha, hlow⟩).symm

theorem Rises.inStep_iff (h : w.Rises) : w.InStep n ↔ (w.controller.lineOf n).high = false := by
  unfold InStep
  rw [h.1]
  simp

/-- Every rise of the output reaches the controller as long as no write drops the output while the
line is high. Until then a pulse that raises it makes a new request of an active line; afterwards
the line may be high already, and then a rise makes none. -/
theorem edges_reach_iff (hn : IsOuter n) (hd : w.Drives n) (h : w.InStep n) {acts : List Action}
    (hacts : ∀ a ∈ acts, a ≠ .control (.raise n)) :
    ((∀ pre, pre <+: acts → (w.performAll pre).InStep n) ↔
      ∀ pre port v, pre ++ [.write port v] <+: acts → ¬(w.performAll pre).Drops n port v) ∧
    let before := w.performAll acts
    let after := before.perform .pulse
    before.controller.registry.isActive n = true → before.Rises →
      (event n before.controller (.raise n) = some .edge ↔ before.InStep n) ∧
      ((after.controller.lineOf n).requested = true ↔
        before.InStep n ∨ (before.controller.lineOf n).requested = true) := by
  refine ⟨performAll_inStep_iff hn hd h hacts, ?_⟩
  intro before after ha hr
  rw [pulse_requested hn (hd.performAll hn acts) ha hr, hr.inStep_iff]
  refine ⟨?_, Iff.rfl⟩
  simp [event, ha]

instance (n : UInt8) (w : Clockwork) : Decidable (w.InStep n) :=
  inferInstanceAs (Decidable (_ → _))

instance (w : Clockwork) : Decidable w.Rises :=
  inferInstanceAs (Decidable (_ ∧ _))

def ticking : Clockwork where
  timer := (IntervalTimer.withDivisor 4).attachIrq 0
  controller := Controller.initial.performAll [.request .timer, .writePort 0x21 0x00]

/-- Programmed for terminal count with the line low, the timer requests at the end of the count. -/
theorem terminal_count_heard :
    let acts : List Action :=
      [.pulse, .pulse, .write 0x43 0x30, .write 0x40 0x02, .write 0x40 0x00, .pulse]
    let before := ticking.performAll acts
    before.Rises ∧ ((before.perform .pulse).controller.lineOf 0).requested = true := by
  intro acts before
  have hacts : ∀ a ∈ acts, a ≠ .control (.raise 0) := by decide
  have hn : IsOuter 0 := ⟨by decide, by decide⟩
  have hd : ticking.Drives 0 := ⟨by decide, by decide, by decide⟩
  have hr : before.Rises := by decide
  obtain ⟨-, hlast⟩ := edges_reach_iff hn hd (by decide) hacts
  exact ⟨hr, (hlast (by decide) hr).2.2 (.inl (by decide))⟩

/-- Programmed for terminal count with the line high and its request accepted, the timer makes no
request at the end of the count. -/
theorem terminal_count_unheard :
    let before := ticking.performAll
      [.pulse, .pulse, .pulse, .pulse, .control (.writePort 0x20 0x0C), .control (.readPort 0x20),
        .control (.writePort 0x20 0x20), .write 0x43 0x30, .write 0x40 0x02, .write 0x40 0x00,
        .pulse]
    before.controller.registry.isActive 0 = true ∧ before.Rises ∧
      ((before.perform .pulse).controller.lineOf 0).requested = false := by
  decide

end Run

end Clockwork

end Pc8086.Timer

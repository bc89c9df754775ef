import Pc8086.Proofs.Cpu.Shadow
import Pc8086.Proofs.Machine.Run

/-!
The instruction trace against the instructions that are executed. A line is written before the step
looks at the bus hold and at the interrupt, and it is right only where neither takes the step away
from the instruction that comes next.
-/

namespace Pc8086

open Cpu

namespace Trace

theorem line_ends (c : Cpu) (m : Memory) :
    ∃ start, line c m = start ++ bit c.registers.flags.interrupt :=
  ⟨_, rfl⟩

/-- Lines tell whether interrupts are on. -/
theorem interrupt_eq_of_line {c c' : Cpu} {m m' : Memory} (h : line c m = line c' m') :
    c.registers.flags.interrupt = c'.registers.flags.interrupt := by
  have hbit : ∀ b, ∃ digit, (bit b).toList = [digit] ∧ (digit = '1' ↔ b = true) := by
    intro b
    cases b
    · exact ⟨'0', rfl, by decide⟩
    · exact ⟨'1', rfl, by decide⟩
  obtain ⟨start, hstart⟩ := line_ends c m
  obtain ⟨start', hstart'⟩ := line_ends c' m'
  obtain ⟨digit, hdigit, hon⟩ := hbit c.registers.flags.interrupt
  obtain ⟨digit', hdigit', hon'⟩ := hbit c'.registers.flags.interrupt
  rw [hstart, hstart'] at h
  have hlast := congrArg (fun s => s.toList.getLast?) h
  simp only [String.toList_append, hdigit, hdigit', List.getLast?_concat,
    Option.some.injEq] at hlast
  exact Bool.eq_iff_iff.2 (hon.symm.trans (hlast ▸ hon'))

section Files

variable {t : Trace} {f : TraceFile} {l : String}

theorem lines_writeLine (h : (f.writeLine l).failed = false) :
    (f.writeLine l).lines = f.lines.push l := by
  have hsend : ∀ (f : TraceFile) n, (f.send n).lines = f.lines := by
    intro f n
    unfold TraceFile.send
    split
    · rfl
    · split <;> rfl
  have hput : ∀ (f : TraceFile) n, (f.put n).lines = f.lines := by
    intro f n
    unfold TraceFile.put TraceFile.flush
    dsimp only
    split_ifs <;> simp only [hsend]
  unfold TraceFile.writeLine at h ⊢
  dsimp only at h ⊢
  split_ifs at h ⊢ with hfailed
  · exact absurd h (ne_false_of_eq_true hfailed)
  · dsimp only
    rw [hput, hput]

theorem file_withFile (h : (t.withFile f).active = true) :
    (t.withFile f).file = some f ∧ f.failed = false := by
  unfold withFile at h ⊢
  cases hf : f.failed with
  | true =>
    rw [hf] at h
    cases h
  | false => exact ⟨rfl, rfl⟩

theorem file_write (hfile : t.file = some f) (h : (t.write l).active = true) :
    ∃ f', (t.write l).file = some f' ∧ f'.lines = f.lines.push l := by
  obtain ⟨active, file, remaining, log, closed⟩ := t
  obtain rfl : file = some f := hfile
  obtain ⟨hf, hok⟩ := file_withFile h
  exact ⟨_, hf, lines_writeLine hok⟩

/-- A line that is neither one too many nor refused is the next one of the file. -/
theorem file_record (hfile : t.file = some f) (h : (t.record l).active = true) :
    ∃ f', (t.record l).file = some f' ∧ f'.lines = f.lines.push l := by
  unfold record at h ⊢
  split at h
  · have hoff : t.finish.active = false := by
      obtain ⟨active, file, remaining, log, closed⟩ := t
      obtain rfl : file = some f := hfile
      unfold finish withFile
      dsimp only
      split_ifs <;> rfl
    exact absurd h (ne_true_of_eq_false hoff)
  · exact file_write hfile h
  · exact file_write hfile h

end Files

end Trace

namespace Machine

variable {δ : Type} [Peripheral δ]

/-- The line that the trace gets with an iteration. -/
def written (s : System (Board δ)) : Option String :=
  if s.cpu.halted then none else some (Trace.line s.cpu s.bus.memory)

/-- The line of the instruction that an iteration executes: the address and the opcode byte with
which it is fetched, and the registers before it. -/
def executed (s : System (Board δ)) : Option String :=
  if Bus.holdRequested s.bus then none
  else
    match Exec.serviceInterrupt s with
    | .ok () t =>
      if t.cpu.halted then none
      else (t.bus.memory.byte? t.cpu.codeAddress.linear).map fun _ => Trace.line t.cpu t.bus.memory
    | .error _ _ => none

/-- The line is that of the instruction the iteration executes: a halted processor executes none,
and a running one goes on with the instruction that comes next. -/
inductive Shown (s : System (Board δ)) : Prop where
  | idle (hh : s.cpu.halted = true) (he : executed s = none)
  | next (hh : s.cpu.halted = false) (hs : ¬Held s) (ht : ¬Taken s)
    (hb : s.bus.memory.byte? s.cpu.codeAddress.linear ≠ none)

section Iterations

variable {s t : System (Board δ)} {l : String}

theorem executed_eq_some_iff :
    executed s = some l ↔ ∃ t, Fetches s t ∧
      t.bus.memory.byte? t.cpu.codeAddress.linear ≠ none ∧ l = Trace.line t.cpu t.bus.memory := by
  have heq : executed s = if Bus.holdRequested s.bus then none
      else match Exec.serviceInterrupt s with
        | .ok () t =>
          if t.cpu.halted then none
          else (t.bus.memory.byte? t.cpu.codeAddress.linear).map fun _ =>
            Trace.line t.cpu t.bus.memory
        | .error _ _ => none := rfl
  constructor
  · intro h
    rw [heq] at h
    split_ifs at h with hs
    split at h
    · next t ht =>
      split_ifs at h with hh
      obtain ⟨b, hb, rfl⟩ := Option.map_eq_some_iff.1 h
      exact ⟨t, ⟨hs, ht, Bool.eq_false_iff.2 hh⟩, by simp [hb], rfl⟩
    · cases h
  · rintro ⟨t, ⟨hs, ht, hh⟩, hb, rfl⟩
    obtain ⟨b, hb⟩ := Option.ne_none_iff_exists'.1 hb
    have hs : ¬Bus.holdRequested s.bus = true := hs
    rw [heq, if_neg hs, ht]
    dsimp only
    rw [hh, hb]
    rfl

/-- Whether the line is the right one depends on what the iteration begins with. -/
theorem written_eq_executed_iff : written s = executed s ↔ Shown s := by
  have hwritten : written s =
      if s.cpu.halted then none else some (Trace.line s.cpu s.bus.memory) := rfl
  constructor
  · intro h
    cases hh : s.cpu.halted with
    | true =>
      rw [hwritten, hh] at h
      exact .idle hh h.symm
    | false =>
      rw [hwritten, hh] at h
      obtain ⟨t, hf, hb, hl⟩ := executed_eq_some_iff.1 h.symm
      -- an acceptance clears IF, and the line shows IF set
      have ht : ¬Taken s := by
        intro ht
        have hoff : t.cpu.registers.flags.interrupt = false := off_of_taken ht hf.2.1
        have hon := Trace.interrupt_eq_of_line hl
        rw [ht.2.2, hoff] at hon
        cases hon
      have hsampled := hf.2.1
      rw [serviceInterrupt_of_not_taken ht] at hsampled
      cases hsampled
      exact .next hh hf.1 ht hb
  · intro h
    cases h with
    | idle hh he =>
      rw [hwritten, hh, he]
      rfl
    | next hh hs ht hb =>
      have hf : Fetches s (sampled s) := ⟨hs, serviceInterrupt_of_not_taken ht, hh⟩
      have he : executed s = some (Trace.line s.cpu s.bus.memory) :=
        executed_eq_some_iff.2 ⟨_, hf, hb, rfl⟩
      rw [hwritten, hh, he]
      rfl

end Iterations

section Runs

variable {m : Machine δ} {f : TraceFile} {n : Nat}

theorem step_trace (m : Machine δ) :
    m.step.2.session.trace =
      if m.session.trace.active && !m.cpu.halted then
        m.session.trace.record (Trace.line m.cpu m.board.memory)
      else m.session.trace := by
  rw [session_step]
  unfold traceInstruction
  split <;> rfl

/-- No step turns the trace on. -/
theorem active_of_step (h : m.step.2.session.trace.active = true) :
    m.session.trace.active = true := by
  rw [step_trace] at h
  split_ifs at h with hc
  · exact (Bool.and_eq_true_iff.1 hc).1
  · exact h

theorem active_of_after {k : Nat} (hk : k ≤ n) (h : (m.after n).session.trace.active = true) :
    (m.after k).session.trace.active = true := by
  induction hk with
  | refl => exact h
  | step _ ih => exact ih (active_of_step h)

theorem lines_step (hfile : m.session.trace.file = some f)
    (h : m.step.2.session.trace.active = true) :
    ∃ f', m.step.2.session.trace.file = some f' ∧
      f'.lines.toList = f.lines.toList ++ (written m.system).toList := by
  have hactive := active_of_step h
  have hwritten : written m.system =
      if m.cpu.halted then none else some (Trace.line m.cpu m.board.memory) := rfl
  rw [step_trace, hactive] at h ⊢
  cases hh : m.cpu.halted with
  | true =>
    rw [hwritten, hh]
    exact ⟨f, hfile, (List.append_nil _).symm⟩
  | false =>
    rw [hh] at h
    obtain ⟨f', hf', hlines⟩ := Trace.file_record hfile h
    rw [hwritten, hh]
    refine ⟨f', hf', ?_⟩
    rw [hlines, Array.toList_push]
    rfl

def listing (line : System (Board δ) → Option String) (m : Machine δ) (n : Nat) : List String :=
  (List.range n).filterMap fun i => line (m.after i).system

theorem listing_succ (line : System (Board δ) → Option String) (m : Machine δ) (n : Nat) :
    listing line m (n + 1) = listing line m n ++ (line (m.after n).system).toList := by
  unfold listing
  rw [List.range_succ, List.filterMap_append]
  rfl

theorem lines_after (hfile : m.session.trace.file = some f)
    (h : (m.after n).session.trace.active = true) :
    ∃ f', (m.after n).session.trace.file = some f' ∧
      f'.lines.toList = f.lines.toList ++ listing written m n := by
  induction n with
  | zero => exact ⟨f, hfile, (List.append_nil _).symm⟩
  | succ n ih =>
    obtain ⟨f₁, hf₁, hlines⟩ := ih (active_of_step h)
    obtain ⟨f', hf', hlast⟩ := lines_step hf₁ h
    refine ⟨f', hf', ?_⟩
    rw [hlast, hlines, listing_succ, List.append_assoc]

/-- What is written and what is executed are the same all along when they are at each iteration. -/
theorem listings_agree_iff (m : Machine δ) (n : Nat) :
    (∀ k ≤ n, listing written m k = listing executed m k) ↔
      ∀ i < n, Shown (m.after i).system := by
  constructor
  · intro h i hi
    have hnext := h (i + 1) hi
    rw [listing_succ, listing_succ, h i (Nat.le_of_lt hi)] at hnext
    have hsame := List.append_cancel_left hnext
    refine written_eq_executed_iff.1 ?_
    generalize written (m.after i).system = a at hsame ⊢
    generalize executed (m.after i).system = b at hsame ⊢
    cases a <;> cases b <;> simp_all
  · intro h k hk
    induction k with
    | zero => rfl
    | succ k ih =>
      have hk' : k < n := hk
      rw [listing_succ, listing_succ, ih (Nat.le_of_lt hk'), written_eq_executed_iff.2 (h k hk')]

/-- The trace in a file. As long as neither the count is reached nor a write fails, each iteration
of a processor that is not halted adds one line, in order. They are the lines of the instructions
that are executed, one for each, exactly when every iteration so far was an idle one or went on with
the instruction that came next: a line too many comes of a bus hold and of a code byte that cannot be
read, a missing one of an interrupt that wakes the processor, and a wrong one of an interrupt taken
elsewhere. -/
theorem trace_faithful_iff (hfile : m.session.trace.file = some f)
    (hactive : (m.after n).session.trace.active = true) :
    (∀ k ≤ n, ∃ f', (m.after k).session.trace.file = some f' ∧
      f'.lines.toList = f.lines.toList ++ listing written m k) ∧
    ((∀ k ≤ n, ∃ f', (m.after k).session.trace.file = some f' ∧
      f'.lines.toList = f.lines.toList ++ listing executed m k) ↔
        ∀ i < n, Shown (m.after i).system) := by
  have hlines : ∀ k ≤ n, ∃ f', (m.after k).session.trace.file = some f' ∧
      f'.lines.toList = f.lines.toList ++ listing written m k :=
    fun k hk => lines_after hfile (active_of_after hk hactive)
  refine ⟨hlines, ?_⟩
  rw [← listings_agree_iff]
  constructor
  · intro h k hk
    obtain ⟨f₁, hf₁, hwritten⟩ := hlines k hk
    obtain ⟨f₂, hf₂, hexecuted⟩ := h k hk
    cases hf₁.symm.trans hf₂
    exact List.append_cancel_left (hwritten.symm.trans hexecuted)
  · intro h k hk
    rw [← h k hk]
    exact hlines k hk

end Runs

section Unlimited

/-- A trace to a file that takes everything. -/
structure Unlimited (t : Trace) (f : TraceFile) : Prop where
  active : t.active = true
  endless : t.remaining = none
  file : t.file = some f
  roomy : f.room = none
  sound : f.failed = false

theorem Unlimited.record {t : Trace} {f : TraceFile} (h : Unlimited t f) (l : String) :
    Unlimited (t.record l) (f.writeLine l) := by
  have hsend : ∀ (f : TraceFile) n, f.room = none → f.send n = f := by
    intro f n hf
    unfold TraceFile.send
    rw [hf]
  have hput : ∀ (f : TraceFile) n, f.room = none → f.failed = false →
      (f.put n).room = none ∧ (f.put n).failed = false := by
    intro f n hf hs
    unfold TraceFile.put TraceFile.flush
    dsimp only
    split_ifs <;> simp only [hsend, hf, hs, and_self]
  obtain ⟨hroom, hsound⟩ := hput f l.utf8ByteSize h.roomy h.sound
  obtain ⟨hroom, hsound⟩ := hput _ 1 hroom hsound
  have hline : (f.writeLine l).room = none ∧ (f.writeLine l).failed = false := by
    unfold TraceFile.writeLine
    dsimp only
    rw [hsound]
    exact ⟨hroom, rfl⟩
  obtain ⟨active, file, remaining, log, closed⟩ := t
  obtain ⟨rfl, rfl, rfl, -, -⟩ := h
  have hrecord : Trace.record ⟨true, some f, none, log, closed⟩ l =
      ⟨true, some (f.writeLine l), none, log, closed⟩ := by
    change Trace.withFile _ (f.writeLine l) = _
    unfold Trace.withFile
    dsimp only
    rw [hline.2]
    rfl
  rw [hrecord]
  exact ⟨rfl, rfl, rfl, hline.1, hline.2⟩

theorem Unlimited.after {m : Machine δ} {f : TraceFile} (h : Unlimited m.session.trace f)
    (n : Nat) : ∃ f', Unlimited (m.after n).session.trace f' := by
  induction n with
  | zero => exact ⟨f, h⟩
  | succ n ih =>
    obtain ⟨f₁, h₁⟩ := ih
    change ∃ f', Unlimited (m.after n).step.2.session.trace f'
    rw [step_trace]
    split_ifs
    · exact ⟨_, h₁.record _⟩
    · exact ⟨f₁, h₁⟩

end Unlimited

def listed : Machine ExpansionCard :=
  ((ofConfig { memorySize := 64, program := ⟨0, 0⟩ }).loadProgram ⟨#[0x40, 0x90]⟩).2.modifyTrace
    fun t => t.openFile {}

theorem listed_unlimited : Unlimited listed.session.trace {} :=
  ⟨rfl, rfl, rfl, rfl, rfl⟩

/-- Two instructions make two lines. -/
theorem listed_faithful :
    (listed.after 2).session.trace.active = true ∧
      ∃ f, (listed.after 2).session.trace.file = some f ∧
        f.lines.toList = listing executed listed 2 := by
  obtain ⟨f', hf'⟩ := listed_unlimited.after 2
  have hshown : ∀ i < 2, Shown (listed.after i).system := by
    intro i hi
    have hboundary : (listed.after i).cpu.halted = false ∧
        Bus.holdRequested (listed.after i).board = false ∧ (listed.after i).cpu.latch = .idle ∧
        (listed.after i).board.memory.byte? (listed.after i).cpu.codeAddress.linear ≠ none := by
      revert i
      decide +kernel
    obtain ⟨hh, hs, hl, hb⟩ := hboundary
    refine .next hh (ne_true_of_eq_false hs) (fun ht => ?_) hb
    cases hl.symm.trans ht.1
  have hlines := (trace_faithful_iff listed_unlimited.file hf'.active).2.2 hshown
  exact ⟨hf'.active, hlines 2 (Nat.le_refl 2)⟩

/-- With the bus held for a pulse two iterations make two lines, but execute one instruction. -/
theorem held_iteration_listed :
    let m := listed.modifyBoard fun b => b.requestHold 1
    (m.after 2).session.trace.active = true ∧
      (∃ f, (m.after 2).session.trace.file = some f ∧ f.lines.size = 2) ∧
      (listing executed m 2).length = 1 := by
  intro m
  have hunlimited : Unlimited m.session.trace {} := listed_unlimited
  obtain ⟨f', hf'⟩ := hunlimited.after 2
  obtain ⟨f, hf, hlines⟩ := lines_after hunlimited.file hf'.active
  have hwritten : (listing written m 2).length = 2 := by decide +kernel
  refine ⟨hf'.active, ⟨f, hf, ?_⟩, by decide +kernel⟩
  rw [← Array.length_toList, hlines]
  exact hwritten

end Machine

end Pc8086

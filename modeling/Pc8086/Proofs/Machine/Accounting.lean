import Mathlib.Data.List.Forall2
import Pc8086.Proofs.Cpu.Journal
import Pc8086.Proofs.Machine.Failures

namespace Pc8086

open Cpu Exec

variable {δ α α' : Type}

section Storing

def Stores (x : Exec (Board δ) α) : Prop :=
  ∀ s, ∃ m, (final (x s)).bus = { s.bus with memory := m }

theorem Stores.bind {x : Exec (Board δ) α} {f : α → Exec (Board δ) α'} (hx : Stores x)
    (hf : ∀ a, Stores (f a)) : Stores (x >>= f) := by
  intro s
  refine final_bind (I := fun t => ∃ m, t.bus = { s.bus with memory := m }) (hx s) ?_
  rintro a t ⟨m, ht⟩
  obtain ⟨m', hfinal⟩ := hf a t
  exact ⟨m', by rw [hfinal, ht]⟩

theorem stores_onCpu {x : Exec (Board δ) α} (hx : ∀ s, (final (x s)).bus = s.bus) : Stores x :=
  fun s => ⟨s.bus.memory, hx s⟩

theorem stores_modify (f : Registers → Registers) :
    Stores (modifyRegisters f : Exec (Board δ) Unit) :=
  stores_onCpu fun _ => rfl

variable [Peripheral δ]

theorem stores_reading : Reading fun _ (x _ : Exec (Board δ) _) => Stores x where
  pure _ := stores_onCpu fun _ => rfl
  bind := .bind
  registers := stores_onCpu fun _ => rfl
  readByte a _ := stores_onCpu fun s => by
    unfold onBus
    dsimp only [Bus.readByte]
    cases s.bus.memory.readByte a <;> rfl

theorem stores_writeByte (a : UInt32) (v : UInt8) :
    Stores (onBus (Bus.writeByte a v) : Exec (Board δ) Unit) := by
  intro s
  unfold onBus
  dsimp only [Bus.writeByte]
  rcases s.bus.memory.writeByte a v with ⟨_ | _, m⟩
  · exact ⟨m, rfl⟩
  · exact ⟨m, rfl⟩

theorem stores_writeBytes (i : Segment) (offset : UInt16) (v : UInt32) (n : Nat) :
    Stores (writeBytes i offset v n : Exec (Board δ) Unit) := by
  induction n generalizing offset v with
  | zero => exact stores_reading.pure ()
  | succ n ih =>
    unfold writeBytes
    rw [busAddress_bind]
    exact .bind stores_reading.registers fun _ => .bind (stores_writeByte _ _) fun _ =>
      ih (offset + 1) (v >>> 8)

theorem stores_pushWord (v : UInt16) : Stores (pushWord v : Exec (Board δ) Unit) :=
  .bind stores_reading.registers fun _ => .bind (stores_modify _) fun _ =>
    stores_writeBytes _ _ _ _

theorem stores_enterVector (vector : UInt8) :
    Stores (enterVector vector : Exec (Board δ) Unit) := by
  refine .bind stores_reading.registers fun _ => .bind (stores_pushWord _) fun _ => ?_
  refine .bind (stores_modify _) fun _ => ?_
  refine .bind stores_reading.registers fun _ => .bind (stores_pushWord _) fun _ => ?_
  refine .bind stores_reading.registers fun _ => .bind (stores_pushWord _) fun _ => ?_
  refine .bind (stores_reading.readBusWord _) fun _ => ?_
  exact .bind (stores_reading.readBusWord _) fun _ => stores_modify _

theorem stores_recover (f : Fault) : Stores (recover f : Exec (Board δ) Unit) := by
  intro s
  cases hf : f.isFatal with
  | true =>
    rw [recover_of_fatal hf]
    exact ⟨s.bus.memory, rfl⟩
  | false =>
    rw [recover_of_not_fatal hf]
    cases s.cpu.divideErrorInterrupt with
    | true => exact stores_enterVector 0 { s with cpu.prefixes := s.cpu.prefixes.reset }
    | false => exact ⟨s.bus.memory, rfl⟩

end Storing

section Iteration

/-- No access moves the stop request. -/
theorem final_access_stopRequested {x : EStateM Fault (Board δ) α} (hx : Board.Plain x)
    (s : System (Board δ)) : (final (onBus x s)).bus.stopRequested = s.bus.stopRequested := by
  have hb := hx s.bus s.bus.stopRequested
  change (final (onBus x ⟨s.cpu, s.bus.withStop s.bus.stopRequested⟩)).bus.stopRequested = _
  unfold onBus
  dsimp only
  generalize x s.bus = p at hb
  generalize x (s.bus.withStop s.bus.stopRequested) = q at hb
  cases hb with
  | ok a h => rfl
  | error f h => rfl

theorem covers_holdPulses (n : Nat) :
    Board.Covers (fun b : Board δ => b.holdPulses = n) Fault.OfAccess where
  devices _ _ _ h := h
  memory _ _ h := h
  port port w _ _ := .port port w
  address a _ _ _ := .address a

variable [Peripheral δ]

theorem interior_stopRequested (stop : Bool) :
    Interior fun s : System (Board δ) => s.bus.stopRequested = stop where
  change _ h := h
  readByte a h := (final_access_stopRequested (Board.plain_busReadByte a) _).trans h
  writeByte a v h := (final_access_stopRequested (Board.plain_busWriteByte a v) _).trans h
  input w port h := (final_access_stopRequested (Board.plain_ports.busInput w port) _).trans h
  output w port v h := (final_access_stopRequested (Board.plain_ports.busOutput w port v) _).trans h
  housekeeping _ _ _ h := h

theorem iteration_stopRequested (s : System (Board δ)) :
    (final (iteration s)).bus.stopRequested = s.bus.stopRequested := by
  obtain ⟨t, ht⟩ := exists_entry s
  refine (interior_stopRequested s.bus.stopRequested).iteration ht ?_
  cases ht with
  | taken ht => rfl
  | sampled ht => rfl

theorem iteration_holdPulses (s : System (Board δ)) :
    (final (iteration s)).bus.holdPulses = s.bus.holdPulses := by
  have h := contains_iteration (covers_holdPulses s.bus.holdPulses) s rfl
  generalize iteration s = p at h
  cases h with
  | ok a h => exact h
  | error hf h => exact h

def struck (s : System (Board δ)) : Board δ :=
  if Bus.holdRequested s.bus then Bus.acknowledgeHold s.bus else (final (iteration s)).bus

theorem struck_of_held {s : System (Board δ)} (hs : Held s) :
    struck s = Bus.acknowledgeHold s.bus :=
  if_pos hs

theorem struck_of_not_held {s : System (Board δ)} (hs : ¬Held s) :
    struck s = (final (iteration s)).bus :=
  if_neg hs

theorem step_bus (s : System (Board δ)) :
    ∃ m, (final (step s)).bus = { (struck s).clockPulse with memory := m } := by
  by_cases hs : Held s
  · rw [step_of_held hs, struck_of_held hs]
    exact ⟨_, rfl⟩
  · rw [step_of_not_held hs, struck_of_not_held hs]
    cases iteration s with
    | ok a t => exact ⟨_, rfl⟩
    | error f t => exact stores_recover f (retire t)

theorem struck_stopRequested (s : System (Board δ)) :
    (struck s).stopRequested = s.bus.stopRequested := by
  by_cases hs : Held s
  · rw [struck_of_held hs]
    rfl
  · rw [struck_of_not_held hs, iteration_stopRequested]

theorem held_iff (s : System (Board δ)) : Held s ↔ 0 < s.bus.holdPulses :=
  decide_eq_true_iff

theorem struck_holdPulses (s : System (Board δ)) :
    (struck s).holdPulses = s.bus.holdPulses - 1 := by
  by_cases hs : Held s
  · rw [struck_of_held hs]
    rfl
  · rw [struck_of_not_held hs, iteration_holdPulses]
    rw [held_iff] at hs
    omega

end Iteration

section Counting

variable {β : Type}

theorem count_after_access {call : BusCall} (x : EStateM Fault β α) {s : System (Recorded β)}
    {n : Nat} (hc : call ≠ .clockPulse) (h : s.bus.latestFirst.count .clockPulse = n) :
    (final (onBus (Recorded.access call x) s)).bus.latestFirst.count .clockPulse = n := by
  rw [access_calls, List.count_cons_of_ne hc, h]

variable [Bus β]

theorem interior_instructionCount (n : Nat) :
    Interior fun s : System β => s.cpu.instructionCount = n := by
  refine interior_of_cpu (P := fun c => c.instructionCount = n) ?_ fun _ _ _ _ h => h
  intro f c hf h
  cases hf with
  | ordinary r p => exact h
  | enable r =>
    dsimp only
    split
    · exact h
    · exact h
  | halt => exact h

theorem step_instructionCount {s : System β} (hs : ¬Held s) :
    (final (step s)).cpu.instructionCount = s.cpu.instructionCount + 1 := by
  obtain ⟨t, ht⟩ := exists_entry s
  refine (interior_instructionCount s.cpu.instructionCount).step (interior_instructionCount _)
    (fun t h => congrArg (· + 1) h) hs ht ?_
  cases ht with
  | taken ht => rfl
  | sampled ht => rfl

theorem interior_clockPulses (n : Nat) :
    Interior fun s : System (Recorded β) => s.bus.latestFirst.count .clockPulse = n where
  change _ h := h
  readByte _ h := count_after_access _ nofun h
  writeByte _ _ h := count_after_access _ nofun h
  input _ _ h := count_after_access _ nofun h
  output _ _ _ h := count_after_access _ nofun h
  housekeeping _ _ _ h := h

/-- The clock ticks once in a step, whatever its outcome. -/
theorem calls_count_clockPulse (s : System β) : (calls s).count .clockPulse = 1 := by
  unfold calls
  rw [List.count_reverse]
  by_cases hs : Held s
  · rw [step_of_held (s := recorded s) hs]
    rfl
  · obtain ⟨t, ht⟩ := exists_entry (recorded s)
    refine (interior_clockPulses 0).step (interior_clockPulses 1) (fun t h => ?_)
      (s := recorded s) hs ht ?_
    · change (BusCall.clockPulse :: t.bus.latestFirst).count .clockPulse = 1
      rw [List.count_cons_self, h]
    · cases ht with
      | taken ht => rfl
      | sampled ht => rfl

end Counting

section Pulse

variable [Peripheral δ]

def Pulsed (x y : Component δ) : Prop :=
  ∃ c : Interrupt.Controller, y = (Peripheral.clock x c).device

theorem clockComponents_pulsed (cs : List (Component δ)) (c : Interrupt.Controller) :
    List.Forall₂ Pulsed cs (Board.clockComponents cs c).device := by
  induction cs generalizing c with
  | nil => exact .nil
  | cons x cs ih => exact .cons ⟨c, rfl⟩ (ih _)

def AsksForStop (cs : List (Component δ)) (c : Interrupt.Controller) : Prop :=
  ∃ xs x ys, cs = xs ++ x :: ys ∧
    (Peripheral.clock x (Board.clockComponents xs c).controller).stop = true

theorem clockComponents_stop_iff (cs : List (Component δ)) (c : Interrupt.Controller) :
    (Board.clockComponents cs c).stop = true ↔ AsksForStop cs c := by
  induction cs generalizing c with
  | nil =>
    refine iff_of_false Bool.false_ne_true ?_
    rintro ⟨xs, x, ys, h, -⟩
    cases xs <;> cases h
  | cons d cs ih =>
    have hcons : (Board.clockComponents (d :: cs) c).stop = true ↔
        (Peripheral.clock d c).stop = true ∨
          (Board.clockComponents cs (Peripheral.clock d c).controller).stop = true :=
      Bool.or_eq_true_iff
    rw [hcons, ih]
    constructor
    · rintro (h | ⟨xs, x, ys, rfl, h⟩)
      · exact ⟨[], d, cs, rfl, h⟩
      · exact ⟨d :: xs, x, ys, rfl, h⟩
    · rintro ⟨xs, x, ys, hcs, h⟩
      cases xs with
      | nil =>
        cases hcs
        exact .inl h
      | cons y xs =>
        cases hcs
        exact .inr ⟨xs, x, ys, rfl, h⟩

/-- A component asks for the run to end at the clock pulse of the step. -/
def RaisesStop (s : System (Board δ)) : Prop :=
  AsksForStop (struck s).components (struck s).controller

theorem not_raisesStop_of_quiet (h : ∀ (d : δ) c, (Peripheral.clock d c).stop = false)
    (s : System (Board δ)) : ¬RaisesStop s := by
  rintro ⟨xs, x, ys, -, hx⟩
  cases x with
  | timer t => cases hx
  | card d => exact ne_true_of_eq_false (h d _) hx

structure Counted (s t : System (Board δ)) : Prop where
  pulse : (calls s).count .clockPulse = 1
  components : List.Forall₂ Pulsed (struck s).components t.bus.components
  stop : t.bus.stopRequested = true ↔ s.bus.stopRequested = true ∨ RaisesStop s
  hold : t.bus.holdPulses = s.bus.holdPulses - 1
  held : 0 < s.bus.holdPulses → t.cpu = s.cpu
  instruction : s.bus.holdPulses = 0 → t.cpu.instructionCount = s.cpu.instructionCount + 1

theorem counted_step (s : System (Board δ)) : Counted s (final (step s)) := by
  obtain ⟨m, hbus⟩ := step_bus s
  exact
    { pulse := calls_count_clockPulse s
      components := by
        rw [hbus]
        exact clockComponents_pulsed _ _
      stop := by
        rw [hbus]
        change ((struck s).stopRequested || _) = true ↔ _
        rw [struck_stopRequested, Bool.or_eq_true, clockComponents_stop_iff]
        rfl
      hold := by
        rw [hbus]
        exact struck_holdPulses s
      held := fun h => by
        rw [step_of_held ((held_iff s).2 h)]
        rfl
      instruction := fun h => step_instructionCount fun hs => Nat.ne_of_gt ((held_iff s).1 hs) h }

end Pulse

end Pc8086

import Pc8086.Proofs.Board.Arrangement
import Pc8086.Proofs.Cpu.Leftover

/-!
Systems with the same future. Between two instructions the prefixes and the beginning of the last
one do not matter any more, unless a repetition is left over, and a stop request on the board does
not matter at all. Systems that differ in nothing else make the same step.
-/

namespace Pc8086.Cpu

open Board (Plain)
open Exec

variable {δ α α' : Type}

/-- What the next instruction keeps of the prefixes. -/
def Prefixes.carried (p : Prefixes) : Prefixes :=
  if p.isRepeating then p else p.reset

/-- The processors differ at most in what the next instruction sets anew. -/
inductive Boundary (c : Cpu) : Cpu → Prop where
  | intro (p : Prefixes) (i : UInt16) (hp : p.carried = c.prefixes.carried) :
    Boundary c { c with prefixes := p, instructionStart := i }

theorem Boundary.refl (c : Cpu) : Boundary c c :=
  .intro c.prefixes c.instructionStart rfl

/-- The processors are related by `Q`, and the boards differ at most in the stop request. -/
inductive Alongside (Q : Cpu → Cpu → Prop) : System (Board δ) → System (Board δ) → Prop where
  | intro {c d : Cpu} (h : Q c d) (b : Board δ) (stop : Bool) :
    Alongside Q ⟨c, b⟩ ⟨d, b.withStop stop⟩

section Relation

variable {Q Q' : Cpu → Cpu → Prop} {s t : System (Board δ)}

theorem Alongside.mono (hQ : ∀ c d, Q c d → Q' c d) (h : Alongside Q s t) : Alongside Q' s t := by
  obtain ⟨h, b, stop⟩ := h
  exact .intro (hQ _ _ h) b stop

/-- Nothing but what the next instruction sets anew tells the processors apart. -/
theorem Alongside.view {f : Cpu → α}
    (hf : ∀ c p i, f { c with prefixes := p, instructionStart := i } = f c)
    (h : Alongside Boundary s t) : f t.cpu = f s.cpu := by
  obtain ⟨⟨p, i, hp⟩, b, stop⟩ := h
  exact hf _ p i

theorem Alongside.boundary (h : Alongside Eq s t) : Alongside Boundary s t := by
  refine h.mono fun c d hcd => ?_
  rw [hcd]
  exact .refl d

theorem Agree.mono {β γ : Type} {R R' : System β → System γ → Prop} (hR : ∀ s t, R s t → R' s t)
    {p : EStateM.Result Fault (System β) α} {q : EStateM.Result Fault (System γ) α}
    (h : Agree R p q) : Agree R' p q := by
  cases h with
  | ok a h => exact .ok a (hR _ _ h)
  | error e h => exact .error e (hR _ _ h)

theorem Alongside.access {x : EStateM Fault (Board δ) α} (hx : Plain x) (h : Alongside Q s t) :
    Agree (Alongside Q) (onBus x s) (onBus x t) := by
  obtain ⟨h, b, stop⟩ := h
  have hb := hx b stop
  unfold onBus
  dsimp only
  generalize x b = p at hb
  generalize x (b.withStop stop) = q at hb
  cases hb with
  | ok a hb => exact .ok a (.intro h _ stop)
  | error e hb => exact .error e (.intro h _ stop)

theorem final_access_arrangement {x : EStateM Fault (Board δ) α} (hx : Plain x)
    (s : System (Board δ)) : (final (onBus x s)).bus.arrangement = s.bus.arrangement := by
  have hb := hx s.bus false
  unfold onBus
  dsimp only
  generalize x s.bus = p at hb
  generalize x (s.bus.withStop false) = q at hb
  cases hb with
  | ok a h => exact h
  | error e h => exact h

/-- A new instruction finds the same prefixes and notes the same beginning. -/
theorem Alongside.begun (h : Alongside Boundary s t) : Alongside Eq (begun s) (begun t) := by
  obtain ⟨⟨p, i, hp⟩, b, stop⟩ := h
  refine .intro ?_ b stop
  unfold Prefixes.carried at hp
  dsimp only
  rw [hp]

variable [Peripheral δ]

theorem simulation_alongside : Simulation Change (Alongside (δ := δ) Eq) where
  cpu := by
    rintro _ _ ⟨rfl, b, stop⟩
    rfl
  change := by
    rintro f _ _ _ ⟨rfl, b, stop⟩
    exact .intro rfl b stop
  readByte a h := h.access (Board.plain_busReadByte a)
  writeByte a v h := h.access (Board.plain_busWriteByte a v)
  input w port h := h.access (Board.plain_ports.busInput w port)
  output w port v h := h.access (Board.plain_ports.busOutput w port v)

end Relation

section Vector

def Blind (x : Exec (Board δ) α) : Prop :=
  ∀ s t, Alongside Boundary s t → Agree (Alongside Boundary) (x s) (x t)

theorem blind_pure (a : α) : Blind (pure a : Exec (Board δ) α) :=
  fun _ _ h => .ok a h

theorem Blind.bind {x : Exec (Board δ) α} {f : α → Exec (Board δ) α'} (hx : Blind x)
    (hf : ∀ a, Blind (f a)) : Blind (x >>= f) :=
  fun s t h => Agree.bind (hx s t h) fun a => hf a

theorem blind_registers : Blind (Exec.registers : Exec (Board δ) _) := by
  rintro _ _ ⟨⟨p, i, hp⟩, b, stop⟩
  exact .ok _ (.intro (.intro p i hp) b stop)

theorem blind_modifyRegisters (f : Registers → Registers) :
    Blind (modifyRegisters f : Exec (Board δ) _) := by
  rintro _ _ ⟨⟨p, i, hp⟩, b, stop⟩
  exact .ok () (.intro (.intro p i hp) b stop)

theorem blind_onBus {x : EStateM Fault (Board δ) α} (hx : Plain x) : Blind (onBus x) :=
  fun _ _ h => h.access hx

variable [Peripheral δ]

theorem blind_working : Working fun _ (x _ : Exec (Board δ) _) => Blind x where
  pure := blind_pure
  bind := .bind
  registers := blind_registers
  readByte a _ := blind_onBus (Board.plain_busReadByte a)
  writeByte a _ v := blind_onBus (Board.plain_busWriteByte a v)
  input w port := blind_onBus (Board.plain_ports.busInput w port)
  output w port v := blind_onBus (Board.plain_ports.busOutput w port v)
  modify := blind_modifyRegisters

end Vector

section Step

variable [Peripheral δ] {s t : System (Board δ)}

theorem Alongside.held_iff (h : Alongside Boundary s t) : Held t ↔ Held s := by
  obtain ⟨-, b, stop⟩ := h
  rfl

theorem Alongside.taken_iff (h : Alongside Boundary s t) : Taken t ↔ Taken s := by
  obtain ⟨⟨p, i, hp⟩, b, stop⟩ := h
  rfl

theorem blind_serviceInterrupt : Blind (serviceInterrupt : Exec (Board δ) _) := by
  intro s t h
  by_cases hs : Taken s
  · rw [serviceInterrupt_of_taken hs, serviceInterrupt_of_taken (h.taken_iff.2 hs)]
    obtain ⟨⟨p, i, hp⟩, b, stop⟩ := h
    exact blind_working.enterVector _ _ _ (.intro (.intro {} i rfl) _ stop)
  · rw [serviceInterrupt_of_not_taken hs, serviceInterrupt_of_not_taken (mt h.taken_iff.1 hs)]
    obtain ⟨⟨p, i, hp⟩, b, stop⟩ := h
    exact .ok () (.intro (.intro p i hp) b stop)

theorem blind_instructionPhase : Blind (instructionPhase : Exec (Board δ) _) := by
  intro s t h
  have hhalted : t.cpu.halted = s.cpu.halted := h.view fun _ _ _ => rfl
  have hflags : t.cpu.registers = s.cpu.registers := h.view fun _ _ _ => rfl
  cases hs : s.cpu.halted with
  | true =>
    rw [instructionPhase_of_halted hs, instructionPhase_of_halted (hhalted.trans hs)]
    exact .ok () h
  | false =>
    rw [instructionPhase_of_running hs, instructionPhase_of_running (hhalted.trans hs), hflags]
    have hrun := (uniform_running s.cpu.registers.flags.trap).simulates simulation_alongside h.begun
    exact hrun.mono fun _ _ h => h.boundary

theorem Alongside.pulse {Q : Cpu → Cpu → Prop} (h : Alongside Q s t) :
    Alongside Q ⟨s.cpu, Bus.clockPulse s.bus⟩ ⟨t.cpu, Bus.clockPulse t.bus⟩ := by
  obtain ⟨h, b, stop⟩ := h
  obtain ⟨stop', hstop⟩ := b.clockPulse_withStop stop
  have hpulse : Bus.clockPulse (b.withStop stop) = (Bus.clockPulse b).withStop stop' := hstop
  rw [hpulse]
  exact .intro h _ stop'

theorem Alongside.retire (h : Alongside Boundary s t) :
    Alongside Boundary (retire s) (retire t) := by
  have hretired : Alongside Boundary
      ⟨{ s.cpu with
          latch := s.cpu.latch.retire, instructionCount := s.cpu.instructionCount + 1 }, s.bus⟩
      ⟨{ t.cpu with
          latch := t.cpu.latch.retire, instructionCount := t.cpu.instructionCount + 1 }, t.bus⟩ := by
    obtain ⟨⟨p, i, hp⟩, b, stop⟩ := h
    exact .intro (.intro p i hp) b stop
  exact hretired.pulse

theorem blind_recover (f : Fault) : Blind (recover f : Exec (Board δ) _) := by
  rintro _ _ ⟨⟨p, i, hp⟩, b, stop⟩
  cases hf : f.isFatal with
  | true =>
    rw [recover_of_fatal hf, recover_of_fatal hf]
    exact .error f (.intro (.intro p i hp) b stop)
  | false =>
    rw [recover_of_not_fatal hf, recover_of_not_fatal hf]
    exact blind_working.enterVectorIf _ 0 _ _ (.intro (.intro {} i rfl) b stop)

/-- Systems that agree at a boundary make the same step and agree at the next. -/
theorem blind_step : Blind (step : Exec (Board δ) _) := by
  intro s t h
  by_cases hs : Held s
  · rw [step_of_held hs, step_of_held (h.held_iff.2 hs)]
    have hacknowledged : Alongside Boundary ⟨s.cpu, Bus.acknowledgeHold s.bus⟩
        ⟨t.cpu, Bus.acknowledgeHold t.bus⟩ := by
      obtain ⟨h, b, stop⟩ := h
      exact .intro h (Bus.acknowledgeHold b) stop
    exact .ok () hacknowledged.pulse
  · have hiteration : Agree (Alongside Boundary) (Exec.iteration s) (Exec.iteration t) := by
      rw [iteration_eq]
      exact blind_serviceInterrupt.bind (fun _ => blind_instructionPhase) s t h
    rw [step_of_not_held hs, step_of_not_held (mt h.held_iff.1 hs)]
    generalize Exec.iteration s = p at hiteration
    generalize Exec.iteration t = q at hiteration
    cases hiteration with
    | ok a h => exact .ok () h.retire
    | error f h => exact blind_recover f _ _ h.retire

end Step

end Pc8086.Cpu

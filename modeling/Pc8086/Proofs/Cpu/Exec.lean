import Pc8086.Cpu.Access

namespace Pc8086.Cpu

open Exec

variable {β α α' : Type}

def final : EStateM.Result Fault (System β) α → System β
  | .ok _ s => s
  | .error _ s => s

def fault? : EStateM.Result Fault (System β) α → Option Fault
  | .ok _ _ => none
  | .error f _ => some f

theorem eq_error_of_fault {p : EStateM.Result Fault (System β) α} {f : Fault}
    (h : fault? p = some f) : p = .error f (final p) := by
  cases p with
  | ok a s => cases h
  | error g s =>
    cases h
    rfl

theorem eq_ok_of_fault {p : EStateM.Result Fault (System β) Unit} (h : fault? p = none) :
    p = .ok () (final p) := by
  cases p with
  | ok a s => rfl
  | error f s => cases h

def result? : EStateM.Result Fault (System β) α → Option α
  | .ok a _ => some a
  | .error _ _ => none

theorem eq_ok_of_result {p : EStateM.Result Fault (System β) α} {a : α}
    (h : result? p = some a) : p = .ok a (final p) := by
  cases p with
  | ok b s =>
    cases h
    rfl
  | error f s => cases h

theorem bind_ok {x : Exec β α} {s t : System β} {a : α} (f : α → Exec β α')
    (h : x s = .ok a t) : (x >>= f) s = f a t := by
  change EStateM.bind x f s = _
  rw [EStateM.bind, h]

theorem bind_error {x : Exec β α} {s t : System β} {e : Fault} (f : α → Exec β α')
    (h : x s = .error e t) : (x >>= f) s = .error e t := by
  change EStateM.bind x f s = _
  rw [EStateM.bind, h]

def resume (f : α → Exec β α') :
    EStateM.Result Fault (System β) α → EStateM.Result Fault (System β) α'
  | .ok a s => f a s
  | .error e s => .error e s

theorem bind_eq_resume (x : Exec β α) (f : α → Exec β α') (s : System β) :
    (x >>= f) s = resume f (x s) := by
  change EStateM.bind x f s = _
  unfold EStateM.bind
  cases x s <;> rfl

/-- A result comes from the second part, run where the first one ended. -/
theorem ok_of_bind {x : Exec β α} {f : α → Exec β α'} {s t : System β} {b : α'}
    (h : (x >>= f) s = .ok b t) : ∃ a u, x s = .ok a u ∧ f a u = .ok b t := by
  cases hx : x s with
  | ok a u => exact ⟨a, u, rfl, (bind_ok f hx).symm.trans h⟩
  | error e u =>
    rw [bind_error f hx] at h
    cases h

/-- A fault comes from the first part or, that being successful, from the second. -/
theorem error_of_bind {x : Exec β α} {f : α → Exec β α'} {s t : System β} {e : Fault}
    (h : (x >>= f) s = .error e t) :
    x s = .error e t ∨ ∃ a u, x s = .ok a u ∧ f a u = .error e t := by
  cases hx : x s with
  | error e' u =>
    rw [bind_error f hx] at h
    cases h
    exact .inl rfl
  | ok a u => exact .inr ⟨a, u, rfl, (bind_ok f hx).symm.trans h⟩

theorem onBus_bind (x : EStateM Fault β α) (f : α → EStateM Fault β α') :
    onBus (x >>= f) = onBus x >>= fun a => onBus (f a) := by
  funext s
  change onBus (EStateM.bind x f) s = EStateM.bind (onBus x) (fun a => onBus (f a)) s
  unfold onBus EStateM.bind
  dsimp only
  cases x s.bus <;> rfl

section Run

variable (f : Cpu → Cpu) (s : System β)

theorem run_get (x : System β → Exec β α) : (get >>= x) s = x s s := rfl

theorem run_cpu (x : Cpu → Exec β α) : (Exec.cpu >>= x) s = x s.cpu s := rfl

theorem run_registers (x : Registers → Exec β α) :
    (Exec.registers >>= x) s = x s.cpu.registers s := rfl

theorem run_modifyCpu (x : Unit → Exec β α) :
    (modifyCpu f >>= x) s = x () ⟨f s.cpu, s.bus⟩ := rfl

end Run

theorem onBus_ok {x : EStateM Fault β α} {s : System β} {a : α} {bus : β}
    (h : x s.bus = .ok a bus) : onBus x s = .ok a { s with bus := bus } := by
  unfold onBus
  dsimp only
  rw [h]

theorem final_onBus_cpu (x : EStateM Fault β α) (s : System β) :
    (final (onBus x s)).cpu = s.cpu := by
  unfold onBus
  dsimp only
  cases x s.bus <;> rfl

theorem final_bind {I : System β → Prop} {s : System β} {x : Exec β α} {f : α → Exec β α'}
    (hx : I (final (x s))) (hf : ∀ a t, I t → I (final (f a t))) : I (final ((x >>= f) s)) := by
  cases h : x s with
  | ok a t =>
    rw [h] at hx
    rw [bind_ok f h]
    exact hf a t hx
  | error e t =>
    rw [h] at hx
    rw [bind_error f h]
    exact hx

end Pc8086.Cpu

import Pc8086.Proofs.Board.Ports
import Pc8086.Proofs.Cpu.Confinement

namespace Pc8086

inductive Fault.OfAccess : Fault → Prop where
  | port (port : UInt16) (w : Width) : OfAccess (.unknownPort port w)
  | address (a : UInt32) : OfAccess (.addressOutOfRange a)

inductive Fault.OfPort (ignores : Bool) : Fault → Prop where
  | intro (h : ignores = false) (port : UInt16) (w : Width) : OfPort ignores (.unknownPort port w)

theorem Fault.OfPort.not_ignored {ignores : Bool} {f : Fault} (h : f.OfPort ignores) :
    ¬ignores = true := by
  cases h with
  | intro h => exact Bool.eq_false_iff.1 h

theorem Fault.OfPort.ne_address {ignores : Bool} {f : Fault} (h : f.OfPort ignores) (a : UInt32) :
    f ≠ .addressOutOfRange a := by
  cases h with
  | intro => exact nofun

namespace Board

variable {δ α : Type} {I : Board δ → Prop} {E : Fault → Prop}

/-- The devices and the bytes of memory do not matter to `I`, and the faults of boards with `I` are
among `E`. -/
structure Covers (I : Board δ → Prop) (E : Fault → Prop) : Prop where
  devices {b : Board δ} (c : Interrupt.Controller) (cs : List (Component δ)) (stop : Bool)
    (h : I b) : I { b with controller := c, components := cs, stopRequested := stop }
  memory {b : Board δ} (m : Memory) (hm : m.size = b.memory.size) (h : I b) :
    I { b with memory := m }
  port {b : Board δ} (port : UInt16) (w : Width) (h : I b) (hb : b.ignoreUnknownPorts = false) :
    E (.unknownPort port w)
  address {b : Board δ} (a : UInt32) (ha : a.toNat < 0x100000) (h : I b)
    (hb : b.memory.size ≤ a.toNat) : E (.addressOutOfRange a)

theorem covers_all : Covers (fun _ : Board δ => True) Fault.OfAccess where
  devices _ _ _ h := h
  memory _ _ h := h
  port port w _ _ := .port port w
  address a _ _ _ := .address a

/-- Where memory reaches as far as the address bus only ports are left, if they are not ignored. -/
theorem covers_roomy (ignores : Bool) :
    Covers (fun b : Board δ => 0x100000 ≤ b.memory.size ∧ b.ignoreUnknownPorts = ignores)
      (Fault.OfPort ignores) where
  devices _ _ _ h := h
  memory m hm h := ⟨hm ▸ h.1, h.2⟩
  port port w h hb := .intro (h.2.symm.trans hb) port w
  address a ha h hb := by
    have hsize := h.1
    omega

section Accesses

variable {E' : Fault → Prop} (h : Covers I E)
include h

theorem Covers.mono (hE : ∀ f, E f → E' f) : Covers I E' where
  devices := h.devices
  memory := h.memory
  port port w hb hi := hE _ (h.port port w hb hi)
  address a ha hb hm := hE _ (h.address a ha hb hm)

theorem Covers.atComponent (f : Component δ → α × Component δ) (i : Nat) (absent : α) (b : Board δ)
    (hb : I b) : I (b.atComponent i f absent).2 := by
  unfold Board.atComponent
  cases b.components[i]? with
  | none => exact hb
  | some c => exact h.devices b.controller _ b.stopRequested hb

theorem Covers.clockPulse [Peripheral δ] {b : Board δ} (hb : I b) : I b.clockPulse :=
  h.devices _ _ _ hb

theorem Covers.unknownPort (port : UInt16) (w : Width) :
    Confines I E (unknownPort port w : EStateM Fault (Board δ) UInt32) := by
  intro b hb
  unfold Board.unknownPort
  cases hi : b.ignoreUnknownPorts with
  | true => exact .ok _ hb
  | false => exact .error (h.port port w hb hi) hb

variable [Peripheral δ]

theorem Covers.ports :
    PortAccess (fun _ _ => True) fun _ (x : EStateM Fault (Board δ) _) => Confines I E x where
  pure a _ hb := .ok a hb
  bind := .bind
  look _ hf _ b hb := hf b b hb
  unknownPort := h.unknownPort
  readOwned port := confines_modifyGet fun b hb => by
    unfold readOwned
    rcases b.ownerOf port with _ | _ | i
    · exact hb
    · exact h.devices _ b.components b.stopRequested hb
    · exact h.atComponent _ i none b hb
  writeOwned port v _ := confines_modifyGet fun b hb => by
    unfold writeOwned
    rcases b.ownerOf port with _ | _ | i
    · exact hb
    · exact h.devices _ b.components b.stopRequested hb
    · exact h.atComponent _ i false b hb
  readWord port i := confines_modifyGet (h.atComponent _ i none)
  writeWord port v i := confines_modifyGet (h.atComponent _ i false)

theorem Covers.serves : Serves (Board δ) I E where
  readByte a ha b hb := by
    dsimp only [Bus.readByte]
    by_cases hm : a.toNat < b.memory.size
    · rw [Memory.readByte_eq hm]
      exact .ok _ hb
    · rw [Memory.readByte_eq_error hm]
      exact .error (h.address a ha hb (Nat.le_of_not_lt hm)) hb
  writeByte a ha v b hb := by
    dsimp only [Bus.writeByte]
    by_cases hm : a.toNat < b.memory.size
    · rw [Memory.writeByte_eq hm]
      exact .ok () (h.memory _ (Memory.size_poke ..) hb)
    · rw [Memory.writeByte_eq_error hm]
      exact .error (h.address a ha hb (Nat.le_of_not_lt hm)) (h.memory _ rfl hb)
  input := h.ports.busInput
  output := h.ports.busOutput

end Accesses

end Board

end Pc8086

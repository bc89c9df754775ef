import Pc8086.Interrupt.Controller

namespace Pc8086.Interrupt

inductive Operation where
  | readPort (port : UInt16)
  | writePort (port : UInt16) (v : UInt8)
  | raise (line : UInt8)
  | lower (line : UInt8)
  | acknowledge
  | request (device : Device)
  /-- Lowers the line as well. -/
  | releaseIrq (line : UInt8)
  | releaseLine (line : UInt8)
  | setEnabled (line : UInt8) (on : Bool)
  deriving DecidableEq

namespace Role

def commandPort : Role → UInt16
  | master => 0x20
  | slave => 0xA0

def dataPort : Role → UInt16
  | master => 0x21
  | slave => 0xA1

theorem commandPort_injective : Function.Injective commandPort := by
  intro r r' h
  cases r <;> cases r' <;> first | rfl | exact absurd h (by decide)

theorem dataPort_ne_commandPort (r r' : Role) : r.dataPort ≠ r'.commandPort := by
  cases r <;> cases r' <;> decide

end Role

/-- The operation goes to one chip: it names a port or a line of that chip. -/
def Operation.AddressedTo (r : Role) : Operation → Prop
  | readPort port | writePort port _ => port = r.commandPort ∨ port = r.dataPort
  | raise line | lower line | releaseIrq line | releaseLine line | setEnabled line _ =>
    line < 16 ∧ (Controller.locate line).1 = r
  | acknowledge | request _ => False

namespace Controller

def perform (c : Controller) : Operation → Controller
  | .readPort port => (c.readPort port).2
  | .writePort port v => (c.writePort port v).2
  | .raise line => c.setIrq line
  | .lower line => c.clearIrq line
  | .acknowledge => c.acknowledge.2
  | .request device => (c.requestIrq device).2
  | .releaseIrq line => (c.releaseIrq line).2
  | .releaseLine line => (c.releaseLine line).2
  | .setEnabled line on => (c.setEnabled line on).2

def performAll (c : Controller) (ops : List Operation) : Controller :=
  ops.foldl perform c

@[simp] theorem performAll_append (c : Controller) (ops ops' : List Operation) :
    c.performAll (ops ++ ops') = (c.performAll ops).performAll ops' :=
  List.foldl_append

@[simp] theorem performAll_nil (c : Controller) : c.performAll [] = c := rfl

@[simp] theorem performAll_cons (c : Controller) (op : Operation) (ops : List Operation) :
    c.performAll (op :: ops) = (c.perform op).performAll ops := rfl

@[simp] theorem performAll_singleton (c : Controller) (op : Operation) :
    c.performAll [op] = c.perform op := rfl

/-- Every operation of a run is `p` in the state it finds. -/
def Throughout (p : Controller → Operation → Prop) (c : Controller) : List Operation → Prop
  | [] => True
  | op :: ops => p c op ∧ Throughout p (c.perform op) ops

instance decidableThroughout (p : Controller → Operation → Prop) [∀ c op, Decidable (p c op)]
    (c : Controller) : (ops : List Operation) → Decidable (c.Throughout p ops)
  | [] => inferInstanceAs (Decidable True)
  | op :: ops =>
    have := decidableThroughout p (c.perform op) ops
    inferInstanceAs (Decidable (p c op ∧ Throughout p (c.perform op) ops))

section Ports

variable (c : Controller) (r : Role) (v : UInt8)

@[simp] theorem perform_readCommand :
    c.perform (.readPort r.commandPort) = (c.readCommand r).2 := by
  cases r <;> rfl

@[simp] theorem perform_readData : c.perform (.readPort r.dataPort) = c := by
  cases r <;> rfl

@[simp] theorem perform_writeCommand :
    c.perform (.writePort r.commandPort v) = c.writeCommand r v := by
  cases r <;> rfl

@[simp] theorem perform_writeData : c.perform (.writePort r.dataPort v) = c.writeData r v := by
  cases r <;> rfl

theorem and_eq_of_and_eq {v m k w : UInt8} (hk : m &&& k = k) (h : v &&& m = w) :
    v &&& k = w &&& k := by
  rw [← h, UInt8.and_assoc, hk]

theorem writeCommand_mode {v : UInt8} (hv : v &&& 0x18 = 0x08) :
    c.writeCommand r v = c.modeCommand r v := by
  have hi : v &&& 0x10 = 0 := (and_eq_of_and_eq (by decide) hv).trans rfl
  unfold writeCommand
  rw [if_neg (by simp [hi]), if_pos (by simp [hv])]

theorem writeCommand_service {v : UInt8} (hv : v &&& 0x18 = 0) :
    c.writeCommand r v = c.serviceCommand r v := by
  have hi : v &&& 0x10 = 0 := (and_eq_of_and_eq (by decide) hv).trans rfl
  unfold writeCommand
  rw [if_neg (by simp [hi]), if_neg (by simp [hv])]

theorem port_cases (port : UInt16) :
    (∃ r : Role, port = r.commandPort) ∨ (∃ r : Role, port = r.dataPort) ∨
      (∀ r : Role, port ≠ r.commandPort) ∧
        ∀ c : Controller,
          c.perform (.readPort port) = c ∧ ∀ v, c.perform (.writePort port v) = c := by
  by_cases h0 : port = 0x20
  · exact .inl ⟨.master, h0⟩
  by_cases h1 : port = 0x21
  · exact .inr (.inl ⟨.master, h1⟩)
  by_cases h2 : port = 0xA0
  · exact .inl ⟨.slave, h2⟩
  by_cases h3 : port = 0xA1
  · exact .inr (.inl ⟨.slave, h3⟩)
  refine .inr (.inr ⟨fun r => ?_, fun c => ?_⟩)
  · cases r
    · exact h0
    · exact h2
  · simp [perform, readPort, writePort, *]

end Ports

@[simp] theorem chip_setChip (c : Controller) (r : Role) (d : Chip) :
    (c.setChip r d).chip r = d := by
  cases r <;> rfl

theorem chip_setChip_of_ne (c : Controller) {r r' : Role} (h : r' ≠ r) (d : Chip) :
    (c.setChip r d).chip r' = c.chip r' := by
  cases r <;> cases r' <;> first | rfl | exact absurd rfl h

@[simp] theorem chip_modifyChip (c : Controller) (r : Role) (f : Chip → Chip) :
    (c.modifyChip r f).chip r = f (c.chip r) :=
  chip_setChip ..

theorem chip_modifyChip_of_ne (c : Controller) {r r' : Role} (h : r' ≠ r) (f : Chip → Chip) :
    (c.modifyChip r f).chip r' = c.chip r' :=
  chip_setChip_of_ne c h _

end Controller

end Pc8086.Interrupt

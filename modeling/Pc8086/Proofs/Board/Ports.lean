import Pc8086.Board.Basic

namespace Pc8086.Board

variable {δ : Type} [Peripheral δ]

/-- A property that port accesses inherit from their parts, as long as they write only bytes that
are allowed. -/
structure PortAccess (Allowed : UInt16 → UInt8 → Prop)
    (P : (α : Type) → EStateM Fault (Board δ) α → Prop) : Prop where
  pure {α : Type} (a : α) : P α (pure a)
  bind {α α' : Type} {x : EStateM Fault (Board δ) α} {f : α → EStateM Fault (Board δ) α'}
    (hx : P α x) (hf : ∀ a, P α' (f a)) : P α' (x >>= f)
  /-- The board is looked at for the owner of a port. -/
  look {α : Type} {f : Board δ → EStateM Fault (Board δ) α} (port : UInt16) (hf : ∀ b, P α (f b))
    (ho : ∀ b b', b.ownerOf port = b'.ownerOf port → f b = f b') : P α (get >>= f)
  unknownPort (port : UInt16) (w : Width) : P UInt32 (unknownPort port w)
  readOwned (port : UInt16) : P (Option UInt8) (modifyGet (readOwned port))
  writeOwned (port : UInt16) (v : UInt8) (hv : Allowed port v) :
    P Bool (modifyGet (writeOwned port v))
  readWord (port : UInt16) (i : Nat) :
    P (Option UInt16) (modifyGet fun b => b.atComponent i (Peripheral.readWord port) none)
  writeWord (port : UInt16) (v : UInt16) (i : Nat) :
    P Bool (modifyGet fun b => b.atComponent i (Peripheral.writeWord port v) false)

def wordBytes (port v : UInt16) : List (UInt16 × UInt8) :=
  [(port, v.toUInt8), (port + 1, (v >>> 8).toUInt8)]

def accessBytes (w : Width) (port : UInt16) (v : UInt32) : List (UInt16 × UInt8) :=
  match w with
  | .byte => [(port, v.toUInt8)]
  | .word => wordBytes port v.toUInt16
  | .dword => wordBytes port v.toUInt16 ++ wordBytes (port + 2) (v >>> 16).toUInt16

variable {Allowed : UInt16 → UInt8 → Prop} {P : (α : Type) → EStateM Fault (Board δ) α → Prop}

section Accesses

variable (h : PortAccess Allowed P)
include h

theorem PortAccess.drop {w : Width} (port : UInt16) :
    P Unit (do let _ ← Board.unknownPort port w) :=
  h.bind (h.unknownPort port w) fun _ => h.pure ()

theorem PortAccess.inputByte (port : UInt16) : P UInt32 (inputByte port) := by
  refine h.bind (h.readOwned port) fun v => ?_
  cases v with
  | none => exact h.unknownPort port .byte
  | some v => exact h.pure _

theorem PortAccess.outputByte (port : UInt16) (v : UInt8) (hv : Allowed port v) :
    P Unit (outputByte port v) := by
  refine h.bind (h.writeOwned port v hv) fun handled => ?_
  cases handled with
  | false => exact h.drop port
  | true => exact h.pure ()

theorem PortAccess.inputWord (port : UInt16) : P UInt32 (inputWord port) := by
  refine h.look port (fun b => ?_) fun _ _ ho => by simp only [ho]
  rcases b.ownerOf port with _ | _ | i
  · exact h.unknownPort port .word
  · exact h.pure _
  · refine h.bind (h.readWord port i) fun v => ?_
    cases v with
    | none =>
      exact h.bind (h.inputByte port) fun _ => h.bind (h.inputByte (port + 1)) fun _ => h.pure _
    | some v => exact h.pure _

theorem PortAccess.outputWord (port : UInt16) (v : UInt16)
    (hv : ∀ x ∈ wordBytes port v, Allowed x.1 x.2) : P Unit (outputWord port v) := by
  have hlow := hv (port, v.toUInt8) (by simp [wordBytes])
  have hhigh := hv (port + 1, (v >>> 8).toUInt8) (by simp [wordBytes])
  refine h.look port (fun b => ?_) fun _ _ ho => by simp only [ho]
  rcases b.ownerOf port with _ | _ | i
  · exact h.drop port
  · exact h.pure ()
  · refine h.bind (h.writeWord port v i) fun handled => ?_
    cases handled with
    | false => exact h.bind (h.outputByte port _ hlow) fun _ => h.outputByte (port + 1) _ hhigh
    | true => exact h.pure ()

theorem PortAccess.inputDword (port : UInt16) : P UInt32 (inputDword port) := by
  refine h.look port (fun b => ?_) fun _ _ ho => by simp only [ho]
  rcases b.ownerOf port with _ | _ | i
  · exact h.unknownPort port .dword
  · exact h.pure _
  · exact h.bind (h.inputWord port) fun _ => h.bind (h.inputWord (port + 2)) fun _ => h.pure _

theorem PortAccess.outputDword (port : UInt16) (v : UInt32)
    (hv : ∀ x ∈ accessBytes .dword port v, Allowed x.1 x.2) : P Unit (outputDword port v) := by
  have hlow := h.outputWord port v.toUInt16 fun x hx => hv x (List.mem_append_left _ hx)
  have hhigh := h.outputWord (port + 2) (v >>> 16).toUInt16 fun x hx =>
    hv x (List.mem_append_right _ hx)
  refine h.look port (fun b => ?_) fun _ _ ho => by simp only [ho]
  rcases b.ownerOf port with _ | _ | i
  · exact h.drop port
  · exact h.pure ()
  · exact h.bind hlow fun _ => hhigh

theorem PortAccess.busInput (w : Width) (port : UInt16) : P UInt32 (Bus.input w port) := by
  cases w with
  | byte => exact h.inputByte port
  | word => exact h.inputWord port
  | dword => exact h.inputDword port

theorem PortAccess.busOutputAllowed (w : Width) (port : UInt16) (v : UInt32)
    (hv : ∀ x ∈ accessBytes w port v, Allowed x.1 x.2) : P Unit (Bus.output w port v) := by
  cases w with
  | byte => exact h.outputByte port _ (hv _ List.mem_cons_self)
  | word => exact h.outputWord port _ hv
  | dword => exact h.outputDword port _ hv

end Accesses

theorem PortAccess.busOutput (h : PortAccess (fun _ _ => True) P) (w : Width) (port : UInt16)
    (v : UInt32) : P Unit (Bus.output w port v) :=
  h.busOutputAllowed w port v fun _ _ => trivial

end Pc8086.Board

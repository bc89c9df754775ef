import Pc8086.Board.ScratchCard
import Pc8086.Proofs.Cpu.Journal
import Pc8086.Proofs.Cpu.OnBoard

namespace Pc8086

def Memory.Spells (m : Memory) (base offset : UInt16) : List UInt8 → Prop
  | [] => True
  | b :: bytes => m.byte? (linear base offset) = some b ∧ m.Spells base (offset + 1) bytes

instance Memory.decidableSpells (m : Memory) (base : UInt16) :
    (offset : UInt16) → (bytes : List UInt8) → Decidable (m.Spells base offset bytes)
  | _, [] => inferInstanceAs (Decidable True)
  | offset, _ :: bytes =>
    have := decidableSpells m base (offset + 1) bytes
    inferInstanceAs (Decidable (_ ∧ m.Spells base (offset + 1) bytes))

theorem Memory.spells_append {m : Memory} {base offset : UInt16} {xs ys : List UInt8} :
    m.Spells base offset (xs ++ ys) ↔
      m.Spells base offset xs ∧ m.Spells base (offset + UInt16.ofNat xs.length) ys := by
  induction xs generalizing offset with
  | nil =>
    change _ ↔ True ∧ m.Spells base (offset + UInt16.ofNat 0) ys
    rw [add_ofNat_zero, true_and]
    rfl
  | cons b xs ih =>
    change _ ∧ m.Spells base (offset + 1) (xs ++ ys) ↔ (_ ∧ _) ∧ _
    rw [ih, and_assoc, List.length_cons, add_ofNat_succ]

namespace Cpu

open Exec

section Supply

variable {β : Type} [Bus β] {s t u : System β} {b : UInt8} {bytes xs ys : List UInt8}

/-- A fetch is a read at CS:IP, past which the instruction pointer moves. -/
theorem fetchByte_eq (s : System β) :
    fetchByte s = match Bus.readByte s.cpu.codeAddress.linear s.bus with
      | .ok b bus =>
        .ok b ⟨{ s.cpu with registers.ip := s.cpu.registers.ip + 1 }, bus⟩
      | .error e bus => .error e ⟨s.cpu, bus⟩ := by
  unfold fetchByte
  rw [run_cpu, bind_eq_resume]
  unfold onBus
  dsimp only
  cases Bus.readByte s.cpu.codeAddress.linear s.bus <;> rfl

/-- One fetch after another yields the bytes and leads from the first system to the second. -/
def Supplies : System β → List UInt8 → System β → Prop
  | s, [], t => t = s
  | s, b :: bytes, t => ∃ u, fetchByte s = .ok b u ∧ Supplies u bytes t

theorem supplies_append :
    Supplies s (xs ++ ys) t ↔ ∃ u, Supplies s xs u ∧ Supplies u ys t := by
  induction xs generalizing s with
  | nil =>
    constructor
    · exact fun h => ⟨s, rfl, h⟩
    · rintro ⟨u, rfl, h⟩
      exact h
  | cons b xs ih =>
    constructor
    · rintro ⟨v, hv, h⟩
      obtain ⟨u, hu, h⟩ := ih.1 h
      exact ⟨u, ⟨v, hv, hu⟩, h⟩
    · rintro ⟨u, ⟨v, hv, hu⟩, h⟩
      exact ⟨v, hv, ih.2 ⟨u, hu, h⟩⟩

theorem supplies_singleton : Supplies s [b] t ↔ fetchByte s = .ok b t := by
  constructor
  · rintro ⟨u, h, rfl⟩
    exact h
  · exact fun h => ⟨t, h, rfl⟩

theorem fetchByte_cpu (h : fetchByte s = .ok b t) :
    t.cpu = { s.cpu with registers.ip := s.cpu.registers.ip + 1 } := by
  rw [fetchByte_eq] at h
  cases hr : Bus.readByte s.cpu.codeAddress.linear s.bus with
  | ok v bus =>
    rw [hr] at h
    cases h
    rfl
  | error e bus =>
    rw [hr] at h
    cases h

/-- Fetching moves the instruction pointer and nothing else of the processor. -/
theorem Supplies.cpu (h : Supplies s bytes t) :
    t.cpu = { s.cpu with
      registers.ip := s.cpu.registers.ip + UInt16.ofNat bytes.length } := by
  induction bytes generalizing s with
  | nil =>
    rw [show t = s from h]
    change s.cpu = { s.cpu with registers.ip := s.cpu.registers.ip + 0 }
    rw [UInt16.add_zero]
  | cons b bytes ih =>
    obtain ⟨u, hu, h⟩ := h
    rw [ih h, fetchByte_cpu hu, List.length_cons, add_ofNat_succ]

theorem fetchByte_withPrefixes (p : Prefixes) (h : fetchByte s = .ok b t) :
    fetchByte { s with cpu.prefixes := p } = .ok b { t with cpu.prefixes := p } := by
  rw [fetchByte_eq] at h ⊢
  change (match Bus.readByte s.cpu.codeAddress.linear s.bus with
    | .ok _ _ => _
    | .error _ _ => _) = _
  cases hr : Bus.readByte s.cpu.codeAddress.linear s.bus with
  | ok v bus =>
    rw [hr] at h
    cases h
    rfl
  | error e bus =>
    rw [hr] at h
    cases h

theorem Supplies.withPrefixes (p : Prefixes) (h : Supplies s bytes t) :
    Supplies { s with cpu.prefixes := p } bytes { t with cpu.prefixes := p } := by
  induction bytes generalizing s with
  | nil =>
    rw [show t = s from h]
    rfl
  | cons b bytes ih =>
    obtain ⟨u, hu, h⟩ := h
    exact ⟨_, fetchByte_withPrefixes p hu, ih h⟩

end Supply

section Boards

variable {δ : Type} [Peripheral δ] {bytes : List UInt8}

def advanced {β : Type} (n : Nat) (s : System β) : System β :=
  { s with cpu.registers.ip := s.cpu.registers.ip + UInt16.ofNat n }

theorem advanced_succ {β : Type} (n : Nat) (s : System β) :
    advanced (n + 1) s = advanced n { s with cpu.registers.ip := s.cpu.registers.ip + 1 } := by
  unfold advanced
  dsimp only
  rw [add_ofNat_succ]

/-- A board supplies the bytes in its memory. -/
theorem supplies_board {s : System (Board δ)}
    (h : s.bus.memory.Spells s.cpu.registers.cs s.cpu.registers.ip bytes) :
    Supplies s bytes (advanced bytes.length s) := by
  induction bytes generalizing s with
  | nil =>
    change { s with cpu.registers.ip := s.cpu.registers.ip + 0 } = s
    rw [UInt16.add_zero]
  | cons b bytes ih =>
    have hfetch : fetchByte s =
        .ok b { s with cpu.registers.ip := s.cpu.registers.ip + 1 } := by
      have hread : s.bus.memory.readByte s.cpu.codeAddress.linear = .ok b := by
        have hb : s.bus.memory.byte? s.cpu.codeAddress.linear = some b := h.1
        rw [Memory.readByte, hb]
      rw [fetchByte_eq]
      dsimp only [Bus.readByte]
      rw [hread]
    rw [List.length_cons, advanced_succ]
    exact ⟨_, hfetch, ih h.2⟩

def codeBytes (r : Registers) (n : Nat) : UInt32 → Prop :=
  fun a => ∃ i < n, a = linear r.cs (r.ip + UInt16.ofNat i)

def fetches (r : Registers) (n : Nat) : List BusCall :=
  (List.range n).map fun i => .read (linear r.cs (r.ip + UInt16.ofNat i))

theorem fetches_add (r : Registers) (m n : Nat) :
    fetches r (m + n) = fetches r m ++ fetches { r with ip := r.ip + UInt16.ofNat m } n := by
  have hshift : ∀ i, r.ip + UInt16.ofNat (m + i) = r.ip + UInt16.ofNat m + UInt16.ofNat i := by
    intro i
    rw [UInt16.ofNat_add, UInt16.add_assoc]
  unfold fetches
  rw [List.range_add, List.map_append, List.map_map]
  simp only [Function.comp_def, hshift]

theorem fetches_succ (r : Registers) (n : Nat) :
    fetches r (n + 1) = .read (linear r.cs r.ip) :: fetches { r with ip := r.ip + 1 } n := by
  have hone : fetches r 1 = [.read (linear r.cs r.ip)] := by
    change [BusCall.read (linear r.cs (r.ip + UInt16.ofNat 0))] = _
    rw [add_ofNat_zero]
  rw [Nat.add_comm, fetches_add, hone]
  rfl

theorem write_not_mem_fetches (r : Registers) (n : Nat) (a : UInt32) (v : UInt8) :
    BusCall.write a v ∉ fetches r n := by
  simp [fetches]

theorem supplies_recorded {s : System (Recorded (Board δ))}
    (h : s.bus.bus.memory.Spells s.cpu.registers.cs s.cpu.registers.ip bytes) :
    Supplies s bytes
      { advanced bytes.length s with
        bus.latestFirst :=
          (fetches s.cpu.registers bytes.length).reverse ++ s.bus.latestFirst } := by
  induction bytes generalizing s with
  | nil =>
    change { s with cpu.registers.ip := s.cpu.registers.ip + 0 } = s
    rw [UInt16.add_zero]
  | cons b bytes ih =>
    have hfetch : fetchByte s =
        .ok b
          { s with
            cpu.registers.ip := s.cpu.registers.ip + 1
            bus.latestFirst := .read s.cpu.codeAddress.linear :: s.bus.latestFirst } := by
      have hread : s.bus.bus.memory.readByte s.cpu.codeAddress.linear = .ok b := by
        have hb : s.bus.bus.memory.byte? s.cpu.codeAddress.linear = some b := h.1
        rw [Memory.readByte, hb]
      rw [fetchByte_eq]
      dsimp only [Bus.readByte, Recorded.access]
      rw [hread]
    rw [List.length_cons, advanced_succ, fetches_succ, List.reverse_cons, List.append_assoc]
    exact ⟨_, hfetch, ih h.2⟩

/-- A board of 16 bytes without devices. -/
def loaded (bytes : List UInt8) : Board ExpansionCard where
  memory := ⟨⟨(bytes ++ List.replicate (16 - bytes.length) 0).toArray⟩⟩
  controller := .initial
  components := []
  owners := []
  ignoreUnknownPorts := true

end Boards

end Cpu

end Pc8086

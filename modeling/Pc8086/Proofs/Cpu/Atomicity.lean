import Pc8086.Proofs.Board.Faults
import Pc8086.Proofs.Cpu.InterruptReturn
import Pc8086.Proofs.Cpu.Origin
import Pc8086.Proofs.Cpu.Supply

namespace Pc8086

theorem Fault.OfAccess.not_ofInstruction {f : Fault} (h : f.OfAccess) : ¬f.OfInstruction := by
  cases h <;> exact nofun

/-- Recording an access adds no fault to it. -/
theorem Serves.recorded {β : Type} [Bus β] {I : β → Prop} {E : Fault → Prop} (h : Serves β I E) :
    Serves (Recorded β) (fun b => I b.bus) E := by
  have haccess : ∀ {α : Type} (call : BusCall) {x : EStateM Fault β α}, Confines I E x →
      Confines (fun b : Recorded β => I b.bus) E (Recorded.access call x) := by
    intro α call x hx b hb
    have hs := hx b.bus hb
    unfold Recorded.access
    generalize x b.bus = p at hs
    cases hs with
    | ok a h => exact .ok a h
    | error he h => exact .error he h
  exact
    { readByte := fun a ha => haccess _ (h.readByte a ha)
      writeByte := fun a ha v => haccess _ (h.writeByte a ha v)
      input := fun w port => haccess _ (h.input w port)
      output := fun w port v => haccess _ (h.output w port v) }

def BusCall.Reads (c : BusCall) : Prop :=
  ∃ a, c = .read a

namespace Cpu

open Exec

variable {δ α α' : Type}

section Looking

variable {β : Type}

/-- In between memory was read, also for `n` bytes of code, which the instruction pointer has moved
past, and prefixes were noted. -/
inductive Looked (s : System (Recorded β)) : System (Recorded β) → Prop where
  | intro (n : Nat) {ip : UInt16} (hip : ip = s.cpu.registers.ip + UInt16.ofNat n) (p : Prefixes)
    {calls : List BusCall} (hr : ∀ c ∈ calls, BusCall.Reads c)
    (hf : (fetches s.cpu.registers n).Sublist calls) :
    Looked s
      { cpu := { s.cpu with registers := { s.cpu.registers with ip := ip }, prefixes := p }
        bus := ⟨s.bus.bus, calls.reverse ++ s.bus.latestFirst⟩ }

variable {s t u : System (Recorded β)}

theorem Looked.noted (s : System (Recorded β)) (p : Prefixes) :
    Looked s { s with cpu.prefixes := p } :=
  .intro 0 (UInt16.add_zero _).symm p (List.forall_mem_nil _) (List.nil_sublist _)

theorem Looked.refl (s : System (Recorded β)) : Looked s s :=
  .noted s s.cpu.prefixes

theorem Looked.read (s : System (Recorded β)) (a : UInt32) :
    Looked s { s with bus.latestFirst := .read a :: s.bus.latestFirst } :=
  .intro 0 (UInt16.add_zero _).symm s.cpu.prefixes (List.forall_mem_singleton.2 ⟨a, rfl⟩)
    (List.nil_sublist _)

theorem Looked.fetched (s : System (Recorded β)) :
    Looked s
      { s with
        cpu.registers.ip := s.cpu.registers.ip + 1
        bus.latestFirst :=
          .read (linear s.cpu.registers.cs s.cpu.registers.ip) :: s.bus.latestFirst } := by
  have hone : fetches s.cpu.registers 1 =
      [.read (linear s.cpu.registers.cs s.cpu.registers.ip)] := by
    change [BusCall.read (linear s.cpu.registers.cs (s.cpu.registers.ip + UInt16.ofNat 0))] = _
    rw [add_ofNat_zero]
  exact .intro 1 rfl s.cpu.prefixes (List.forall_mem_singleton.2 ⟨_, rfl⟩)
    (hone ▸ List.Sublist.refl _)

theorem Looked.trans (h : Looked s t) (h' : Looked t u) : Looked s u := by
  obtain ⟨n, rfl, p, hr, hf⟩ := h
  obtain ⟨m, rfl, q, hr', hf'⟩ := h'
  rw [← List.append_assoc, ← List.reverse_append]
  refine .intro (n + m) ?_ q (List.forall_mem_append.2 ⟨hr, hr'⟩) ?_
  · rw [UInt16.ofNat_add, UInt16.add_assoc]
  · rw [fetches_add]
    exact hf.append hf'

/-- The outcome of looking: whatever comes of it but for a fault of an access, nothing else has been
done. -/
inductive Seen (s : System (Recorded β)) :
    EStateM.Result Fault (System (Recorded β)) α → Prop where
  | ok (a : α) {t : System (Recorded β)} (h : Looked s t) : Seen s (.ok a t)
  | error {f : Fault} {t : System (Recorded β)} (h : f.OfInstruction → Looked s t) :
    Seen s (.error f t)

def Looks (x : Exec (Recorded β) α) : Prop :=
  ∀ s, Seen s (x s)

/-- A fault of the instruction itself comes up before anything is done but looking. -/
def Atomic (x : Exec (Recorded β) α) : Prop :=
  ∀ s f t, x s = .error f t → f.OfInstruction → Looked s t

theorem Looks.bind {x : Exec (Recorded β) α} {f : α → Exec (Recorded β) α'} (hx : Looks x)
    (hf : ∀ a, Looks (f a)) : Looks (x >>= f) := by
  intro s
  have hs := hx s
  change Seen s (EStateM.bind x f s)
  unfold EStateM.bind
  generalize x s = p at hs
  cases hs with
  | error ht => exact .error ht
  | @ok a t ht =>
    have hrest := hf a t
    dsimp only
    generalize f a t = q at hrest
    cases hrest with
    | ok b hu => exact .ok b (ht.trans hu)
    | error hu => exact .error fun he => ht.trans (hu he)

theorem Looks.atomic {x : Exec (Recorded β) α} (hx : Looks x) : Atomic x := by
  intro s f t h hf
  have hs := hx s
  rw [h] at hs
  obtain _ | ht := hs
  exact ht hf

theorem Looks.bind_atomic {x : Exec (Recorded β) α} {f : α → Exec (Recorded β) α'}
    (hx : Looks x) (hf : ∀ a, Atomic (f a)) : Atomic (x >>= f) := by
  intro s e t h he
  rcases error_of_bind h with h | ⟨a, u, hu, h⟩
  · exact hx.atomic s e t h he
  · have hs := hx s
    rw [hu] at hs
    cases hs with
    | ok _ hlooked => exact hlooked.trans (hf a u e t h he)

theorem looks_throw (f : Cpu → Fault) :
    Looks (do throw (f (← Exec.cpu)) : Exec (Recorded β) α) :=
  fun s => .error fun _ => .refl s

theorem atomic_of_contains {x : Exec (Recorded β) α}
    (hx : Contains (fun _ => True) Fault.OfAccess x) : Atomic x :=
  fun _ _ _ h hf => absurd hf (hx.fault h trivial).not_ofInstruction

theorem atomic_replace (r? : Option Registers) :
    Atomic (match r? with
      | some r => modifyRegisters fun _ => r
      | none => divideError : Exec (Recorded β) Unit) := by
  cases r? with
  | some r => exact fun _ _ _ h => nomatch h
  | none => exact (looks_throw _).atomic

end Looking

section Boards

variable [Peripheral δ]

/-- A board is as before when its memory has been read. -/
theorem run_recordedRead (a : UInt32) (s : System (Recorded (Board δ))) :
    let t : System (Recorded (Board δ)) :=
      { s with bus.latestFirst := .read a :: s.bus.latestFirst }
    (∃ v, onBus (Bus.readByte a) s = .ok v t) ∨
      onBus (Bus.readByte a) s = .error (.addressOutOfRange a) t := by
  intro t
  unfold onBus
  dsimp only [Bus.readByte, Recorded.access]
  by_cases hm : a.toNat < s.bus.bus.memory.size
  · rw [Memory.readByte_eq hm]
    exact .inl ⟨_, rfl⟩
  · rw [Memory.readByte_eq_error hm]
    exact .inr rfl

theorem looks_readByte (a : UInt32) :
    Looks (onBus (Bus.readByte a) : Exec (Recorded (Board δ)) UInt8) := by
  intro s
  rcases run_recordedRead a s with ⟨v, h⟩ | h
  · rw [h]
    exact .ok v (.read s a)
  · rw [h]
    exact .error nofun

theorem looks_fetchByte : Looks (fetchByte : Exec (Recorded (Board δ)) UInt8) := by
  intro s
  unfold fetchByte
  rw [run_cpu]
  rcases run_recordedRead s.cpu.codeAddress.linear s with ⟨v, h⟩ | h
  · rw [bind_ok _ h]
    exact .ok v (.fetched s)
  · rw [bind_error _ h]
    exact .error nofun

theorem looks_fetching : Fetching fun _ (x _ : Exec (Recorded (Board δ)) _) => Looks x where
  pure a s := .ok a (.refl s)
  bind := .bind
  registers s := .ok _ (.refl s)
  operandSegment _ s := .ok _ (.refl s)
  currentWidth s := .ok _ (.refl s)
  fetchByte := looks_fetchByte
  readByte a _ := looks_readByte a
  record f s := .ok () (.noted s (f s.cpu))
  endless := looks_throw _

/-- Divisions check before they write, and no other instruction has faults of its own. -/
theorem atomic_execute (i : Instruction) : Atomic (execute i : Exec (Recorded (Board δ)) Unit) := by
  have hlooks := looks_fetching (δ := δ)
  by_cases hd : i.Divides
  · cases hd with
    | accumulator op w source =>
      exact (hlooks.readPlace w source).bind_atomic fun v =>
        Looks.bind_atomic hlooks.registers fun r => atomic_replace _
    | splitDigits base =>
      exact Looks.bind_atomic hlooks.registers fun r => atomic_replace _
  · by_cases hu : ∃ bytes, i = .undefined bytes
    · obtain ⟨bytes, rfl⟩ := hu
      exact (looks_throw _).atomic
    · refine atomic_of_contains (contains_performing Board.covers_all.serves.recorded ?_ ?_).execute
      · exact fun bytes h => absurd ⟨bytes, h⟩ hu
      · exact fun h => absurd h hd

variable {s v : System (Board δ)} {f : Fault}

/-- Without an interrupt and up to the fault the iteration has only looked. -/
theorem looked_of_iteration {v : System (Recorded (Board δ))} (hs : ¬Held s) (ht : ¬Taken s)
    (h : iteration (recorded s) = .error f v) (hf : f.OfInstruction) :
    Looked (begun (sampled (recorded s))) v := by
  have hservice : serviceInterrupt (recorded s) = .ok () (sampled (recorded s)) :=
    serviceInterrupt_of_not_taken ht
  have hentry : ∀ {t}, Fetches (recorded s) t → t = sampled (recorded s) := by
    rintro t ⟨-, h, -⟩
    cases hservice.symm.trans h
    rfl
  cases raised_of_iteration (s := recorded s) hs h with
  | entry h => cases hservice.symm.trans h
  | decoding hfetches h =>
    obtain rfl := hentry hfetches
    exact (looks_fetching.decodeInstruction none segmentSize).atomic _ f v h hf
  | @execution t u i hfetches hd h =>
    obtain rfl := hentry hfetches
    have hdecode := looks_fetching.decodeInstruction none segmentSize (begun (sampled (recorded s)))
    rw [hd] at hdecode
    cases hdecode with
    | ok _ hlooked => exact hlooked.trans (atomic_execute i u f v h hf)
  | trap _ _ _ h =>
    have hvector := (contains_working (Board.covers_all (δ := δ)).serves.recorded).enterVector 1
    exact absurd hf (hvector.fault h trivial).not_ofInstruction

def iterationCalls (s : System (Board δ)) : List BusCall :=
  (final (iteration (recorded s))).bus.latestFirst.reverse

/-- A request may have been noticed, but of the instruction no more is to be seen than that IP has
moved on by `n` bytes and prefixes were noted. -/
def suspended (s : System (Board δ)) (n : Nat) (p : Prefixes) : System (Board δ) :=
  { s with
    cpu.registers.ip := s.cpu.registers.ip + UInt16.ofNat n
    cpu.prefixes := p
    cpu.latch := (sampled s).cpu.latch
    cpu.instructionStart := s.cpu.registers.ip }

theorem suspended_of_iteration (hs : ¬Held s) (ht : ¬Taken s) (h : iteration s = .error f v)
    (hf : f.OfInstruction) :
    ∃ n p, v = suspended s n p ∧ (∀ c ∈ iterationCalls s, c.Reads) ∧
      (fetches s.cpu.registers n).Sublist (iterationCalls s) := by
  have hrecorded := Tracks.iteration (s := recorded s) (t := s) rfl
  unfold iterationCalls
  rw [h] at hrecorded
  generalize hi : iteration (recorded s) = p at hrecorded
  cases hrecorded with
  | @error _ v' _ hv =>
    obtain @⟨n, _, rfl, p, calls, hr, hfetches⟩ := looked_of_iteration hs ht hi hf
    refine ⟨n, p, hv.symm, ?_⟩
    change (∀ c ∈ (calls.reverse ++ []).reverse, c.Reads) ∧
      (fetches s.cpu.registers n).Sublist (calls.reverse ++ []).reverse
    rw [List.append_nil, List.reverse_reverse]
    exact ⟨hr, hfetches⟩

/-- An instruction that ends in a fault of its own does nothing else. Without an interrupt, when its
fault comes up only IP and the record of prefixes have changed; memory is as it was, has been read
only, and IP has moved past the bytes fetched. An undefined instruction is reported in this state. A
divide error is passed over in this state or enters vector 0 from it, which leaves flags, CS and the
advanced IP on the stack, if memory reaches as far as the address bus. -/
theorem instruction_fault_atomic (hs : ¬Held s) (ht : ¬Taken s) (h : iteration s = .error f v)
    (hf : f.OfInstruction) :
    ∃ n p, v = suspended s n p ∧ (∀ c ∈ iterationCalls s, c.Reads) ∧
      (fetches s.cpu.registers n).Sublist (iterationCalls s) ∧
      (f.isFatal = true → step s = .error f { retire v with cpu.fatalError := true }) ∧
      (f.isFatal = false →
        let w := { retire v with cpu.prefixes := {} }
        let r := { s.cpu.registers with ip := s.cpu.registers.ip + UInt16.ofNat n }
        let top := r.word .sp - 6
        (s.cpu.divideErrorInterrupt = false → step s = .ok () w) ∧
        (s.cpu.divideErrorInterrupt = true → step s = enterVector 0 w ∧
          (Roomy s → ∃ m : Memory,
            step s = .ok () (withRegisters (withMemory w m)
              (Registers.setWord
                { r with
                  cs := m.word 0 2
                  ip := m.word 0 0
                  flags := { r.flags with interrupt := false, trap := false } } .sp top)) ∧
            Framed m top r ∧
            ∀ a, (∀ i < 6, linear r.ss (top + UInt16.ofNat i) ≠ a) →
              m.peek a = s.bus.memory.peek a))) := by
  -- up to the fault no register has changed but IP, and nothing outside of the CPU
  obtain ⟨n, p, rfl, hcalls, hfetches⟩ := suspended_of_iteration hs ht h hf
  have hstep : step s = recover f (retire (suspended s n p)) := by
    rw [step_of_not_held hs, h]
  refine ⟨n, p, rfl, hcalls, hfetches, fun hfatal => ?_, fun hfatal => ?_⟩
  · rw [hstep, recover_of_fatal hfatal]
  · intro w r top
    have hrecover : step s = (if s.cpu.divideErrorInterrupt then enterVector 0 else pure ()) w :=
      hstep.trans (recover_of_not_fatal hfatal _)
    refine ⟨fun hoff => ?_, fun hon => ?_⟩
    · rw [hrecover, hoff]
      rfl
    · rw [hon] at hrecover
      refine ⟨hrecover, fun hroom => ?_⟩
      obtain ⟨m, henter, hframed, hkept⟩ := enterVector_framed (s := w) hroom 0
      exact ⟨m, hrecover.trans henter, hframed, hkept⟩

end Boards

/-- A board of 16 bytes without devices. Its program divides by AL and has an undefined operation
behind that. -/
def dividing : Board ExpansionCard where
  memory := ⟨⟨#[0xF6, 0xF0, 0xFE, 0xF8] ++ Array.replicate 12 0⟩⟩
  controller := .initial
  components := []
  owners := []
  ignoreUnknownPorts := true

/-- The division by zero moves IP past its two bytes and enters vector 0. -/
theorem dividing_atomic :
    let s : System (Board ExpansionCard) := ⟨{ registers := { ebx := 7, esp := 16 } }, dividing⟩
    let v := final (iteration s)
    iteration s = .error (.divideError ⟨0, 0⟩) v ∧ v.cpu.registers.ip = 2 ∧
      (∃ n p, v = suspended s n p) ∧
      step s = enterVector 0 { retire v with cpu.prefixes := {} } := by
  intro s v
  have h : iteration s = .error (.divideError ⟨0, 0⟩) v := eq_error_of_fault (by decide +kernel)
  have hs : ¬Held s := Bool.false_ne_true
  have ht : ¬Taken s := fun ht => Bool.false_ne_true ht.2.1
  obtain ⟨n, p, hv, -, -, -, hdivide⟩ := instruction_fault_atomic hs ht h (.divide _)
  exact ⟨h, by decide +kernel, ⟨n, p, hv⟩, ((hdivide rfl).2 rfl).1⟩

end Cpu

end Pc8086

import Pc8086.Proofs.Cpu.Delivery
import Pc8086.Proofs.Cpu.Leftover

namespace Pc8086.Cpu

open Exec

variable {β α : Type} {I J : Cpu → Prop}

section Preservation

/-- What holds of the processor before holds of it afterwards, whatever the outcome. -/
def Preserves (I : Cpu → Prop) (x : Exec β α) : Prop :=
  ∀ s, I s.cpu → I (final (x s)).cpu

theorem Preserves.bind {α' : Type} {x : Exec β α} {f : α → Exec β α'} (hx : Preserves I x)
    (hf : ∀ a, Preserves I (f a)) : Preserves I (x >>= f) :=
  fun s h => final_bind (I := fun t => I t.cpu) (hx s h) fun a => hf a

theorem preserves_onBus (x : EStateM Fault β α) : Preserves I (onBus x) := by
  intro s h
  rwa [final_onBus_cpu]

variable [Bus β]

theorem preserves_accessing (I : Cpu → Prop) :
    Accessing fun _ (x _ : Exec β _) => Preserves I x where
  pure _ _ h := h
  bind := .bind
  registers _ h := h
  readByte _ _ := preserves_onBus _
  writeByte _ _ _ := preserves_onBus _
  input _ _ := preserves_onBus _
  output _ _ _ := preserves_onBus _

theorem preserves_working (hI : ∀ c r p, I c → I { c with registers := r, prefixes := p }) :
    Working fun _ (x _ : Exec β _) => Preserves I x where
  toAccessing := preserves_accessing I
  modify f s h := hI s.cpu (f s.cpu.registers) s.cpu.prefixes h

/-- What neither registers nor prefixes bear upon goes through every instruction but two. -/
theorem preserves_performing {i : Instruction}
    (hI : ∀ c r p, I c → I { c with registers := r, prefixes := p })
    (he : i = .changeFlag .enableInterrupts →
      Preserves I (changeFlag .enableInterrupts : Exec β Unit))
    (hh : i = .halt → Preserves I (modifyCpu fun c => { c with halted := true } : Exec β Unit)) :
    Performing (fun _ (x _ : Exec β _) => Preserves I x) i where
  toWorking := preserves_working hI
  undefined _ _ _ h := h
  divide _ _ h := h
  string _ _ _ := by
    refine ⟨fun _ h => h, fun s h => ?_⟩
    change I s.cpu.finishElement
    unfold finishElement
    split
    · exact h
    · exact hI _ _ _ h
  enable := he
  halt := hh

theorem preserves_fetching
    (hI : ∀ c ip p, I c → I { c with registers := { c.registers with ip := ip }, prefixes := p }) :
    Fetching fun _ (x _ : Exec β _) => Preserves I x where
  toReading := (preserves_accessing I).toReading
  operandSegment _ _ h := h
  currentWidth _ h := h
  fetchByte := by
    refine .bind (fun _ h => h) fun _ => .bind (preserves_onBus _) fun _ => ?_
    exact .bind (fun s h => hI s.cpu _ s.cpu.prefixes h) fun _ _ h => h
  record f s h := hI s.cpu s.cpu.registers.ip (f s.cpu) h
  endless _ h := h

/-- What the end of a step does not break: the record of a fault and the entry to a vector. -/
structure Inert (β : Type) [Bus β] (I : Cpu → Prop) : Prop where
  housekeeping {c} (p : Prefixes) (e : Bool) (h : I c) : I { c with prefixes := p, fatalError := e }
  enterVector (vector : UInt8) : Preserves I (enterVector vector : Exec β Unit)

theorem inert_of_working
    (hI : ∀ c r p e, I c → I { c with registers := r, prefixes := p, fatalError := e }) :
    Inert β I where
  housekeeping p e h := hI _ _ p e h
  enterVector := (preserves_working fun c r p h => hI c r p c.fatalError h).enterVector

theorem Inert.enterVectorIf (hI : Inert β I) (on : Bool) (vector : UInt8) :
    Preserves I (if on then Exec.enterVector vector else pure () : Exec β Unit) := by
  cases on with
  | false => exact fun _ h => h
  | true => exact hI.enterVector vector

theorem Inert.recover (hI : Inert β I) (f : Fault) : Preserves I (recover f : Exec β Unit) := by
  intro s h
  cases hf : f.isFatal with
  | true =>
    rw [recover_of_fatal hf]
    exact hI.housekeeping s.cpu.prefixes true h
  | false =>
    rw [recover_of_not_fatal hf]
    exact hI.enterVectorIf _ 0 _ (hI.housekeeping s.cpu.prefixes.reset s.cpu.fatalError h)

theorem Inert.close {s : System β} (hJ : Inert β J) (hs : ¬Held s)
    (h : J (retire (final (iteration s))).cpu) : J (final (step s)).cpu := by
  rw [step_of_not_held hs]
  generalize iteration s = p at h
  cases p with
  | ok a t => exact h
  | error f t => exact hJ.recover f (retire t) h

end Preservation

section Latch

def Alert (l : RequestLatch) (c : Cpu) : Prop :=
  c.latch = l ∧ c.halted = false

def Off (c : Cpu) : Prop :=
  c.registers.flags.interrupt = false

variable [Bus β] {l : RequestLatch} {i : Instruction}

/-- Only two instructions touch the latch or halt. -/
theorem alert_performing (he : i ≠ .changeFlag .enableInterrupts) (hh : i ≠ .halt) :
    Performing (fun _ (x _ : Exec β _) => Preserves (Alert l) x) i :=
  preserves_performing (fun _ _ _ h => h) (fun h => absurd h he) fun h => absurd h hh

theorem alert_inert (l : RequestLatch) : Inert β (Alert l) :=
  inert_of_working fun _ _ _ _ h => h

theorem flags_pushWord (P : Flags → Prop) (v : UInt16) :
    Preserves (fun c => P c.registers.flags) (pushWord v : Exec β Unit) :=
  .bind (fun _ h => h) fun _ => .bind (fun _ h => h) fun _ =>
    (preserves_accessing fun c => P c.registers.flags).writeMemory _ _ _

/-- Neither an interrupt nor a single step is due. -/
def Cleared (f : Flags) : Prop :=
  f.interrupt = false ∧ f.trap = false

/-- An entry clears the two flags before it does anything but push them. -/
theorem enterVector_clears (vector : UInt8) :
    ∃ rest : Exec β Unit, (∀ s, Cleared (final (rest s)).cpu.registers.flags) ∧
      enterVector vector =
        Exec.registers >>= fun r => pushWord r.flags.toWord >>= fun _ => rest := by
  let P (c : Cpu) : Prop := Cleared c.registers.flags
  have hA := preserves_accessing (β := β) P
  refine ⟨_, fun s => ?_, rfl⟩
  refine final_bind (I := fun t => P t.cpu) ⟨rfl, rfl⟩ fun _ => ?_
  refine Preserves.bind (fun _ h => h) fun _ => .bind (flags_pushWord Cleared _) fun _ => ?_
  refine .bind (fun _ h => h) fun _ => .bind (flags_pushWord Cleared _) fun _ => ?_
  exact .bind (hA.readBusWord _) fun _ => .bind (hA.readBusWord _) fun _ _ h => h

theorem off_inert : Inert β Off where
  housekeeping _ _ h := h
  enterVector vector := by
    obtain ⟨rest, hrest, heq⟩ := enterVector_clears (β := β) vector
    rw [heq]
    exact .bind (fun _ h => h) fun _ =>
      .bind (flags_pushWord (·.interrupt = false) _) fun _ s _ => (hrest s).1

theorem cleared_of_enterVector {vector : UInt8} {s t : System β}
    (h : enterVector vector s = .ok () t) : Cleared t.cpu.registers.flags := by
  obtain ⟨rest, hrest, heq⟩ := enterVector_clears (β := β) vector
  rw [heq, run_registers] at h
  cases hpush : pushWord s.cpu.registers.flags.toWord s with
  | ok a u =>
    rw [bind_ok _ hpush] at h
    have hcleared := hrest u
    rwa [h] at hcleared
  | error e u =>
    rw [bind_error _ hpush] at h
    cases h

/-- Behind a taken interrupt interrupts are off. -/
theorem off_of_taken {s t : System β} (ht : Taken s) (h : serviceInterrupt s = .ok () t) :
    Off t.cpu := by
  rw [serviceInterrupt_of_taken ht] at h
  exact (cleared_of_enterVector h).1

end Latch

section Step

variable [Bus β] {s t u : System β}

theorem Fetches.close (hf : Fetches s t) (hI : Inert β I) (hJ : Inert β J)
    (hr : ∀ s : System β, I s.cpu → J (retire s).cpu)
    (h : I (final (runInstruction none segmentSize (begun t))).cpu) : J (final (step s)).cpu := by
  refine hJ.close hf.1 (hr _ ?_)
  rw [hf.iteration]
  exact final_bind (I := fun u => I u.cpu) h fun _ u hu =>
    hI.enterVectorIf t.cpu.registers.flags.trap 1 u hu

theorem alert_retire (l : RequestLatch) (s : System β) (h : Alert l s.cpu) :
    Alert l.retire (retire s).cpu :=
  ⟨congrArg RequestLatch.retire h.1, h.2⟩

theorem decoded_off (ht : Off t.cpu) {i : Instruction}
    (hd : decodeInstruction none segmentSize (begun t) = .ok i u) : Off u.cpu := by
  have hdecode := (preserves_fetching (β := β) (I := Off) fun _ _ _ h => h).decodeInstruction
    none segmentSize (begun t) ht
  rwa [hd] at hdecode

theorem decoded_alert (ht : t.cpu.halted = false) :
    Alert t.cpu.latch (final (decodeInstruction none segmentSize (begun t))).cpu :=
  (preserves_fetching (β := β) fun _ _ _ h => h).decodeInstruction none segmentSize (begun t)
    ⟨rfl, ht⟩

/-- A halt leaves interrupts off. -/
theorem Fetches.off_of_halt (hf : Fetches s t) (ht : Off t.cpu)
    (hd : decodeInstruction none segmentSize (begun t) = .ok .halt u) :
    Off (final (step s)).cpu := by
  refine hf.close off_inert off_inert (fun _ h => h) ?_
  have hu : Off u.cpu := decoded_off ht hd
  rw [runInstruction_eq, bind_ok _ hd]
  exact hu

theorem Fetches.alert (hf : Fetches s t)
    (hi : ∀ i u, decodeInstruction none segmentSize (begun t) = .ok i u →
      i ≠ .changeFlag .enableInterrupts ∧ i ≠ .halt) :
    Alert t.cpu.latch.retire (final (step s)).cpu := by
  refine hf.close (alert_inert t.cpu.latch) (alert_inert _) (alert_retire _) ?_
  have hdecode := decoded_alert hf.2.2
  rw [runInstruction_eq]
  cases hd : decodeInstruction none segmentSize (begun t) with
  | error f u =>
    rw [hd] at hdecode
    rwa [bind_error _ hd]
  | ok i u =>
    rw [hd] at hdecode
    rw [bind_ok _ hd]
    obtain ⟨he, hh⟩ := hi i u hd
    exact (alert_performing he hh).execute u hdecode

theorem not_taken_of_off (h : Off s.cpu) : ¬Taken s :=
  fun ht => Bool.false_ne_true (h.symm.trans ht.2.2)

/-- A step that turns interrupts on runs an instruction, and no interrupt is taken before. -/
theorem fetches_of_on (hoff : Off s.cpu) (hon : ¬Off (final (step s)).cpu) :
    Fetches s (sampled s) := by
  have hs : ¬Held s := by
    intro hs
    rw [step_of_held hs] at hon
    exact hon hoff
  have ht := not_taken_of_off hoff
  refine ⟨hs, serviceInterrupt_of_not_taken ht, Bool.eq_false_iff.2 fun hh => hon ?_⟩
  rw [step_of_not_held hs, iteration_of_halted ht hh]
  exact hoff

theorem retire_sample (l : RequestLatch) (line : Bool) :
    (l.sample line).2.retire = if line then .waited else .idle := by
  cases l <;> cases line <;> rfl

/-- Where the flag is loaded by another instruction than the one made for it, a request has waited
behind the flag. -/
theorem step_alert (hoff : Off s.cpu) (hon : ¬Off (final (step s)).cpu) (he : ¬Enables s) :
    Alert (if Bus.interruptRequested s.bus then .waited else .idle) (final (step s)).cpu := by
  have hf := fetches_of_on hoff hon
  have ht : Off (sampled s).cpu := hoff
  rw [← retire_sample s.cpu.latch]
  refine hf.alert fun i u hd => ⟨?_, ?_⟩
  · rintro rfl
    exact he ⟨hf.1, _, u, hf.2.1, hf.2.2, hd, decoded_off ht hd⟩
  · rintro rfl
    exact hon (hf.off_of_halt ht hd)

/-- The instruction made for it leaves no request in the latch. -/
theorem Enables.alert (h : Enables s) : Alert .idle (final (step s)).cpu := by
  obtain ⟨hs, t, u, hi, hh, hd, hf⟩ := h
  have hdecode := decoded_alert hh
  rw [hd] at hdecode
  have hfetches : Fetches s t := ⟨hs, hi, hh⟩
  refine hfetches.close (alert_inert .idle) (alert_inert _) (alert_retire .idle) ?_
  rw [runInstruction_eq, bind_ok _ hd]
  change Alert .idle (if u.cpu.registers.flags.interrupt then _ else _)
  rw [hf]
  exact ⟨rfl, hdecode.2⟩

theorem step_waited_iff (hoff : Off s.cpu) (hon : ¬Off (final (step s)).cpu) :
    ((final (step s)).cpu.latch = .waited ↔ ¬Enables s ∧ Requested s) ∧
      (final (step s)).cpu.halted = false := by
  by_cases he : Enables s
  · obtain ⟨hlatch, hrunning⟩ := he.alert
    rw [hlatch]
    exact ⟨iff_of_false nofun fun h => h.1 he, hrunning⟩
  · obtain ⟨hlatch, hrunning⟩ := step_alert hoff hon he
    rw [hlatch]
    refine ⟨?_, hrunning⟩
    unfold Requested
    cases Bus.interruptRequested s.bus with
    | true => exact iff_of_true rfl ⟨he, rfl⟩
    | false => exact iff_of_false nofun fun h => Bool.false_ne_true h.2

end Step

namespace Run

variable [Bus β] (r : Run β) {n m : Nat}

/-- The processor rests while another master has the bus. -/
theorem cpu_of_held (hn : n ≤ m) (hh : ∀ k, n ≤ k → k < m → Held (r.boundary k)) :
    (r.boundary m).cpu = (r.boundary n).cpu := by
  induction hn with
  | refl => rfl
  | @step m hm ih =>
    rw [r.next, step_of_held (hh m hm (Nat.lt_succ_self m))]
    exact ih fun k hk hlt => hh k hk (Nat.lt_succ_of_lt hlt)

/-- The step after interrupts were turned on, holds aside. It runs the instruction at the resulting
address before any interrupt is taken, unless the request has been there since before they were
turned on, and they were turned on otherwise than by the instruction made for it: then the interrupt
comes first. -/
theorem acknowledged_after_enabling_iff (hn : n < m)
    (hoff : (r.boundary n).cpu.registers.flags.interrupt = false)
    (hon : (r.boundary (n + 1)).cpu.registers.flags.interrupt = true)
    (hheld : ∀ k, n < k → k < m → Held (r.boundary k)) (hm : ¬Held (r.boundary m)) :
    (.acknowledge ∈ calls (r.boundary m) ↔
      ¬Enables (r.boundary n) ∧ Requested (r.boundary n) ∧ Requested (r.boundary m)) ∧
    (.acknowledge ∉ calls (r.boundary m) →
      Fetches (r.boundary m) (sampled (r.boundary m)) ∧
      (r.boundary m).cpu.registers = (r.boundary (n + 1)).cpu.registers) := by
  have hcpu : (r.boundary m).cpu = (r.boundary (n + 1)).cpu := r.cpu_of_held hn hheld
  have hstep : ¬Off (final (step (r.boundary n))).cpu := by
    rw [← r.next]
    exact fun hoff => Bool.false_ne_true (hoff.symm.trans hon)
  obtain ⟨hlatch, hrunning⟩ := step_waited_iff hoff hstep
  rw [← r.next, ← hcpu] at hlatch hrunning
  have htaken : Taken (r.boundary m) ↔
      ¬Enables (r.boundary n) ∧ Requested (r.boundary n) ∧ Requested (r.boundary m) := by
    unfold Taken
    rw [hlatch, hcpu, hon, and_assoc]
    simp
  rw [acknowledge_mem_calls_iff, ← htaken]
  refine ⟨⟨fun h => h.2, fun h => ⟨hm, h⟩⟩, fun h => ?_⟩
  have hentry := serviceInterrupt_of_not_taken fun ht => h ⟨hm, ht⟩
  exact ⟨⟨hm, hentry, hrunning⟩, congrArg Cpu.registers hcpu⟩

end Run

/-- A board of 16 bytes with a request on the serial line, which nothing masks. Its program begins
with a one-byte instruction, and from address 4 on there are three words: where the program goes on,
and flags with interrupts on. -/
def requesting (b : UInt8) : Board ExpansionCard where
  memory := ⟨⟨#[b, 0x40, 0, 0, 0x01, 0, 0, 0, 0x00, 0x02, 0, 0, 0, 0, 0, 0]⟩⟩
  controller := ((Interrupt.Controller.initial.requestIrq .serial).2.writePort 0x21 0).2.setIrq 4
  components := []
  owners := []
  ignoreUnknownPorts := false

/-- The instruction made for it gives the next one its time, though the request is there all
along. -/
theorem requesting_waits :
    let r := Run.unattended {} (requesting 0xFB)
    (r.boundary 0).cpu.registers.flags.interrupt = false ∧
      (r.boundary 1).cpu.registers.flags.interrupt = true ∧
      Requested (r.boundary 0) ∧ Requested (r.boundary 1) ∧ Enables (r.boundary 0) ∧
      Fetches (r.boundary 1) (sampled (r.boundary 1)) := by
  intro r
  have hoff : (r.boundary 0).cpu.registers.flags.interrupt = false := by decide +kernel
  have hon : (r.boundary 1).cpu.registers.flags.interrupt = true := by decide +kernel
  have hrequested : Bus.interruptRequested (r.boundary 0).bus = true ∧
    Bus.interruptRequested (r.boundary 1).bus = true := by decide +kernel
  have hheld : Bus.holdRequested (r.boundary 1).bus = false := by decide +kernel
  have hcalls : .acknowledge ∉ calls (r.boundary 1) := by decide +kernel
  obtain ⟨hiff, hnext⟩ := r.acknowledged_after_enabling_iff (Nat.zero_lt_one) hoff hon
    (fun k hk hlt => absurd hlt (by omega)) (fun h => Bool.false_ne_true (hheld.symm.trans h))
  refine ⟨hoff, hon, hrequested.1, hrequested.2, ?_, (hnext hcalls).1⟩
  exact Classical.byContradiction fun he => hcalls (hiff.2 ⟨he, hrequested⟩)

/-- The first step turns interrupts on, and the second acknowledges one: the instruction at the
resulting address, which increments AX, has not run. -/
def Uncovered (r : Run (Board ExpansionCard)) : Prop :=
  (r.boundary 0).cpu.registers.flags.interrupt = false ∧
    (r.boundary 1).cpu.registers.flags.interrupt = true ∧
    (r.boundary 1).cpu.codeAddress = ⟨0, 1⟩ ∧ (r.boundary 1).bus.memory.peek 1 = 0x40 ∧
    .acknowledge ∈ calls (r.boundary 1) ∧ (r.boundary 1).cpu.registers.eax = 0

instance (r : Run (Board ExpansionCard)) : Decidable (Uncovered r) :=
  inferInstanceAs (Decidable (_ ∧ _))

/-- Flags loaded from the stack are no cover, whether they are popped alone or with the address to
return to. -/
theorem loaded_flags_uncovered :
    Uncovered (Run.unattended { esp := 8 } (requesting 0x9D)) ∧
      Uncovered (Run.unattended { esp := 4 } (requesting 0xCF)) := by
  decide +kernel

end Pc8086.Cpu

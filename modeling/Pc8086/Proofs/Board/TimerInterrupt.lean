import Mathlib.Data.Nat.ModEq
import Pc8086.Board.ScratchCard
import Pc8086.Proofs.Board.Ports
import Pc8086.Proofs.Cpu.Confinement
import Pc8086.Proofs.Interrupt.Bystanders
import Pc8086.Proofs.Timer.Period

/-!
The timer interrupt of a board. As long as nobody programs the first counter or moves its line, the
line rises once in each period of the configured length, with the pulse that ends the period. A
period of one pulse is the exception: the output never falls, and so it never rises.
-/

namespace Pc8086

open Interrupt (Controller Operation)
open Interrupt.Controller (Armed IsOuter)
open Timer (Counter IntervalTimer)

namespace Timer

/-- The byte is a reload value or a control word of the first counter, other than its latch
command. -/
def Reprograms (port : UInt16) (v : UInt8) : Prop :=
  port = 0x40 ∨ port = 0x43 ∧ v >>> 6 = 0 ∧ (v >>> 4) &&& 3 ≠ 0

instance (port : UInt16) (v : UInt8) : Decidable (Reprograms port v) :=
  inferInstanceAs (Decidable (_ ∨ _))

/-- The timer drives line 0 with a square wave of period `d`, of which `k` pulses have passed. -/
structure IntervalTimer.Strikes (d k : Nat) (t : IntervalTimer) : Prop where
  line : t.line = some 0
  counter : t.counter0.Oscillates d k

/-- After `k` pulses of a square wave of period `d` the line is high: it missed the first rise,
which comes with the programming, and the output of a wave of period one never falls to rise
again. -/
def Driven (d k : Nat) : Prop :=
  2 ≤ d ∧ d ≤ k ∧ d / 2 < d - k % d

instance (d k : Nat) : Decidable (Driven d k) :=
  inferInstanceAs (Decidable (_ ∧ _))

end Timer

namespace Board

open Timer (Driven Reprograms)

inductive Event (δ : Type) where
  | pulse
  | input (w : Width) (port : UInt16)
  | output (w : Width) (port : UInt16) (v : UInt32)
  /-- The processor's acknowledge cycle, or what a device or a user does to the controller. -/
  | control (op : Operation)
  | attach (d : δ)
  /-- Whatever becomes of memory, the hold and the stop request. -/
  | attend (memory : Memory) (holdPulses : Nat) (stopRequested : Bool)

def Event.isPulse {δ : Type} : Event δ → Bool
  | pulse => true
  | _ => false

def pulses {δ : Type} (es : List (Event δ)) : Nat :=
  es.countP Event.isPulse

def outcome {δ α : Type} : EStateM.Result Fault (Board δ) α → Board δ
  | .ok _ b => b
  | .error _ b => b

section Run

variable {δ : Type} [Peripheral δ]

def perform (b : Board δ) : Event δ → Board δ
  | .pulse => b.clockPulse
  | .input w port => outcome (Board.input w port b)
  | .output w port v => outcome (Board.output w port v b)
  | .control op => { b with controller := b.controller.perform op }
  | .attach d => (b.attach d).2
  | .attend memory holdPulses stopRequested => { b with memory, holdPulses, stopRequested }

def performAll (b : Board δ) (es : List (Event δ)) : Board δ :=
  es.foldl perform b

/-- All that a device does to the controller at a pulse are operations that do not name the line. -/
def KeepsOff (n : UInt8) (x : δ) : Prop :=
  ∀ c : Controller, ∃ ops : List Operation,
    (Peripheral.clock x c).controller = c.performAll ops ∧ ∀ op ∈ ops, ¬op.Names n

/-- The event leaves the first counter as it is programmed, and line 0 to the timer. -/
def Spares (b : Board δ) : Event δ → Prop
  | .pulse => ∀ x, .card x ∈ b.components → KeepsOff 0 x
  | .output w port v => ∀ x ∈ accessBytes w port v, ¬Reprograms x.1 x.2
  | .control op => ¬op.Names 0
  | .input .. | .attach _ | .attend .. => True

def Spared (b : Board δ) : List (Event δ) → Prop
  | [] => True
  | e :: es => b.Spares e ∧ Spared (b.perform e) es

def Rises (b : Board δ) (e : Event δ) : Prop :=
  (b.controller.lineOf 0).high = false ∧ ((b.perform e).controller.lineOf 0).high = true

instance (b : Board δ) (e : Event δ) : Decidable (b.Rises e) :=
  inferInstanceAs (Decidable (_ ∧ _))

def edges (b : Board δ) : List (Event δ) → Nat
  | [] => 0
  | e :: es => (decide (b.Rises e)).toNat + edges (b.perform e) es

end Run

section Timers

variable {d k : Nat} {t : IntervalTimer}

theorem strikes_readPort (h : t.Strikes d k) (port : UInt16) : (t.readPort port).2.Strikes d k := by
  have hread : t.counter0.readByte.2.Oscillates d k :=
    ⟨h.counter.mode, h.counter.period, h.counter.elapsed, h.counter.output⟩
  unfold IntervalTimer.readPort
  split
  · exact ⟨h.line, hread⟩
  · exact ⟨h.line, h.counter⟩
  · exact ⟨h.line, h.counter⟩
  · exact h
  · exact h

theorem strikes_writePort (h : t.Strikes d k) {port : UInt16} {v : UInt8}
    (hv : ¬Reprograms port v) : (t.writePort port v).2.Strikes d k := by
  unfold IntervalTimer.writePort
  split
  · exact absurd (.inl rfl) hv
  · exact ⟨h.line, h.counter⟩
  · exact ⟨h.line, h.counter⟩
  · unfold IntervalTimer.control
    dsimp only
    split
    · next hchannel =>
      -- of the control words for the first counter there is only the latch command left
      have haccess : (v >>> 4) &&& 3 = 0 := by
        by_contra hne
        exact hv (.inr ⟨rfl, hchannel, hne⟩)
      refine ⟨h.line, ?_⟩
      rw [haccess]
      exact ⟨h.counter.mode, h.counter.period, h.counter.elapsed, h.counter.output⟩
    · exact ⟨h.line, h.counter⟩
    · exact ⟨h.line, h.counter⟩
    · exact h
  · exact h

/-- The output rises as a period ends, if it fell in between, and the line with it. -/
theorem driven_succ_iff (hd : 0 < d) :
    (¬Driven d k ∧ Driven d (k + 1) ↔ 2 ≤ d ∧ d ∣ k + 1) := by
  have hmod := Counter.succ_mod_cases hd k
  have hle : (k + 1) % d = 0 → d ≤ k + 1 := fun h =>
    Nat.le_of_dvd k.succ_pos (Nat.dvd_of_mod_eq_zero h)
  have hfirst : k < d → k % d = k := Nat.mod_eq_of_lt
  rw [Nat.dvd_iff_mod_eq_zero]
  unfold Driven
  omega

end Timers

section Components

variable {δ α : Type} {P Q : IntervalTimer → Prop} {cs : List (Component δ)}

def Leads (P : IntervalTimer → Prop) (cs : List (Component δ)) : Prop :=
  ∃ t rest, cs = .timer t :: rest ∧ P t ∧ ∀ x ∈ rest, x.timer? = none

/-- Work of one component keeps a timer's `P`, and it leaves a card a card. -/
structure Retains (P : IntervalTimer → Prop) (f : Component δ → α × Component δ) : Prop where
  timer (t : IntervalTimer) (h : P t) : ∃ t', (f (.timer t)).2 = .timer t' ∧ P t'
  card (x : δ) : (f (.card x)).2.timer? = none

theorem Retains.of_timer? {f : Component δ → α × Component δ} (hf : Retains P f) {x : Component δ}
    (hx : x.timer? = none) : (f x).2.timer? = none := by
  cases x with
  | timer t => exact absurd hx (Option.some_ne_none t)
  | card x => exact hf.card x

theorem Leads.atComponent {f : Component δ → α × Component δ} (hf : Retains P f) (i : Nat)
    (absent : α) {b : Board δ} (h : Leads P b.components) :
    Leads P (b.atComponent i f absent).2.components := by
  unfold Board.atComponent
  cases hx : b.components[i]? with
  | none => exact h
  | some x =>
    dsimp only
    obtain ⟨t, rest, hcs, ht, hrest⟩ := h
    rw [hcs] at hx ⊢
    cases i with
    | zero =>
      cases hx
      obtain ⟨t', hf', ht'⟩ := hf.timer t ht
      exact ⟨t', rest, by rw [hf', List.set_cons_zero], ht', hrest⟩
    | succ i =>
      have hcard := hf.of_timer? (hrest x (List.mem_of_getElem? hx))
      refine ⟨t, rest.set i (f x).2, List.set_cons_succ, ht, fun y hy => ?_⟩
      rcases List.mem_or_eq_of_mem_set hy with hy | rfl
      · exact hrest y hy
      · exact hcard

variable [Peripheral δ]

theorem timer?_clock {x : Component δ} (h : x.timer? = none) (c : Controller) :
    (Peripheral.clock x c).device.timer? = none := by
  cases x with
  | timer t => exact absurd h (Option.some_ne_none t)
  | card x => rfl

/-- Cards alone bring about operations of the controller that do not name the line. -/
theorem clockComponents_cards {n : UInt8} (hcs : ∀ x ∈ cs, x.timer? = none)
    (hoff : ∀ x, .card x ∈ cs → KeepsOff n x) (c : Controller) :
    (∀ x ∈ (clockComponents cs c).device, x.timer? = none) ∧
      ∃ ops : List Operation, (clockComponents cs c).controller = c.performAll ops ∧
        ∀ op ∈ ops, ¬op.Names n := by
  induction cs generalizing c with
  | nil =>
    refine ⟨fun _ hx => absurd hx List.not_mem_nil, [], rfl, fun _ hop => ?_⟩
    exact absurd hop List.not_mem_nil
  | cons x cs ih =>
    have hx := hcs x List.mem_cons_self
    have hself : KeepsOff n x := by
      cases x with
      | timer t => exact absurd hx (Option.some_ne_none t)
      | card x => exact hoff x List.mem_cons_self
    obtain ⟨ops, hops, hnames⟩ := hself c
    -- a component's operations come before those of the rest
    obtain ⟨hrest, ops', hops', hnames'⟩ :=
      ih (fun y hy => hcs y (List.mem_cons_of_mem x hy))
        (fun y hy => hoff y (List.mem_cons_of_mem x hy)) (Peripheral.clock x c).controller
    refine ⟨fun y hy => ?_, ops ++ ops', ?_, fun op hop => ?_⟩
    · rcases List.mem_cons.1 hy with rfl | hy
      · exact timer?_clock hx c
      · exact hrest y hy
    · rw [Controller.performAll, List.foldl_append]
      exact hops'.trans (by rw [hops]; rfl)
    · rcases List.mem_append.1 hop with hop | hop
      · exact hnames op hop
      · exact hnames' op hop

end Components

section Beats

variable {δ : Type} {d k : Nat} {b : Board δ}

/-- The timer drives line 0 of the master, on which `k` pulses have shown their effect. -/
structure Beats (d k : Nat) (b : Board δ) : Prop where
  timer : Leads (IntervalTimer.Strikes d k) b.components
  armed : b.controller.Armed 0
  level : (b.controller.lineOf 0).high = decide (Driven d k)

theorem outer_zero : IsOuter 0 :=
  ⟨by decide, by decide⟩

theorem Beats.control (h : Beats d k b) (op : Operation) (hop : ¬op.Names 0) :
    Beats d k { b with controller := b.controller.perform op } where
  timer := h.timer
  armed := h.armed.perform hop
  level := (Controller.high_perform outer_zero h.armed hop).trans h.level

theorem Beats.atComponent {α : Type} (h : Beats d k b) {f : Component δ → α × Component δ}
    (hf : Retains (IntervalTimer.Strikes d k) f) (i : Nat) (absent : α) :
    Beats d k (b.atComponent i f absent).2 := by
  have hcontroller : (b.atComponent i f absent).2.controller = b.controller := by
    unfold Board.atComponent
    cases b.components[i]? <;> rfl
  refine ⟨h.timer.atComponent hf i absent, ?_, ?_⟩
  · exact hcontroller ▸ h.armed
  · exact hcontroller ▸ h.level

variable [Peripheral δ]

theorem beats_readOwned (h : Beats d k b) (port : UInt16) : Beats d k (b.readOwned port).2 := by
  unfold readOwned
  rcases b.ownerOf port with _ | _ | i
  · exact h
  · exact h.control (.readPort port) id
  · exact h.atComponent ⟨fun t ht => ⟨_, rfl, strikes_readPort ht port⟩, fun _ => rfl⟩ i none

theorem beats_writeOwned (h : Beats d k b) {port : UInt16} {v : UInt8} (hv : ¬Reprograms port v) :
    Beats d k (b.writeOwned port v).2 := by
  unfold writeOwned
  rcases b.ownerOf port with _ | _ | i
  · exact h
  · exact h.control (.writePort port v) id
  · exact h.atComponent ⟨fun t ht => ⟨_, rfl, strikes_writePort ht hv⟩, fun _ => rfl⟩ i false

omit [Peripheral δ] in
theorem beats_unknownPort (port : UInt16) (w : Width) :
    Confines (Beats d k) (fun _ => True) (unknownPort port w : EStateM Fault (Board δ) UInt32) := by
  intro b h
  unfold unknownPort
  cases b.ignoreUnknownPorts
  · exact .error trivial h
  · exact .ok _ h

theorem beats_ports : PortAccess (fun port v => ¬Reprograms port v)
    fun _ (x : EStateM Fault (Board δ) _) => Confines (Beats d k) (fun _ => True) x where
  pure a _ h := .ok a h
  bind := .bind
  look _ hf _ b h := hf b b h
  unknownPort := beats_unknownPort
  readOwned port := confines_modifyGet fun _ h => beats_readOwned h port
  writeOwned _ _ hv := confines_modifyGet fun _ h => beats_writeOwned h hv
  readWord _ i := confines_modifyGet fun _ h =>
    h.atComponent ⟨fun t ht => ⟨t, rfl, ht⟩, fun _ => rfl⟩ i none
  writeWord _ _ i := confines_modifyGet fun _ h =>
    h.atComponent ⟨fun t ht => ⟨t, rfl, ht⟩, fun _ => rfl⟩ i false

omit [Peripheral δ] in
theorem Beats.outcome {α : Type} {x : EStateM Fault (Board δ) α} (h : Beats d k b)
    (hx : Confines (Beats d k) (fun _ => True) x) : Beats d k (outcome (x b)) := by
  have hb := hx b h
  generalize x b = r at hb
  cases hb with
  | ok _ h => exact h
  | error _ h => exact h

/-- A new card gets another line. -/
theorem Beats.attach (h : Beats d k b) (x : δ) : Beats d k (b.attach x).2 := by
  have hplace : ∀ (x' : δ) owners (c : Controller),
      (∃ op : Operation, ¬op.Names 0 ∧ c = b.controller.perform op) ∨ c = b.controller →
      Beats d k { b with
        controller := c
        components := b.components ++ [.card x']
        owners } := by
    intro x' owners c hc
    obtain ⟨t, rest, hcs, ht, hrest⟩ := h.timer
    have htimer : Leads (IntervalTimer.Strikes d k) (b.components ++ [.card x']) := by
      refine ⟨t, rest ++ [.card x'], by rw [hcs, List.cons_append], ht, fun y hy => ?_⟩
      rcases List.mem_append.1 hy with hy | hy
      · exact hrest y hy
      · rw [List.mem_singleton.1 hy]
        rfl
    obtain ⟨op, hop, rfl⟩ | rfl := hc
    · exact ⟨htimer, (h.control op hop).armed, (h.control op hop).level⟩
    · exact ⟨htimer, h.armed, h.level⟩
  unfold Board.attach install
  dsimp only
  split
  · exact h
  · split
    · exact hplace x _ _ (.inr rfl)
    · next device _ =>
      have hrequest : ∀ r c, b.controller.requestIrq device = (r, c) →
          c = b.controller.perform (.request device) := fun r c h => (congrArg Prod.snd h).symm
      split
      · next line c hline => exact hplace _ _ _ (.inl ⟨.request device, id, hrequest _ c hline⟩)
      · next e c hline =>
        rw [hrequest _ c hline]
        exact h.control (.request device) id

theorem strikes_clock {t : IntervalTimer} {c : Controller} (hd : 0 < d) (ht : t.Strikes d k)
    (hc : c.Armed 0) (hlevel : (c.lineOf 0).high = decide (Driven d k)) :
    (t.clock c).1.Strikes d (k + 1) ∧ (t.clock c).2.Armed 0 ∧
      ((t.clock c).2.lineOf 0).high = decide (Driven d (k + 1)) := by
  have hmod := Counter.succ_mod_cases hd k
  have hle : (k + 1) % d = 0 → d ≤ k + 1 := fun h =>
    Nat.le_of_dvd k.succ_pos (Nat.dvd_of_mod_eq_zero h)
  have hfirst : k < d → k % d = k := Nat.mod_eq_of_lt
  have hstrikes : (t.clock c).1.Strikes d (k + 1) := by
    rw [Timer.clock_timer, ht.line]
    exact ⟨rfl, ht.counter.next⟩
  refine ⟨hstrikes, ?_⟩
  rw [Timer.clock_controller t c ht.line, ht.counter.output, ht.counter.next.output]
  -- the line is told of changes only, so between them its level is as driven before
  by_cases hsame : d / 2 < d - (k + 1) % d ↔ d / 2 < d - k % d
  · rw [if_pos (decide_eq_decide.2 hsame)]
    refine ⟨hc, hlevel.trans (decide_eq_decide.2 ?_)⟩
    unfold Driven
    omega
  · rw [if_neg (mt decide_eq_decide.1 hsame)]
    by_cases hafter : d / 2 < d - (k + 1) % d
    · rw [if_pos (decide_eq_true hafter)]
      refine ⟨hc.congr (Controller.setIrq_registry c 0), ?_⟩
      have hdriven : Driven d (k + 1) := by
        unfold Driven
        omega
      have hraised : (c.setIrq 0).lineOf 0 = _ := Controller.lineOf_raise outer_zero hc.bounded 0
      rw [hraised, decide_eq_true hdriven, hc.active]
      cases hhigh : (c.lineOf 0).high <;> simp [hhigh]
    · rw [if_neg (by simpa using hafter)]
      refine ⟨hc.congr (Controller.clearIrq_registry c 0), ?_⟩
      rw [Controller.lineOf_clearIrq outer_zero, if_pos rfl]
      exact (decide_eq_false fun h => hafter h.2.2).symm

theorem Beats.clockPulse (hd : 0 < d) (h : Beats d k b) (hb : b.Spares .pulse) :
    Beats d (k + 1) b.clockPulse := by
  obtain ⟨t, rest, hcs, ht, hrest⟩ := h.timer
  obtain ⟨ht', harmed, hlevel⟩ := strikes_clock hd ht h.armed h.level
  obtain ⟨hrest', ops, hops, hnames⟩ := clockComponents_cards hrest
    (fun x hx => hb x (hcs ▸ List.mem_cons_of_mem _ hx)) (t.clock b.controller).2
  obtain ⟨harmed', hkept⟩ := harmed.performAll outer_zero hnames
  have hclock : clockComponents b.components b.controller =
      { device := .timer (t.clock b.controller).1 ::
          (clockComponents rest (t.clock b.controller).2).device
        controller := (t.clock b.controller).2.performAll ops
        stop := (clockComponents rest (t.clock b.controller).2).stop } := by
    rw [hcs, ← hops]
    exact congrArg (Clocked.mk _ _) (Bool.false_or _)
  unfold Board.clockPulse
  rw [hclock]
  exact ⟨⟨_, _, rfl, ht', hrest'⟩, harmed', hkept.trans hlevel⟩

theorem Beats.perform (hd : 0 < d) (h : Beats d k b) {e : Event δ} (he : b.Spares e) :
    Beats d (k + e.isPulse.toNat) (b.perform e) := by
  cases e with
  | pulse => exact h.clockPulse hd he
  | input w port => exact h.outcome (beats_ports.busInput w port)
  | output w port v => exact h.outcome (beats_ports.busOutputAllowed w port v he)
  | control op => exact h.control op he
  | attach x => exact h.attach x
  | attend => exact ⟨h.timer, h.armed, h.level⟩

/-- The line rises with the pulses that complete a period. -/
theorem Beats.rises_iff (hd : 0 < d) (h : Beats d k b) {e : Event δ} (he : b.Spares e) :
    b.Rises e ↔ e.isPulse = true ∧ 2 ≤ d ∧ d ∣ k + 1 := by
  have hafter := (h.perform hd he).level
  unfold Rises
  rw [h.level, hafter, decide_eq_false_iff_not, decide_eq_true_iff]
  cases hpulse : e.isPulse with
  | true => simpa using driven_succ_iff hd
  | false => simp

omit [Peripheral δ] in
theorem pulses_cons (e : Event δ) (es : List (Event δ)) :
    pulses (e :: es) = e.isPulse.toNat + pulses es := by
  unfold pulses
  rw [List.countP_cons, Nat.add_comm]
  cases e.isPulse <;> rfl

theorem Beats.performAll (hd : 0 < d) (h : Beats d k b) {es : List (Event δ)} (hes : b.Spared es) :
    Beats d (k + pulses es) (b.performAll es) := by
  induction es generalizing b k with
  | nil => exact h
  | cons e es ih =>
    have hnext := ih (h.perform hd hes.1) hes.2
    rw [pulses_cons, ← Nat.add_assoc]
    exact hnext

/-- The line rises as often as periods end. -/
theorem Beats.add_edges (hd : 2 ≤ d) (h : Beats d k b) {es : List (Event δ)} (hes : b.Spared es) :
    k / d + edges b es = (k + pulses es) / d := by
  have hpos : 0 < d := by omega
  induction es generalizing b k with
  | nil => rfl
  | cons e es ih =>
    have hnext := ih (h.perform hpos hes.1) hes.2
    have hfirst : k / d + (decide (b.Rises e)).toNat = (k + e.isPulse.toNat) / d := by
      have hrises := h.rises_iff hpos hes.1
      have hsucc : (k + 1) / d = k / d + if d ∣ k + 1 then 1 else 0 := Nat.succ_div
      by_cases hrise : b.Rises e
      · obtain ⟨hpulse, -, hdvd⟩ := hrises.1 hrise
        rw [decide_eq_true hrise, hpulse, Bool.toNat_true, hsucc, if_pos hdvd]
      · rw [decide_eq_false hrise]
        cases hpulse : e.isPulse with
        | true =>
          have hdvd : ¬d ∣ k + 1 := fun hdvd => hrise (hrises.2 ⟨hpulse, hd, hdvd⟩)
          rw [Bool.toNat_true, hsucc, if_neg hdvd]
          rfl
        | false => rfl
    rw [pulses_cons, ← Nat.add_assoc, ← hnext, ← hfirst, Nat.add_assoc]
    rfl

/-- A wave that never falls never rises. -/
theorem Beats.edges_eq_zero (h : Beats 1 k b) {es : List (Event δ)} (hes : b.Spared es) :
    edges b es = 0 := by
  induction es generalizing b k with
  | nil => rfl
  | cons e es ih =>
    have hstill : ¬b.Rises e := by
      rw [h.rises_iff Nat.one_pos hes.1]
      omega
    have hnext := ih (h.perform Nat.one_pos hes.1) hes.2
    unfold edges
    rw [hnext, decide_eq_false hstill]
    rfl

end Beats

section Configured

variable {δ : Type} [Peripheral δ] {config : Config}

theorem ofConfig_timer (hon : config.timerEnabled = true) :
    (ofConfig config : Board δ).components =
        [.timer ((IntervalTimer.withDivisor config.timerDivisor).attachIrq 0)] ∧
      (ofConfig config : Board δ).controller =
        (Controller.withBases config.masterBase config.slaveBase).perform (.request .timer) := by
  unfold ofConfig
  rw [if_pos hon]
  exact ⟨rfl, rfl⟩

theorem beats_ofConfig (hconfig : config.validate = .ok config)
    (hon : config.timerEnabled = true) :
    Beats config.timerDivisor.toNat 0 (ofConfig config : Board δ) := by
  have hrange : config.timerDivisor ≠ 0 ∧ config.timerDivisor ≤ Timer.longestPeriod := by
    unfold Config.validate at hconfig
    split_ifs at hconfig with h
    simpa using h
  have hwave := IntervalTimer.withDivisor_oscillates hrange.1 hrange.2
  have hpos : 0 < config.timerDivisor.toNat := hwave.period ▸ Counter.period_pos _
  obtain ⟨hcomponents, hcontroller⟩ := ofConfig_timer (δ := δ) hon
  refine ⟨⟨_, [], hcomponents, ⟨rfl, hwave⟩, fun _ hx => absurd hx List.not_mem_nil⟩, ?_, ?_⟩
  · rw [hcontroller]
    exact ⟨rfl, rfl⟩
  · rw [hcontroller, decide_eq_false fun h => Nat.not_le_of_lt hpos h.2.1]
    have hlow : ∀ r, (((Controller.withBases config.masterBase config.slaveBase).perform
        (.request .timer)).chip r).levels = .empty := by
      intro r
      cases r <;> rfl
    change Interrupt.LineSet.contains (Interrupt.Chip.levels (Controller.chip _ _)) _ = false
    rw [hlow]
    exact Interrupt.LineSet.contains_empty _

theorem spared_append {b : Board δ} {es es' : List (Event δ)} :
    b.Spared (es ++ es') ↔ b.Spared es ∧ (b.performAll es).Spared es' := by
  induction es generalizing b with
  | nil => exact (iff_of_eq (true_and _)).symm
  | cons e es ih => exact (and_congr_right fun _ => ih).trans and_assoc.symm

/-- The timer interrupt of a board that is built from valid settings and used in any way that leaves
the first counter and line 0 alone. The line rises with each pulse whose number is a multiple of the
divisor, and so once in as many pulses as the divisor says; but with a divisor of one it never
rises. -/
theorem timer_interrupt_period (hconfig : config.validate = .ok config)
    (hon : config.timerEnabled = true) {es : List (Event δ)} (hes : (ofConfig config).Spared es) :
    (∀ before e after, es = before ++ e :: after →
      (((ofConfig config).performAll before).Rises e ↔ e.isPulse = true ∧
        config.timerDivisor ≠ 1 ∧ config.timerDivisor.toNat ∣ pulses before + 1)) ∧
    edges (ofConfig config) es =
      if config.timerDivisor = 1 then 0 else pulses es / config.timerDivisor.toNat := by
  have hstart : Beats config.timerDivisor.toNat 0 (ofConfig config : Board δ) :=
    beats_ofConfig hconfig hon
  have hpos : 0 < config.timerDivisor.toNat := by
    obtain ⟨t, -, -, ht, -⟩ := hstart.timer
    exact ht.counter.period ▸ Counter.period_pos _
  have hone : config.timerDivisor = 1 ↔ config.timerDivisor.toNat = 1 := UInt32.toNat_inj.symm
  refine ⟨?_, ?_⟩
  · rintro before e after rfl
    obtain ⟨hbefore, he⟩ := spared_append.1 hes
    rw [(hstart.performAll hpos hbefore).rises_iff hpos he.1, ne_eq, hone, Nat.zero_add]
    refine and_congr_right fun _ => and_congr_left fun _ => ?_
    omega
  · split_ifs with h
    · rw [hone.1 h] at hstart
      exact hstart.edges_eq_zero hes
    · have htwo : 2 ≤ config.timerDivisor.toNat := by
        have hne := mt hone.2 h
        omega
      have hcount := hstart.add_edges htwo hes
      rwa [Nat.zero_div, Nat.zero_add, Nat.zero_add] at hcount

end Configured

section Cards

theorem keepsOff_scratch {n : UInt8} {card : ScratchCard} (h : card.line ≠ some n) :
    KeepsOff n (ExpansionCard.scratch card) := by
  intro c
  cases hline : card.line with
  | none =>
    refine ⟨[], ?_, fun _ hop => absurd hop List.not_mem_nil⟩
    simp only [Peripheral.clock, ScratchCard.clock, hline]
    rfl
  | some line =>
    have hne : line ≠ n := fun hn => h (by rw [hline, hn])
    let fires := if card.fireAt = some (card.pulses + 1) then [Operation.raise line] else []
    let clears := if card.clearAt = some (card.pulses + 1) then [Operation.lower line] else []
    refine ⟨fires ++ clears, ?_, fun op hop => ?_⟩
    · simp only [Peripheral.clock, ScratchCard.clock, hline, fires, clears]
      split_ifs <;> rfl
    · rcases List.mem_append.1 hop with hop | hop
      all_goals
        simp only [fires, clears] at hop
        split_ifs at hop
        · rw [List.mem_singleton.1 hop]
          exact hne
        · exact absurd hop List.not_mem_nil

def offLine (n : UInt8) : Component ExpansionCard → Bool
  | .card (.scratch card) => card.line != some n
  | .card (.passive ..) | .timer _ => true

theorem spares_pulse_of_offLine {b : Board ExpansionCard}
    (h : ∀ x ∈ b.components, offLine 0 x = true) : b.Spares .pulse := by
  intro x hx
  have hoff := h _ hx
  cases x with
  | passive name ports => exact fun _ => ⟨[], rfl, fun _ hop => absurd hop List.not_mem_nil⟩
  | scratch card => exact keepsOff_scratch (bne_iff_ne.1 hoff)

end Cards

def thirdPulse : Config where
  memorySize := 16
  timerDivisor := 3

/-- A keyboard that asks for an interrupt at its second pulse. -/
def keyboard : ScratchCard where
  name := "keyboard"
  ports := [0x60]
  kind := some .keyboard
  fireAt := some 2

/-- While a keyboard is attached, the count is latched and read, and an interrupt is acknowledged,
seven pulses make two edges. -/
theorem thirdPulse_period :
    let es : List (Event ExpansionCard) :=
      [.pulse, .attach (.scratch keyboard), .output .byte 0x43 0x00, .pulse, .input .byte 0x40,
        .pulse, .control .acknowledge, .pulse, .pulse, .attend (.zeroed 16) 4 true, .pulse, .pulse]
    thirdPulse.validate = .ok thirdPulse ∧ thirdPulse.timerEnabled = true ∧
      (ofConfig thirdPulse).Spared es ∧ edges (ofConfig thirdPulse) es = 2 := by
  intro es
  have hvalid : thirdPulse.validate = .ok thirdPulse := rfl
  have hlatch : ∀ x ∈ accessBytes .byte 0x43 0x00, ¬Reprograms x.1 x.2 := by
    have hbyte : accessBytes .byte 0x43 0x00 = [(0x43, 0x00)] := by decide
    rw [hbyte, List.forall_mem_singleton]
    decide
  have hes : (ofConfig thirdPulse).Spared es := by
    refine ⟨?_, trivial, hlatch, ?_, trivial, ?_, id, ?_, ?_, trivial, ?_, ?_, trivial⟩
    all_goals exact spares_pulse_of_offLine (by decide +kernel)
  have hcount : pulses es / thirdPulse.timerDivisor.toNat = 2 := by decide
  exact ⟨hvalid, rfl, hes, (timer_interrupt_period hvalid rfl hes).2.trans hcount⟩

def everyPulse : Config where
  memorySize := 16
  timerDivisor := 1

/-- The pulse raises nothing. -/
theorem everyPulse_silent :
    let es : List (Event ExpansionCard) := [.pulse]
    everyPulse.validate = .ok everyPulse ∧ everyPulse.timerEnabled = true ∧
      (ofConfig everyPulse).Spared es ∧
      ¬(ofConfig everyPulse : Board ExpansionCard).Rises .pulse ∧
      edges (ofConfig everyPulse) es ≠ pulses es / everyPulse.timerDivisor.toNat := by
  intro es
  have hes : (ofConfig everyPulse).Spared es :=
    ⟨spares_pulse_of_offLine (by decide +kernel), trivial⟩
  exact ⟨rfl, rfl, hes, by decide +kernel, by decide +kernel⟩

end Board

end Pc8086

import Pc8086.Proofs.Interrupt.Lines

namespace Pc8086.Interrupt.Controller

open Chip

/-- How often along a run an operation is `p` in the state it finds. -/
def tally (p : Controller → Operation → Bool) (c : Controller) : List Operation → Nat
  | [] => 0
  | op :: ops => (p c op).toNat + tally p (c.perform op) ops

section Events

def chipOf (c : Controller) (n : UInt8) : Chip :=
  c.chip (locate n).1

def lineOf (c : Controller) (n : UInt8) : LineState :=
  (c.chipOf n).line (locate n).2

inductive Event where
  /-- The line goes from low to high. -/
  | edge
  /-- An acknowledge cycle or a poll read takes the request. -/
  | acceptance
  | lowering
  /-- Initialization of the chip. -/
  | initialization
  /-- A command to the chip that ends a service, of this line or another. -/
  | endOfInterrupt
  deriving DecidableEq

/-- What an operation is to line `n`. A line is raised only while it is owned and enabled, and is
accepted when its turn has come. -/
def event (n : UInt8) (c : Controller) : Operation → Option Event
  | .raise line =>
    if line = n ∧ c.registry.isActive n = true ∧ (c.lineOf n).high = false then some .edge
    else none
  | .acknowledge =>
    if (Outcome.served (locate n).1 (locate n).2).Due c then some .acceptance else none
  | .readPort port =>
    if port = (locate n).1.commandPort ∧ (c.chipOf n).polled = true ∧
        (c.chipOf n).Chosen (locate n).2 then some .acceptance
    else none
  | .lower line | .releaseIrq line => if line = n then some .lowering else none
  | .writePort port v =>
    if port ≠ (locate n).1.commandPort then none
    else if v &&& 0x10 ≠ 0 then some .initialization
    else if isEndOfInterrupt v = true then some .endOfInterrupt
    else none
  | .request _ | .releaseLine _ | .setEnabled _ _ => none

variable (n : UInt8) (c : Controller) (op : Operation)

def rises : Bool :=
  decide (event n c op = some .edge)

def accepts : Bool :=
  decide (event n c op = some .acceptance)

def acceptsForService : Bool :=
  accepts n c op && !(c.chipOf n).autoEoi

def withdraws : Bool :=
  decide (event n c op = some .lowering) && (c.lineOf n).requested

def forgetsRequest : Bool :=
  decide (event n c op = some .initialization) && (c.lineOf n).requested

def forgetsService : Bool :=
  decide (event n c op = some .initialization) && (c.lineOf n).served

def endsService : Bool :=
  decide (event n c op = some .endOfInterrupt) && (c.lineOf n).served &&
    !((c.perform op).lineOf n).served

end Events

section Step

variable {n : UInt8} {c : Controller}

theorem locate_injective {line : UInt8} (hl : line < 16) (hn : n < 16)
    (h : locate line = locate n) : line = n := by
  have hl : line.toNat < 16 := hl
  have hn : n.toNat < 16 := hn
  obtain ⟨hr, hv⟩ := Prod.ext_iff.1 h
  have hmod : line.toNat % 8 = n.toNat % 8 := congrArg Fin.val hv
  have hside : line < 8 ↔ n < 8 := by
    have hr : (if line < 8 then Role.master else .slave) = if n < 8 then .master else .slave := hr
    by_cases h1 : line < 8
    · by_cases h2 : n < 8
      · exact iff_of_true h1 h2
      · rw [if_pos h1, if_neg h2] at hr
        cases hr
    · by_cases h2 : n < 8
      · rw [if_neg h1, if_pos h2] at hr
        cases hr
      · exact iff_of_false h1 h2
  have hside : line.toNat < 8 ↔ n.toNat < 8 := hside
  exact UInt8.toNat_inj.1 (by omega)

theorem isActive_of_bounded (hs : c.registry.lines.size = 16) {line : UInt8} (hl : ¬line < 16) :
    c.registry.isActive line = false := by
  have hl : 16 ≤ line.toNat := Nat.le_of_not_lt hl
  have hnone : c.registry.lines[line.toNat]? = none := Array.getElem?_eq_none (by omega)
  rw [Registry.isActive, Registry.assignment, hnone]
  rfl

/-- The line is one of the sixteen and does not lie between the chips. -/
structure IsOuter (n : UInt8) : Prop where
  bound : n < 16
  ne_cascade : n ≠ 2

theorem IsOuter.off_link (hn : IsOuter n) :
    (locate n).1 = .master → (locate n).2 ≠ cascadeLine :=
  fun hr hl => locate_ne_cascade hn.ne_cascade (Prod.ext hr hl)

theorem lineOf_elsewhere (hn : IsOuter n) {r : Role} {d : Controller} (h : ActsOn r c d)
    (hr : (locate n).1 ≠ r) : d.lineOf n = c.lineOf n :=
  h.line_elsewhere hr hn.off_link

theorem lineOf_raise (hn : IsOuter n) (hs : c.registry.lines.size = 16) (line : UInt8) :
    (c.perform (.raise line)).lineOf n =
      if line = n ∧ c.registry.isActive n = true ∧ (c.lineOf n).high = false then
        { c.lineOf n with requested := true, high := true }
      else c.lineOf n := by
  change (c.setIrq line).lineOf n = _
  unfold setIrq
  by_cases ha : c.registry.isActive line = true
  · rw [if_pos ha]
    have hl : line < 16 := by
      by_contra hl
      rw [isActive_of_bounded hs hl] at ha
      cases ha
    by_cases hr : (locate n).1 = (locate line).1
    · have hraise := raise_line (c := c) hn.off_link (locate line).2
      change ((c.raise (locate line).1 (locate line).2).chip (locate n).1).line (locate n).2 = _
      rw [← hr, hraise]
      refine if_congr ⟨fun ⟨hk, hlow⟩ => ?_, fun ⟨he, _, hlow⟩ => ?_⟩ rfl rfl
      · have he : line = n := locate_injective hl hn.bound (Prod.ext hr.symm hk.symm)
        exact ⟨he, he ▸ ha, hlow⟩
      · exact ⟨by rw [he], hlow⟩
    · rw [if_neg fun ⟨he, _, _⟩ => hr (by rw [he])]
      exact lineOf_elsewhere hn (ActsOn.refl.raise _) hr
  · rw [if_neg ha, if_neg fun ⟨he, hon, _⟩ => ha (he ▸ hon)]

theorem lineOf_clearIrq (hn : IsOuter n) (line : UInt8) :
    (c.clearIrq line).lineOf n =
      if line = n then { c.lineOf n with requested := false, high := false } else c.lineOf n := by
  by_cases hr : (locate n).1 = (locate line).1
  · unfold clearIrq
    by_cases hl : line < 16
    · rw [if_pos hl]
      change ((c.modifyChip (locate line).1 fun chip => chip.lower (locate line).2).chip
        (locate n).1).line (locate n).2 = _
      rw [← hr, chip_modifyChip, lower_line]
      refine if_congr ⟨fun hk => ?_, fun he => by rw [he]⟩ rfl rfl
      exact locate_injective hl hn.bound (Prod.ext hr.symm hk.symm)
    · have hne : line ≠ n := fun he => hl (he ▸ hn.bound)
      rw [if_neg hl, if_neg hne]
  · have hne : line ≠ n := fun he => hr (by rw [he])
    rw [if_neg hne]
    exact lineOf_elsewhere hn (ActsOn.refl.clearIrq rfl) hr

theorem lineOf_releaseIrq (hn : IsOuter n) (line : UInt8) :
    (c.perform (.releaseIrq line)).lineOf n =
      if line = n then { c.lineOf n with requested := false, high := false } else c.lineOf n := by
  change (c.releaseIrq line).2.lineOf n = _
  unfold releaseIrq
  by_cases hl : line < 16
  · rw [if_pos hl]
    exact lineOf_clearIrq hn line
  · have hne : line ≠ n := fun he => hl (he ▸ hn.bound)
    rw [if_neg hl, if_neg hne]

theorem lineOf_readPort (hn : IsOuter n) (port : UInt16) :
    (c.perform (.readPort port)).lineOf n =
      if port = (locate n).1.commandPort ∧ (c.chipOf n).polled = true ∧
          (c.chipOf n).Chosen (locate n).2 then
        (c.lineOf n).accepted (c.chipOf n).autoEoi
      else c.lineOf n := by
  obtain ⟨r, rfl⟩ | ⟨r, rfl⟩ | hport := port_cases port
  · by_cases hr : (locate n).1 = r
    · subst hr
      rw [perform_readCommand]
      exact (readCommand_line hn.off_link).trans (if_congr (by simp [chipOf]) rfl rfl)
    · rw [if_neg fun h => hr (Role.commandPort_injective h.1).symm]
      exact lineOf_elsewhere hn (perform_actsOn c (.inl rfl)) hr
  · rw [if_neg fun h => r.dataPort_ne_commandPort _ h.1, perform_readData]
  · rw [if_neg fun h => hport.1 _ h.1, (hport.2 c).1]

/-- Writes to the other ports leave the line alone. -/
theorem lineOf_writePort_of_ne (hn : IsOuter n) {port : UInt16} (v : UInt8)
    (hp : port ≠ (locate n).1.commandPort) :
    (c.perform (.writePort port v)).lineOf n = c.lineOf n := by
  obtain ⟨r, rfl⟩ | ⟨r, rfl⟩ | hport := port_cases port
  · exact lineOf_elsewhere hn (perform_actsOn c (.inl rfl)) fun hr => hp (by rw [hr])
  · by_cases hr : (locate n).1 = r
    · subst hr
      rw [perform_writeData]
      exact writeData_line hn.off_link v
    · exact lineOf_elsewhere hn (perform_actsOn c (.inr rfl)) hr
  · rw [(hport.2 c).2 v]

inductive Transition (s : LineState) (autoEoi : Bool) : Option Event → LineState → Prop where
  | edge (low : s.high = false) :
    Transition s autoEoi (some .edge) { s with requested := true, high := true }
  | acceptance (requested : s.requested = true) (fresh : s.served = false) :
    Transition s autoEoi (some .acceptance) (s.accepted autoEoi)
  | lowering : Transition s autoEoi (some .lowering) { s with requested := false, high := false }
  | initialization :
    Transition s autoEoi (some .initialization) { s with requested := false, served := false }
  | endOfInterrupt {t : LineState} (h : Relieved s t) :
    Transition s autoEoi (some .endOfInterrupt) t
  | other : Transition s autoEoi none s

/-- What each operation does to a line is told by the event it is. -/
theorem lineOf_perform (hn : IsOuter n) (hs : c.registry.lines.size = 16) (op : Operation) :
    Transition (c.lineOf n) (c.chipOf n).autoEoi (event n c op) ((c.perform op).lineOf n) := by
  cases op with
  | raise line =>
    rw [lineOf_raise hn hs, event]
    split_ifs with h
    · exact .edge h.2.2
    · exact .other
  | lower line =>
    have hl : (c.perform (.lower line)).lineOf n = _ := lineOf_clearIrq hn line
    rw [hl, event]
    split_ifs
    · exact .lowering
    · exact .other
  | releaseIrq line =>
    rw [lineOf_releaseIrq hn, event]
    split_ifs
    · exact .lowering
    · exact .other
  | acknowledge =>
    have hl : (c.perform .acknowledge).lineOf n = _ := acknowledge_line hn.off_link
    rw [hl, event]
    split_ifs with h
    · have hline := (chosen_of_due h).line
      exact .acceptance hline.1 hline.2
    · exact .other
  | readPort port =>
    -- a read accepts the line only as a poll
    rw [lineOf_readPort hn, event]
    split_ifs with h
    · have hline := Chosen.line h.2.2
      exact .acceptance hline.1 hline.2
    · exact .other
  | writePort port v =>
    -- of the words to the command port, ICW1 and the ends of interrupt reach the line
    rw [event]
    split_ifs with hp hi he
    · rw [lineOf_writePort_of_ne hn v hp]
      exact .other
    · obtain rfl := not_not.1 hp
      have hl : (c.perform (.writePort (locate n).1.commandPort v)).lineOf n = _ :=
        (congrArg (lineOf · n) (perform_writeCommand ..)).trans (writeCommand_initializing hi _)
      rw [hl]
      exact .initialization
    · obtain rfl := not_not.1 hp
      have hr := (writeCommand_relieved (c := c) hn.off_link (not_not.1 hi)).1
      rw [perform_writeCommand]
      exact .endOfInterrupt hr
    · obtain rfl := not_not.1 hp
      have hl := (writeCommand_relieved (c := c) hn.off_link (not_not.1 hi)).2 (by simpa using he)
      have hl : (c.writeCommand (locate n).1 v).lineOf n = c.lineOf n := hl
      rw [perform_writeCommand, hl]
      exact .other
  | request device => exact .other
  | releaseLine line => exact .other
  | setEnabled line on => exact .other

end Step

section Account

/-- A line is requested only while it is high, and there are sixteen lines. -/
structure Sound (n : UInt8) (c : Controller) : Prop where
  heard : (c.lineOf n).requested = true → (c.lineOf n).high = true
  bounded : c.registry.lines.size = 16

variable {n : UInt8} {c : Controller}

/-- No operation adds a line or takes one away. -/
theorem perform_registry_size (c : Controller) (op : Operation) :
    (c.perform op).registry.lines.size = c.registry.lines.size := by
  cases op with
  | readPort port =>
    obtain ⟨r, rfl⟩ | ⟨r, rfl⟩ | hport := port_cases port
    · have h : ActsOn r c (c.perform (.readPort r.commandPort)) := perform_actsOn c (.inl rfl)
      exact h.registry_size
    · rw [perform_readData]
    · rw [(hport.2 c).1]
  | writePort port v =>
    obtain ⟨r, rfl⟩ | ⟨r, rfl⟩ | hport := port_cases port
    · have h : ActsOn r c (c.perform (.writePort r.commandPort v)) := perform_actsOn c (.inl rfl)
      exact h.registry_size
    · have h : ActsOn r c (c.perform (.writePort r.dataPort v)) := perform_actsOn c (.inr rfl)
      exact h.registry_size
    · rw [(hport.2 c).2 v]
  | raise line =>
    change (c.setIrq line).registry.lines.size = _
    unfold setIrq
    split
    · exact (ActsOn.refl.raise _).registry_size
    · rfl
  | lower line => exact (ActsOn.refl.clearIrq rfl).registry_size
  | acknowledge => exact congrArg (·.lines.size) c.acknowledge_registry
  | request device => exact c.registry.request_size device
  | releaseIrq line => exact (ActsOn.refl.releaseIrq rfl).registry_size
  | releaseLine line => exact c.registry.release_size line
  | setEnabled line on => exact c.registry.setEnabled_size line on

theorem Sound.perform (hn : IsOuter n) (hs : Sound n c) (op : Operation) :
    Sound n (c.perform op) where
  heard := by
    have ht := lineOf_perform hn hs.bounded op
    have hh := hs.heard
    generalize event n c op = e at ht
    generalize (c.perform op).lineOf n = t at ht ⊢
    cases ht with
    | edge => exact fun _ => rfl
    | acceptance => exact nofun
    | lowering => exact nofun
    | initialization => exact nofun
    | endOfInterrupt h =>
      rw [h.requested, h.high]
      exact hh
    | other => exact hh
  bounded := (perform_registry_size c op).trans hs.bounded

theorem request_step (hn : IsOuter n) (hs : Sound n c) (op : Operation) :
    (rises n c op).toNat + (c.lineOf n).requested.toNat =
      (accepts n c op).toNat + (withdraws n c op).toNat + (forgetsRequest n c op).toNat +
        ((c.perform op).lineOf n).requested.toNat := by
  have ht := lineOf_perform hn hs.bounded op
  have hh := hs.heard
  -- from here on only the event and the line before and after it matter
  unfold rises accepts withdraws forgetsRequest
  generalize event n c op = e at ht ⊢
  generalize (c.perform op).lineOf n = t at ht ⊢
  cases ht with
  | edge low =>
    -- a low line has no request yet, so the edge makes a new one
    have hidle : (c.lineOf n).requested = false := by
      simpa [low] using hh
    simp [hidle]
  | acceptance requested => simp [requested, LineState.accepted]
  | lowering => simp
  | initialization => simp
  | endOfInterrupt h => simp [h.requested]
  | other => simp

theorem service_step (hn : IsOuter n) (hs : Sound n c) (op : Operation) :
    (acceptsForService n c op).toNat + (c.lineOf n).served.toNat =
      (endsService n c op).toNat + (forgetsService n c op).toNat +
        ((c.perform op).lineOf n).served.toNat := by
  have ht := lineOf_perform hn hs.bounded op
  unfold acceptsForService accepts endsService forgetsService
  generalize event n c op = e at ht ⊢
  generalize (c.perform op).lineOf n = t at ht ⊢
  cases ht with
  | edge => simp
  | acceptance requested fresh => simp [fresh, LineState.accepted]
  | lowering => simp
  | initialization => simp
  | endOfInterrupt h =>
    have hkept := h.served
    cases hc : (c.lineOf n).served <;> cases ht : t.served <;> simp_all
  | other => simp

theorem Sound.performAll (hn : IsOuter n) (hs : Sound n c) (ops : List Operation) :
    Sound n (c.performAll ops) := by
  induction ops generalizing c with
  | nil => exact hs
  | cons op ops ih => exact ih (hs.perform hn op)

theorem requests_balance (hn : IsOuter n) (hs : Sound n c) (ops : List Operation) :
    tally (rises n) c ops + (c.lineOf n).requested.toNat =
      tally (accepts n) c ops + tally (withdraws n) c ops + tally (forgetsRequest n) c ops +
        ((c.performAll ops).lineOf n).requested.toNat := by
  induction ops generalizing c with
  | nil => simp [tally]
  | cons op ops ih =>
    have hstep := request_step hn hs op
    have hrest := ih (hs.perform hn op)
    simp only [tally, performAll_cons]
    omega

theorem services_balance (hn : IsOuter n) (hs : Sound n c) (ops : List Operation) :
    tally (acceptsForService n) c ops + (c.lineOf n).served.toNat =
      tally (endsService n) c ops + tally (forgetsService n) c ops +
        ((c.performAll ops).lineOf n).served.toNat := by
  induction ops generalizing c with
  | nil => simp [tally]
  | cons op ops ih =>
    have hstep := service_step hn hs op
    have hrest := ih (hs.perform hn op)
    simp only [tally, performAll_cons]
    omega

/-- A line is accepted with a request and out of service, and the request is gone afterwards. -/
theorem Sound.accepts (hn : IsOuter n) (hs : Sound n c) {op : Operation}
    (h : accepts n c op = true) :
    (c.lineOf n).requested = true ∧ (c.lineOf n).served = false ∧
      ((c.perform op).lineOf n).requested = false := by
  have ht := lineOf_perform hn hs.bounded op
  rw [of_decide_eq_true h] at ht
  generalize (c.perform op).lineOf n = t at ht ⊢
  cases ht with
  | acceptance requested fresh => exact ⟨requested, fresh, rfl⟩

theorem withBases_sound (m s : UInt8) (n : UInt8) : Sound n (withBases m s) where
  heard := by
    intro h
    have hr : ((withBases m s).lineOf n).requested = false := by
      unfold lineOf chipOf
      cases (locate n).1 <;> exact LineSet.contains_empty _
    rw [hr] at h
    cases h
  bounded := rfl

/-- Requests are conserved: in a run from the start every edge of a line is accounted for by one
acceptance, withdrawal or initialization or is still pending, and every service that was begun by
one end of interrupt or initialization or still goes on. No line is accepted in service, and no two
acceptances share an edge. -/
theorem requests_conserved (m s : UInt8) {n : UInt8} (hb : n < 16) (hc : n ≠ 2)
    (ops : List Operation) :
    let c := withBases m s
    let d := c.performAll ops
    tally (rises n) c ops =
        tally (accepts n) c ops + tally (withdraws n) c ops + tally (forgetsRequest n) c ops +
          (d.lineOf n).requested.toNat ∧
      tally (acceptsForService n) c ops =
        tally (endsService n) c ops + tally (forgetsService n) c ops +
          (d.lineOf n).served.toNat ∧
      ∀ op, accepts n d op = true →
        (d.lineOf n).served = false ∧
        ∀ mid op', accepts n ((d.perform op).performAll mid) op' = true →
          0 < tally (rises n) (d.perform op) mid := by
  intro c d
  have hn : IsOuter n := ⟨hb, hc⟩
  have hstart : Sound n c := withBases_sound m s n
  have hidle : c.lineOf n = ⟨false, false, false⟩ := by
    unfold lineOf chipOf Chip.line
    cases (locate n).1 <;> simp [c, withBases, chip]
  have hreq := requests_balance hn hstart ops
  have hserv := services_balance hn hstart ops
  rw [hidle] at hreq hserv
  refine ⟨hreq, hserv, fun op ha => ?_⟩
  have hd : Sound n d := hstart.performAll hn ops
  have hafter : Sound n (d.perform op) := hd.perform hn op
  obtain ⟨_, hfresh, htaken⟩ := hd.accepts hn ha
  refine ⟨hfresh, fun mid op' ha' => ?_⟩
  -- between two acceptances the balance starts at no request and ends at one
  obtain ⟨hpending, _, _⟩ := (hafter.performAll hn mid).accepts hn ha'
  have hmid := requests_balance hn hafter mid
  rw [htaken, hpending] at hmid
  simp only [Bool.toNat_true, Bool.toNat_false] at hmid
  omega

/-- The serial line rises three times, is accepted twice and waits with the third request. -/
theorem serial_requests_conserved :
    let ops : List Operation :=
      [.request .serial, .writePort 0x21 0x00, .raise 4, .acknowledge, .lower 4, .raise 4,
        .writePort 0x20 0x20, .acknowledge, .lower 4, .raise 4]
    let d := initial.performAll ops
    tally (rises 4) initial ops = 3 ∧ tally (accepts 4) initial ops = 2 ∧
      tally (endsService 4) initial ops = 1 ∧ (d.lineOf 4).requested.toNat = 1 ∧
      (d.lineOf 4).served.toNat = 1 := by
  intro ops d
  obtain ⟨hreq, hserv, _⟩ := requests_conserved 0x08 0x70 (n := 4) (by decide) (by decide) ops
  have hrises : tally (rises 4) initial ops = 3 := by decide
  have haccepts : tally (accepts 4) initial ops = 2 := by decide
  have hgone : tally (withdraws 4) initial ops + tally (forgetsRequest 4) initial ops = 0 := by
    decide
  have hbegun : tally (acceptsForService 4) initial ops = 2 := by decide
  have hends : tally (endsService 4) initial ops = 1 := by decide
  have hforgets : tally (forgetsService 4) initial ops = 0 := by decide
  have hreq : tally (rises 4) initial ops = tally (accepts 4) initial ops +
      tally (withdraws 4) initial ops + tally (forgetsRequest 4) initial ops +
        (d.lineOf 4).requested.toNat := hreq
  have hserv : tally (acceptsForService 4) initial ops = tally (endsService 4) initial ops +
      tally (forgetsService 4) initial ops + (d.lineOf 4).served.toNat := hserv
  exact ⟨hrises, haccepts, hends, by omega, by omega⟩

end Account

end Pc8086.Interrupt.Controller

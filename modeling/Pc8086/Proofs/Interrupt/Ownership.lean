import Pc8086.Proofs.Interrupt.Bystanders

namespace Pc8086.Interrupt

namespace Device

def lines (d : Device) : List UInt8 :=
  match d.fixedLine with
  | some line => [line]
  | none => Registry.freeLines

theorem fixedLine_lt {d : Device} {line : UInt8} (h : d.fixedLine = some line) : line < 16 := by
  unfold fixedLine at h
  split at h
  all_goals
    cases h
    try decide

theorem lt_of_mem_lines {d : Device} {line : UInt8} (h : line ∈ d.lines) : line < 16 := by
  unfold lines at h
  split at h
  · next hfixed =>
    rw [List.mem_singleton.1 h]
    exact fixedLine_lt hfixed
  · have hfree : Registry.freeLines.all (· < 16) = true := rfl
    exact of_decide_eq_true (List.all_eq_true.1 hfree line h)

end Device

namespace Registry

variable {g : Registry} {d : Device} {line n : UInt8}

theorem index_lt (hg : g.lines.size = 16) (h : line < 16) : line.toNat < g.lines.size := by
  rw [hg]
  exact UInt8.lt_iff_toNat_lt.1 h

theorem assignment_set_self (a : Option Assignment) (h : line.toNat < g.lines.size) :
    (Registry.mk (g.lines.set! line.toNat a)).assignment line = a := by
  unfold assignment
  rw [Array.set!_eq_setIfInBounds, Array.getElem?_setIfInBounds_self_of_lt h]
  rfl

theorem index_lt_of_isVacant (h : g.isVacant line = true) : line.toNat < g.lines.size := by
  by_contra hout
  have hnone : g.lines[line.toNat]? = none := Array.getElem?_eq_none (Nat.le_of_not_lt hout)
  unfold isVacant at h
  rw [hnone] at h
  cases h

theorem isVacant_iff (h : line.toNat < g.lines.size) :
    g.isVacant line = true ↔ g.owner line = none := by
  unfold isVacant owner assignment
  rw [Array.getElem?_eq_getElem h]
  cases g.lines[line.toNat] <;> simp

theorem vacantLine_eq (g : Registry) (d : Device) :
    g.vacantLine d = d.lines.find? g.isVacant := by
  unfold vacantLine Device.lines
  cases d.fixedLine with
  | none => rfl
  | some line => cases h : g.isVacant line <;> simp [h]

/-- The line is the first of the device's lines that nobody owns. -/
def Offers (g : Registry) (d : Device) (line : UInt8) : Prop :=
  g.owner line = none ∧
    ∃ before after, d.lines = before ++ line :: after ∧ ∀ l ∈ before, g.owner l ≠ none

theorem vacantLine_eq_some_iff (hg : g.lines.size = 16) :
    g.vacantLine d = some line ↔ g.Offers d line := by
  have hvacant : ∀ l ∈ d.lines, (g.isVacant l = true ↔ g.owner l = none) := fun l hl =>
    isVacant_iff (index_lt hg (Device.lt_of_mem_lines hl))
  rw [vacantLine_eq, List.find?_eq_some_iff_append]
  unfold Offers
  constructor
  · rintro ⟨hline, before, after, hlines, hbefore⟩
    rw [hlines] at hvacant
    refine ⟨(hvacant line (by simp)).1 hline, before, after, hlines, fun l hl hnone => ?_⟩
    have hl' := (hvacant l (List.mem_append_left _ hl)).2 hnone
    simpa [hl'] using hbefore l hl
  · rintro ⟨hline, before, after, hlines, hbefore⟩
    rw [hlines] at hvacant
    refine ⟨(hvacant line (by simp)).2 hline, before, after, hlines, fun l hl => ?_⟩
    have hl' := mt (hvacant l (List.mem_append_left _ hl)).1 (hbefore l hl)
    simpa using hl'

theorem vacantLine_eq_none_iff (hg : g.lines.size = 16) :
    g.vacantLine d = none ↔ ∀ l ∈ d.lines, g.owner l ≠ none := by
  rw [vacantLine_eq, List.find?_eq_none]
  refine forall₂_congr fun l hl => not_congr ?_
  exact isVacant_iff (index_lt hg (Device.lt_of_mem_lines hl))

theorem mem_lines_of_vacantLine (h : g.vacantLine d = some line) : line ∈ d.lines := by
  rw [vacantLine_eq] at h
  exact List.mem_of_find?_eq_some h

theorem request_ok_iff (hg : g.lines.size = 16) :
    (g.request d).1 = .ok line ↔ g.Offers d line := by
  rw [← vacantLine_eq_some_iff hg]
  unfold request
  split <;> simp [*]

theorem request_error_iff (hg : g.lines.size = 16) {e : LineError} :
    (g.request d).1 = .error e ↔ e = .unavailable d ∧ ∀ l ∈ d.lines, g.owner l ≠ none := by
  rw [← vacantLine_eq_none_iff hg]
  unfold request
  split <;> simp [*, eq_comm]

theorem request_of_ok (h : (g.request d).1 = .ok line) :
    (g.request d).2 = ⟨g.lines.set! line.toNat (some { owner := d })⟩ ∧
      g.vacantLine d = some line := by
  unfold request at h ⊢
  split at h
  · next hline =>
    cases h
    exact ⟨rfl, hline⟩
  · cases h

/-- The device owns the line it is given, and the line is enabled. -/
theorem assignment_of_request (hg : g.lines.size = 16) (h : (g.request d).1 = .ok line) :
    (g.request d).2.assignment line = some { owner := d } := by
  obtain ⟨hset, hvacant⟩ := request_of_ok h
  have hline := Device.lt_of_mem_lines (mem_lines_of_vacantLine hvacant)
  rw [hset]
  exact assignment_set_self _ (index_lt hg hline)

theorem request_of_error {e : LineError} (h : (g.request d).1 = .error e) :
    (g.request d).2 = g ∧ g.vacantLine d = none := by
  unfold request at h ⊢
  split at h
  · cases h
  · next hline => exact ⟨rfl, hline⟩

theorem release_of_lt (h : line.toNat < g.lines.size) : (g.release line).1 = .ok () := by
  unfold release
  rw [if_pos h]

theorem owner_of_release (h : line.toNat < g.lines.size) : (g.release line).2.owner line = none := by
  unfold release owner
  rw [if_pos h, assignment_set_self none h]
  rfl

theorem release_of_error {e : LineError} (h : (g.release line).1 = .error e) :
    (g.release line).2 = g := by
  unfold release at h ⊢
  split at h
  · cases h
  · next hout => rw [if_neg hout]

theorem index_lt_of_assignment {a : Assignment} (h : g.assignment line = some a) :
    line.toNat < g.lines.size := by
  by_contra hout
  unfold assignment at h
  rw [Array.getElem?_eq_none (Nat.le_of_not_lt hout)] at h
  cases h

theorem setEnabled_of_assignment {a : Assignment} (h : g.assignment line = some a) (on : Bool) :
    (g.setEnabled line on).1 = .ok () ∧
      (g.setEnabled line on).2.assignment line = some { a with enabled := on } := by
  unfold setEnabled
  rw [h]
  exact ⟨rfl, assignment_set_self _ (index_lt_of_assignment h)⟩

theorem setEnabled_of_error {on : Bool} {e : LineError}
    (h : (g.setEnabled line on).1 = .error e) : (g.setEnabled line on).2 = g := by
  unfold setEnabled at h ⊢
  split at h
  · cases h
  · rfl

/-- Whoever owns a line may own it. -/
def Rightful (g : Registry) : Prop :=
  ∀ line d, g.owner line = some d → line ∈ d.lines

/-- An owner behind a change of one entry was there before, or has come with it. -/
theorem owner_set_cases {a : Option Assignment}
    (h : (Registry.mk (g.lines.set! line.toNat a)).owner n = some d) :
    g.owner n = some d ∨ n = line ∧ a.map Assignment.owner = some d := by
  by_cases hn : n = line
  · subst hn
    by_cases hin : n.toNat < g.lines.size
    · unfold owner at h
      rw [assignment_set_self a hin] at h
      exact .inr ⟨rfl, h⟩
    · rw [Array.set!_eq_setIfInBounds, Array.setIfInBounds_eq_of_size_le (by omega)] at h
      exact .inl h
  · unfold owner at h
    rw [assignment_set_of_ne a (Ne.symm hn)] at h
    exact .inl h

theorem Rightful.request (h : g.Rightful) (d : Device) : (g.request d).2.Rightful := by
  intro n d' hn
  cases hr : (g.request d).1 with
  | error e =>
    rw [(request_of_error hr).1] at hn
    exact h n d' hn
  | ok line =>
    obtain ⟨hset, hvacant⟩ := request_of_ok hr
    rw [hset] at hn
    obtain hn | ⟨rfl, hd⟩ := owner_set_cases hn
    · exact h n d' hn
    · cases hd
      exact mem_lines_of_vacantLine hvacant

theorem Rightful.release (h : g.Rightful) (line : UInt8) : (g.release line).2.Rightful := by
  unfold Registry.release
  split
  · intro n d hn
    obtain hn | ⟨-, hd⟩ := owner_set_cases hn
    · exact h n d hn
    · cases hd
  · exact h

theorem Rightful.setEnabled (h : g.Rightful) (line : UInt8) (on : Bool) :
    (g.setEnabled line on).2.Rightful := by
  unfold Registry.setEnabled
  split
  · next a ha =>
    intro n d hn
    obtain hn | ⟨rfl, hd⟩ := owner_set_cases hn
    · exact h n d hn
    · refine h n d ?_
      unfold owner
      rw [ha]
      exact hd
  · exact h

theorem Rightful.perform (h : g.Rightful) (op : Operation) : (g.perform op).Rightful := by
  cases op with
  | request d => exact h.request d
  | releaseIrq line =>
    unfold Registry.perform
    dsimp only
    split
    · exact h.release line
    · exact h
  | releaseLine line => exact h.release line
  | setEnabled line on => exact h.setEnabled line on
  | readPort port => exact h
  | writePort port v => exact h
  | raise line => exact h
  | lower line => exact h
  | acknowledge => exact h

def vacant : Registry :=
  ⟨Array.replicate 16 none⟩

theorem owner_vacant (line : UInt8) : vacant.owner line = none := by
  unfold owner assignment vacant
  rw [Array.getElem?_replicate]
  split <;> rfl

theorem initial_rightful : initial.Rightful := by
  intro line d h
  have hinitial : initial = ⟨vacant.lines.set! (2 : UInt8).toNat (some { owner := .cascade })⟩ :=
    rfl
  rw [hinitial] at h
  obtain h | ⟨rfl, h⟩ := owner_set_cases h
  · rw [owner_vacant] at h
    cases h
  · cases h
    decide

end Registry

def Operation.IsCall : Operation → Prop
  | request _ | releaseIrq _ | releaseLine _ | setEnabled .. => True
  | readPort _ | writePort .. | raise _ | lower _ | acknowledge => False

namespace Controller

variable {c : Controller} {op : Operation} {line : UInt8}

def Refuses (c : Controller) : Operation → Prop
  | .request d => ∃ e, (c.requestIrq d).1 = .error e
  | .releaseIrq line => ∃ e, (c.releaseIrq line).1 = .error e
  | .releaseLine line => ∃ e, (c.releaseLine line).1 = .error e
  | .setEnabled line on => ∃ e, (c.setEnabled line on).1 = .error e
  | .readPort _ | .writePort .. | .raise _ | .lower _ | .acknowledge => False

/-- The line that a call is about: for a request the one that is given, else the one named. -/
def subject (c : Controller) : Operation → Option UInt8
  | .request d => (c.requestIrq d).1.toOption
  | .releaseIrq line | .releaseLine line | .setEnabled line _ => some line
  | .readPort _ | .writePort .. | .raise _ | .lower _ | .acknowledge => none

/-- `d` is `c` but for one line: its entry in the registry, and its input if that has been
lowered. -/
structure SameButLine (line : UInt8) (c d : Controller) : Prop where
  entries : ∀ n, n ≠ line → d.registry.assignment n = c.registry.assignment n
  chips : ∀ r, d.chip r = c.chip r ∨
    line < 16 ∧ r = (locate line).1 ∧ d.chip r = (c.chip r).lower (locate line).2
  intr : d.intr = c.intr

theorem sameButLine_of_chips {g : Registry}
    (h : ∀ n, n ≠ line → g.assignment n = c.registry.assignment n) :
    SameButLine line c { c with registry := g } where
  entries := h
  chips r := by
    refine .inl ?_
    cases r <;> rfl
  intr := rfl

theorem releaseIrq_of_lt (h : line < 16) : c.releaseIrq line =
    ((c.registry.release line).1,
      { c.clearIrq line with registry := (c.registry.release line).2 }) := by
  unfold releaseIrq
  rw [if_pos h]
  dsimp only
  rw [clearIrq_registry]

theorem releaseIrq_of_not_lt (h : ¬line < 16) : c.releaseIrq line = (.error (.invalid line), c) :=
  if_neg h

/-- A request that fails leaves the controller as it was. -/
theorem request_of_error {d : Device} {e : LineError} (h : (c.requestIrq d).1 = .error e) :
    c.perform (.request d) = c := by
  change { c with registry := (c.registry.request d).2 } = c
  rw [(Registry.request_of_error h).1]

theorem perform_of_refuses (hc : c.registry.lines.size = 16) (h : c.Refuses op) :
    c.perform op = c := by
  have hkept : ∀ {g : Registry}, g = c.registry → { c with registry := g } = c := by
    rintro _ rfl
    rfl
  cases op with
  | request d => exact request_of_error h.choose_spec
  | releaseIrq line =>
    by_cases hline : line < 16
    · obtain ⟨e, he⟩ := h
      rw [releaseIrq_of_lt hline, Registry.release_of_lt (Registry.index_lt hc hline)] at he
      cases he
    · exact congrArg Prod.snd (releaseIrq_of_not_lt hline)
  | releaseLine line => exact hkept (Registry.release_of_error h.choose_spec)
  | setEnabled line on => exact hkept (Registry.setEnabled_of_error h.choose_spec)
  | _ => exact h.elim

theorem sameButLine_releaseIrq (c : Controller) (line : UInt8) :
    SameButLine line c (c.releaseIrq line).2 := by
  by_cases hline : line < 16
  · rw [releaseIrq_of_lt hline]
    refine ⟨fun n hn => Registry.assignment_release (Ne.symm hn), fun r => ?_, ?_⟩
    · change (c.clearIrq line).chip r = _ ∨ _
      unfold clearIrq
      rw [if_pos hline]
      by_cases hr : r = (locate line).1
      · subst hr
        exact .inr ⟨hline, rfl, chip_modifyChip ..⟩
      · exact .inl (chip_modifyChip_of_ne c hr _)
    · change (c.clearIrq line).intr = c.intr
      unfold clearIrq
      rw [if_pos hline]
      generalize locate line = place
      obtain ⟨r, l⟩ := place
      cases r <;> rfl
  · rw [releaseIrq_of_not_lt hline]
    exact sameButLine_of_chips fun _ _ => rfl

theorem perform_sameButLine (h : c.subject op = some line) : SameButLine line c (c.perform op) := by
  cases op with
  | request d =>
    have hok : (c.registry.request d).1 = .ok line := by
      change (c.registry.request d).1.toOption = some line at h
      cases hr : (c.registry.request d).1 with
      | error e =>
        rw [hr] at h
        cases h
      | ok line' =>
        rw [hr] at h
        cases h
        rfl
    refine sameButLine_of_chips fun n hn => ?_
    change (c.registry.request d).2.assignment n = _
    rw [(Registry.request_of_ok hok).1]
    exact Registry.assignment_set_of_ne _ (Ne.symm hn)
  | releaseIrq line' =>
    cases h
    exact c.sameButLine_releaseIrq line
  | releaseLine line' =>
    cases h
    exact sameButLine_of_chips fun n hn => Registry.assignment_release (Ne.symm hn)
  | setEnabled line' on =>
    cases h
    exact sameButLine_of_chips fun n hn => Registry.assignment_setEnabled (Ne.symm hn) on
  | _ => cases h

/-- A call either fails or is about a line. -/
theorem exists_subject (hop : op.IsCall) (h : ¬c.Refuses op) :
    ∃ line, c.subject op = some line := by
  cases op with
  | request d =>
    cases hr : (c.requestIrq d).1 with
    | error e => exact absurd ⟨e, hr⟩ h
    | ok line => exact ⟨line, congrArg Except.toOption hr⟩
  | releaseIrq line => exact ⟨line, rfl⟩
  | releaseLine line => exact ⟨line, rfl⟩
  | setEnabled line on => exact ⟨line, rfl⟩
  | _ => exact hop.elim

theorem performAll_lines (hs : c.registry.lines.size = 16) (hr : c.registry.Rightful)
    (ops : List Operation) :
    (c.performAll ops).registry.lines.size = 16 ∧ (c.performAll ops).registry.Rightful := by
  induction ops generalizing c with
  | nil => exact ⟨hs, hr⟩
  | cons op ops ih =>
    refine ih ((perform_registry_size c op).trans hs) ?_
    rw [perform_registry]
    exact hr.perform op

/-- The owner of a line below 16 can give it up by either call. -/
theorem release_vacates (hc : c.registry.lines.size = 16) (h : line < 16) :
    ((c.releaseIrq line).1 = .ok () ∧ (c.releaseLine line).1 = .ok ()) ∧
    (c.perform (.releaseIrq line)).registry.owner line = none ∧
    (c.perform (.releaseLine line)).registry.owner line = none := by
  have hin := Registry.index_lt hc h
  have hok := Registry.release_of_lt hin
  have howner := Registry.owner_of_release hin
  have hirq : c.perform (.releaseIrq line) = (c.releaseIrq line).2 := rfl
  rw [hirq, releaseIrq_of_lt h]
  exact ⟨⟨hok, hok⟩, howner, howner⟩

/-- The registry at any point of a run from power-up. Every owner may own its line: a wired device
its own line, and another one a free line. A request gets the first of the device's lines that
nobody owns, and the device owns it from then on; it fails if there is none. A release leaves its
line without owner, and switching a line keeps its owner. A call that fails changes nothing, and one
that succeeds changes at most the line that it is about. -/
theorem line_ownership (m s : UInt8) (ops : List Operation) :
    let c := (withBases m s).performAll ops
    (∀ line d, c.registry.owner line = some d → line ∈ d.lines) ∧
    (∀ d line, (c.requestIrq d).1 = .ok line ↔ c.registry.Offers d line) ∧
    (∀ d e, (c.requestIrq d).1 = .error e ↔
      e = .unavailable d ∧ ∀ line ∈ d.lines, c.registry.owner line ≠ none) ∧
    (∀ d line, (c.requestIrq d).1 = .ok line →
      (c.perform (.request d)).registry.assignment line = some { owner := d, enabled := true }) ∧
    (∀ line, line < 16 →
      ((c.releaseIrq line).1 = .ok () ∧ (c.releaseLine line).1 = .ok ()) ∧
      (c.perform (.releaseIrq line)).registry.owner line = none ∧
      (c.perform (.releaseLine line)).registry.owner line = none) ∧
    (∀ line on a, c.registry.assignment line = some a →
      (c.setEnabled line on).1 = .ok () ∧
      (c.perform (.setEnabled line on)).registry.assignment line =
        some { a with enabled := on }) ∧
    ∀ op : Operation, op.IsCall →
      (c.Refuses op → c.perform op = c) ∧
      (¬c.Refuses op → ∃ line, c.subject op = some line ∧ SameButLine line c (c.perform op)) := by
  intro c
  obtain ⟨hsize, hrightful⟩ :=
    performAll_lines (c := withBases m s) rfl Registry.initial_rightful ops
  refine ⟨hrightful, fun d line => Registry.request_ok_iff hsize,
    fun d e => Registry.request_error_iff hsize,
    fun d line h => Registry.assignment_of_request hsize h,
    fun line h => release_vacates hsize h,
    fun line on a h => Registry.setEnabled_of_assignment h on,
    fun op hop => ⟨perform_of_refuses hsize, ?_⟩⟩
  intro h
  obtain ⟨line, hline⟩ := exists_subject hop h
  exact ⟨line, hline, perform_sameButLine hline⟩

/-- A disk beyond the fourth channel and two cards have taken 3, 5 and 7. The first card gives up
its line, which the next card then gets, while the lines of the others stay theirs. -/
theorem line_ownership_of_cards :
    let c := (withBases 0x08 0x70).performAll
      [.request (.disk 4), .request (.other "sound"), .request (.other "network"), .releaseIrq 5]
    let after := c.perform (.request (.other "modem"))
    (c.requestIrq (.other "modem")).1 = .ok 5 ∧
    after.registry.assignment 5 = some { owner := .other "modem", enabled := true } ∧
    after.registry.owner 3 = some (.disk 4) ∧
    (after.perform (.releaseIrq 5)).registry.owner 5 = none := by
  intro c after
  obtain ⟨-, hok, -, howned, -⟩ := line_ownership 0x08 0x70
    [.request (.disk 4), .request (.other "sound"), .request (.other "network"), .releaseIrq 5]
  obtain ⟨-, -, -, -, hreleased, -⟩ := line_ownership 0x08 0x70
    [.request (.disk 4), .request (.other "sound"), .request (.other "network"), .releaseIrq 5,
      .request (.other "modem")]
  have hdisk : c.registry.owner 3 = some (.disk 4) := rfl
  have htaken : ∀ l ∈ [3], c.registry.owner l ≠ none := by
    intro l hl
    rw [List.mem_singleton.1 hl, hdisk]
    exact Option.some_ne_none _
  have h5 : (c.requestIrq (.other "modem")).1 = .ok 5 :=
    (hok (.other "modem") 5).2 ⟨rfl, [3], [7, 10], rfl, htaken⟩
  exact ⟨h5, howned (.other "modem") 5 h5, rfl, (hreleased 5 (by decide)).2.1⟩

end Controller

end Pc8086.Interrupt

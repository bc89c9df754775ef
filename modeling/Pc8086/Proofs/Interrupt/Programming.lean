import Pc8086.Proofs.Interrupt.Lines

namespace Pc8086.Interrupt

def Operation.Initializes (r : Role) : Operation → Prop
  | writePort port v => port = r.commandPort ∧ v &&& 0x10 ≠ 0
  | _ => False

def Operation.dataWord? (r : Role) : Operation → Option UInt8
  | writePort port v => if port = r.dataPort then some v else none
  | _ => none

theorem eq_writePort_of_dataWord? {r : Role} {op : Operation} {w : UInt8}
    (h : op.dataWord? r = some w) : op = .writePort r.dataPort w := by
  unfold Operation.dataWord? at h
  split at h
  · split_ifs at h with hport
    cases h
    rw [hport]
  · cases h

instance (r : Role) : DecidablePred (Operation.Initializes r)
  | .writePort port v => inferInstanceAs (Decidable (port = r.commandPort ∧ v &&& 0x10 ≠ 0))
  | .readPort _ | .raise _ | .lower _ | .acknowledge | .request _ | .releaseIrq _ | .releaseLine _
  | .setEnabled .. => isFalse id

def dataWords (r : Role) (ops : List Operation) : List UInt8 :=
  ops.filterMap (Operation.dataWord? r)

/-- What the data port of a chip programs, and how far that is. -/
structure Programming where
  initialization : Initialization
  vectorBase : UInt8
  autoEoi : Bool
  imr : LineSet
  deriving DecidableEq

def Chip.programming (c : Chip) : Programming :=
  ⟨c.initialization, c.vectorBase, c.autoEoi, c.imr⟩

/-- The numbers of the words that follow ICW1: a single chip has no ICW3, and ICW4 is announced. -/
def announced (single fourth : Bool) : List UInt8 :=
  2 :: ((if single then [] else [3]) ++ if fourth then [4] else [])

/-- What words at the data port make of a chip after an ICW1 that found the vector base `base`. -/
def Programming.after (base : UInt8) (single fourth : Bool) (ws : List UInt8) : Programming :=
  let n := (announced single fourth).length
  { initialization :=
      { active := decide (ws.length < n)
        wordsExpected := UInt8.ofNat (n + 1)
        nextWord := (announced single fourth).getD ws.length 0
        single := single
        needsFourth := fourth }
    vectorBase := (ws.head?.map (· &&& 0xF8)).getD base
    -- ICW4 is the last word
    autoEoi := fourth && ws[n - 1]?.any (· &&& 0x02 != 0)
    imr := ((ws.drop n).getLast?.map LineSet.mk).getD .empty }

namespace Controller

variable {c : Controller} {r r' : Role} {base : UInt8} {single fourth : Bool} {ws : List UInt8}

section Frame

theorem service_programming (c : Controller) (r r' : Role) :
    ((c.service r').chip r).programming = (c.chip r).programming := by
  have hlink : ∀ {d e : Chip}, d.AgreesOffLink e → e.programming = d.programming := by
    intro d e h
    rw [h.rest]
    rfl
  cases r' with
  | master =>
    cases r with
    | master => exact hlink (serviceMaster_agrees c)
    | slave => exact congrArg Chip.programming (serviceMaster_slave c)
  | slave =>
    cases r with
    | master => exact hlink (serviceSlave_agrees c)
    | slave =>
      change c.serviceSlave.slave.programming = c.slave.programming
      obtain hs | ⟨l, hs⟩ := c.serviceSlave_slave <;> rw [hs]
      rfl

theorem dropSignal_programming (c : Controller) (r r' : Role) :
    ((c.dropSignal r').chip r).programming = (c.chip r).programming := by
  cases r' <;> cases r <;> rfl

theorem modifyChip_programming {f : Chip → Chip}
    (hf : r = r' → (f (c.chip r)).programming = (c.chip r).programming) :
    ((c.modifyChip r' f).chip r).programming = (c.chip r).programming := by
  by_cases hr : r = r'
  · subst hr
    rw [chip_modifyChip]
    exact hf rfl
  · rw [chip_modifyChip_of_ne c hr]

theorem take_programming (c : Chip) (l : Line) : (c.take l).programming = c.programming := by
  rw [Chip.take_eq]
  rfl

theorem setIrq_programming (c : Controller) (r : Role) (line : UInt8) :
    ((c.setIrq line).chip r).programming = (c.chip r).programming := by
  have hraise : ∀ r' l, c.raise r' l = if (c.chip r').levels.contains l then c
      else (c.modifyChip r' fun chip => chip.raise l).service r' := by
    intro r' l
    cases r' <;> rfl
  unfold setIrq
  split
  · dsimp only
    rw [hraise]
    split
    · rfl
    · rw [service_programming, modifyChip_programming fun _ => rfl]
  · rfl

theorem clearIrq_programming (c : Controller) (r : Role) (line : UInt8) :
    ((c.clearIrq line).chip r).programming = (c.chip r).programming := by
  unfold clearIrq
  split
  · exact modifyChip_programming fun _ => rfl
  · rfl

theorem releaseIrq_programming (c : Controller) (r : Role) (line : UInt8) :
    ((c.releaseIrq line).2.chip r).programming = (c.chip r).programming := by
  have hregistry : ∀ (d : Controller) (g : Registry),
      ({ d with registry := g } : Controller).chip r = d.chip r := by
    intro d g
    cases r <;> rfl
  unfold releaseIrq
  split
  · dsimp only
    rw [hregistry, clearIrq_programming]
  · rfl

theorem acknowledge_programming (c : Controller) (r : Role) :
    (c.acknowledge.2.chip r).programming = (c.chip r).programming := by
  have hover : (c.handOver.chip r).programming = (c.chip r).programming := by
    cases r with
    | master => exact take_programming c.master cascadeLine
    | slave => rfl
  rcases c.master.chosen_or_none with ⟨l, hl⟩ | hn
  · by_cases hc : l = cascadeLine
    · subst hc
      rcases c.slave.chosen_or_none with ⟨k, hk⟩ | hn
      · rw [acknowledge_of_slave_chosen hl hk]
        refine (service_programming _ r .master).trans ((service_programming _ r .slave).trans ?_)
        cases r with
        | master => exact hover
        | slave => exact take_programming c.slave k
      · rw [acknowledge_of_slave_none hl hn]
        cases r with
        | master => exact hover
        | slave => rfl
    · rw [acknowledge_of_chosen hl hc]
      refine (service_programming _ r .master).trans ?_
      cases r with
      | master => exact take_programming c.master l
      | slave => rfl
  · rw [acknowledge_of_none hn]
    cases r <;> rfl

theorem readCommand_programming (c : Controller) (r r' : Role) :
    ((c.readCommand r').2.chip r).programming = (c.chip r).programming := by
  unfold readCommand
  dsimp only
  split_ifs
  · rcases (c.chip r').chosen_or_none with ⟨l, hl⟩ | hn
    · rw [poll_of_chosen hl, service_programming,
        modifyChip_programming fun _ => take_programming _ l, dropSignal_programming]
    · rw [poll_of_none hn, modifyChip_programming fun _ => rfl, dropSignal_programming]
  · rfl
  · rfl

theorem modeCommand_programming (c : Controller) (r r' : Role) (v : UInt8) :
    ((c.modeCommand r' v).chip r).programming = (c.chip r).programming := by
  have hmodes : ((c.modifyChip r' fun chip => chip.setModes v).chip r).programming =
      (c.chip r).programming := by
    refine modifyChip_programming fun _ => ?_
    unfold Chip.setModes
    split <;> rfl
  unfold modeCommand
  dsimp only
  split_ifs
  · rw [modifyChip_programming fun _ => rfl, hmodes]
  · rw [service_programming, modifyChip_programming fun _ => rfl, hmodes]
  · rw [service_programming, hmodes]

theorem serviceCommand_programming (c : Controller) (r r' : Role) (v : UInt8) :
    ((c.serviceCommand r' v).chip r).programming = (c.chip r).programming := by
  have hend : ∀ rotating, ((c.endHighest r' rotating).chip r).programming =
      (c.chip r).programming := by
    intro rotating
    unfold endHighest
    split
    · refine modifyChip_programming fun _ => ?_
      cases rotating <;> rfl
    · rfl
  unfold serviceCommand
  dsimp only
  split_ifs
  · exact modifyChip_programming fun _ => rfl
  · rw [service_programming, hend]
  · split
    · rw [service_programming, modifyChip_programming fun _ => rfl]
    · rw [service_programming, modifyChip_programming fun _ => rfl]
    · rw [service_programming, modifyChip_programming fun _ => rfl]
    · rfl

/-- ICW1 is for its own chip. -/
theorem writeCommand_programming {v : UInt8} (hv : r = r' → v &&& 0x10 = 0) :
    ((c.writeCommand r' v).chip r).programming = (c.chip r).programming := by
  unfold writeCommand
  split_ifs with hi
  · have hne : r ≠ r' := fun hr => by simp [hv hr] at hi
    unfold beginInitialization
    rw [dropSignal_programming, modifyChip_programming fun hr => absurd hr hne]
  · exact modeCommand_programming c r r' v
  · exact serviceCommand_programming c r r' v

theorem writeData_programming_of_ne (hr : r ≠ r') (v : UInt8) :
    ((c.writeData r' v).chip r).programming = (c.chip r).programming := by
  unfold writeData
  split
  · exact modifyChip_programming fun h => absurd h hr
  · rw [service_programming, modifyChip_programming fun h => absurd h hr]

/-- Nothing but its ICW1 and its data port programs a chip. -/
theorem perform_programming {op : Operation} (hi : ¬op.Initializes r)
    (hd : op.dataWord? r = none) :
    ((c.perform op).chip r).programming = (c.chip r).programming := by
  cases op with
  | readPort port =>
    obtain ⟨r', rfl⟩ | ⟨r', rfl⟩ | hport := port_cases port
    · rw [perform_readCommand, readCommand_programming]
    · rw [perform_readData]
    · rw [(hport.2 c).1]
  | writePort port v =>
    obtain ⟨r', rfl⟩ | ⟨r', rfl⟩ | hport := port_cases port
    · rw [perform_writeCommand]
      refine writeCommand_programming fun hr => ?_
      by_contra hv
      exact hi ⟨congrArg Role.commandPort hr.symm, hv⟩
    · rw [perform_writeData]
      refine writeData_programming_of_ne ?_ v
      rintro rfl
      exact absurd ((if_pos rfl).symm.trans hd) (Option.some_ne_none v)
    · rw [(hport.2 c).2 v]
  | raise line => exact setIrq_programming c r line
  | lower line => exact clearIrq_programming c r line
  | acknowledge => exact acknowledge_programming c r
  | request device => cases r <;> rfl
  | releaseIrq line => exact releaseIrq_programming c r line
  | releaseLine line => cases r <;> rfl
  | setEnabled line on => cases r <;> rfl

end Frame

section Sequence

/-- ICW1 leaves of a chip its place, its vector base, its inputs and the line last signalled. -/
theorem beginInitialization_chip (c : Controller) (r : Role) (v : UInt8) :
    (c.beginInitialization r v).chip r =
      { isMaster := (c.chip r).isMaster
        vectorBase := (c.chip r).vectorBase
        levels := (c.chip r).levels
        signalled := (c.chip r).signalled
        imr := .empty
        levelTriggered := v &&& 0x08 != 0
        initialization := ((c.beginInitialization r v).chip r).initialization } := by
  unfold beginInitialization
  rw [chip_dropSignal, chip_modifyChip]
  rfl

theorem beginInitialization_programming (c : Controller) (r : Role) (v : UInt8) :
    ((c.beginInitialization r v).chip r).programming =
      .after (c.chip r).vectorBase (v &&& 0x02 != 0) (v &&& 0x01 != 0) [] := by
  unfold beginInitialization
  rw [chip_dropSignal, chip_modifyChip]
  unfold Chip.programming Chip.beginInitialization
  dsimp only
  cases v &&& 0x02 != 0 <;> cases v &&& 0x01 != 0 <;> rfl

theorem initializationWord_programming {d : Chip} (w : UInt8)
    (h : d.programming = .after base single fourth ws)
    (hactive : ws.length < (announced single fourth).length) :
    (d.initializationWord w).programming = .after base single fourth (ws ++ [w]) := by
  obtain ⟨hinit, hbase, hauto, himr⟩ := Programming.mk.inj h
  unfold Chip.initializationWord Chip.awaitWord Chip.programming
  simp only [hinit, hbase, hauto, himr]
  rcases ws with _ | ⟨w2, _ | ⟨w3, _ | ⟨w4, rest⟩⟩⟩
  · cases single <;> cases fourth <;> rfl
  · cases single <;> cases fourth <;> first | rfl | simp [announced] at hactive
  · cases single <;> cases fourth <;> first | rfl | simp [announced] at hactive
  · have hmax : (announced single fourth).length ≤ 3 := by
      cases single <;> cases fourth <;> decide
    simp only [List.length_cons] at hactive
    omega

theorem after_concat (hlen : (announced single fourth).length ≤ ws.length) (w : UInt8) :
    Programming.after base single fourth (ws ++ [w]) =
      { Programming.after base single fourth ws with imr := ⟨w⟩ } := by
  have hpos : 0 < (announced single fourth).length := Nat.succ_pos _
  have hhead : (ws ++ [w]).head? = ws.head? := by
    cases ws with
    | nil => exact absurd hlen (Nat.not_le.2 hpos)
    | cons x rest => rfl
  have hlast : (ws ++ [w])[(announced single fourth).length - 1]? =
      ws[(announced single fourth).length - 1]? :=
    List.getElem?_append_left (by omega)
  have hdrop : (ws ++ [w]).drop (announced single fourth).length =
      ws.drop (announced single fourth).length ++ [w] :=
    List.drop_append_of_le_length hlen
  have hnext : ∀ k, (announced single fourth).length ≤ k →
      (announced single fourth).getD k 0 = 0 := by
    intro k hk
    rw [List.getD_eq_getElem?_getD, List.getElem?_eq_none hk, Option.getD_none]
  unfold Programming.after
  dsimp only
  rw [hhead, hlast, hdrop, List.getLast?_concat, hnext _ hlen, hnext _ (by simp; omega)]
  simp
  omega

theorem writeData_programming (h : (c.chip r).programming = .after base single fourth ws)
    (w : UInt8) :
    ((c.writeData r w).chip r).programming = .after base single fourth (ws ++ [w]) := by
  have hactive : (c.chip r).initialization.active =
      decide (ws.length < (announced single fourth).length) :=
    congrArg (fun p : Programming => p.initialization.active) h
  unfold writeData
  rw [hactive]
  split_ifs with hlt
  · rw [chip_modifyChip]
    exact initializationWord_programming w h (of_decide_eq_true hlt)
  · have hlen : (announced single fourth).length ≤ ws.length := by simpa using hlt
    rw [service_programming, chip_modifyChip, after_concat hlen, ← h]
    rfl

theorem performAll_programming (h : (c.chip r).programming = .after base single fourth ws)
    {ops : List Operation} (hops : ∀ op ∈ ops, ¬op.Initializes r) :
    ((c.performAll ops).chip r).programming =
      .after base single fourth (ws ++ dataWords r ops) := by
  induction ops generalizing c ws with
  | nil =>
    rw [dataWords, List.filterMap_nil, List.append_nil]
    exact h
  | cons op ops ih =>
    have hop := hops op List.mem_cons_self
    have hrest : ∀ op' ∈ ops, ¬op'.Initializes r := fun op' hop' =>
      hops op' (List.mem_cons_of_mem op hop')
    rw [performAll_cons, dataWords, List.filterMap_cons]
    cases hw : op.dataWord? r with
    | none => exact ih ((perform_programming hop hw).trans h) hrest
    | some w =>
      have hwrite := eq_writePort_of_dataWord? hw
      have hstep := ih (writeData_programming h w) hrest
      rw [hwrite, perform_writeData, hstep, List.append_assoc]
      rfl

theorem announced_length (single fourth : Bool) :
    (announced single fourth).length = 1 + (!single).toNat + fourth.toNat := by
  cases single <;> cases fourth <;> rfl

/-- After an ICW1, in whatever state it comes, the words at the data port program the chip as
announced, one after the other, and the mask stays empty until the first word behind them. -/
theorem initialization_sequence (c : Controller) (r : Role) {v : UInt8} (hv : v &&& 0x10 ≠ 0)
    {ops : List Operation} (hops : ∀ op ∈ ops, ¬op.Initializes r) :
    let begun := c.perform (.writePort r.commandPort v)
    let chip := (begun.performAll ops).chip r
    let ws := dataWords r ops
    let n := 1 + (v &&& 0x02 == 0).toNat + (v &&& 0x01 != 0).toNat
    begun.chip r =
      { isMaster := (c.chip r).isMaster
        vectorBase := (c.chip r).vectorBase
        levels := (c.chip r).levels
        signalled := (c.chip r).signalled
        imr := .empty
        levelTriggered := v &&& 0x08 != 0
        initialization := (begun.chip r).initialization } ∧
    (announced (v &&& 0x02 != 0) (v &&& 0x01 != 0)).length = n ∧
    chip.programming =
      .after (c.chip r).vectorBase (v &&& 0x02 != 0) (v &&& 0x01 != 0) ws ∧
    (ws.length ≤ n → chip.imr = .empty) ∧
    ∀ m, (ws.drop n).getLast? = some m → chip.imr = ⟨m⟩ := by
  intro begun chip ws n
  have hbegin : begun = c.beginInitialization r v := by
    have hi : (v &&& 0x10 != 0) = true := bne_iff_ne.2 hv
    change c.perform _ = _
    rw [perform_writeCommand, writeCommand, if_pos hi]
  have hstart : (begun.chip r).programming =
      .after (c.chip r).vectorBase (v &&& 0x02 != 0) (v &&& 0x01 != 0) [] := by
    rw [hbegin]
    exact beginInitialization_programming c r v
  have hn : (announced (v &&& 0x02 != 0) (v &&& 0x01 != 0)).length = n := by
    rw [announced_length, bne, Bool.not_not]
  have hprogram := performAll_programming hstart hops
  -- behind the announced words each one is a mask, and the last stays
  have himr : chip.imr = ((ws.drop n).getLast?.map LineSet.mk).getD .empty := by
    rw [← hn]
    exact congrArg Programming.imr hprogram
  refine ⟨?_, hn, hprogram, fun hle => ?_, fun m hm => ?_⟩
  · rw [hbegin]
    exact beginInitialization_chip c r v
  · rw [himr, List.drop_eq_nil_of_le hle]
    rfl
  · rw [himr, hm]
    rfl

/-- A single chip without ICW4 takes one word, and the next one is the mask, while the other chip is
initialized and a line rises in between. -/
theorem initialization_sequence_single :
    let ops : List Operation := [.writePort 0x20 0x11, .writePort 0xA1 0x4F, .raise 4,
      .writePort 0x21 0x20, .acknowledge, .writePort 0xA0 0x20, .writePort 0xA1 0x55, .readPort 0xA0]
    let chip := ((initial.perform (.writePort Role.slave.commandPort 0x12)).performAll ops).chip .slave
    chip.vectorBase = 0x48 ∧ chip.initialization.active = false ∧ chip.imr = ⟨0x55⟩ := by
  intro ops chip
  obtain ⟨-, -, hprogram, -, himr⟩ := initialization_sequence initial .slave
    (by decide : (0x12 : UInt8) &&& 0x10 ≠ 0) (by decide : ∀ op ∈ ops, ¬op.Initializes .slave)
  exact ⟨congrArg Programming.vectorBase hprogram,
    congrArg (fun p => p.initialization.active) hprogram, himr 0x55 rfl⟩

end Sequence

end Controller

end Pc8086.Interrupt

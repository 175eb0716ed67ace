import ISearch.Replication.Defs
import ISearch.Lib.Run

/-!
# The replication state over restarts

The state and the end key of an exchange are kept in the meta column family. `startMasterListener`
sets the state to `noOpr`, which the matrix allows in no state but `noOpr`; nothing leads out of
`finished`; and the finish handler deletes the entry whose name is the end key instead of the entry
that holds it. `allowed_iff` says for each event when it does what it is for.
-/

namespace ISearch.Replication

/-- A process with any number of slave channels, each with its start key and end key. -/
structure Host where
  db : Db
  column : Meta
  channels : Nat → Option (Bytes × Bytes)

inductive Event where
  | start
  | trigger (id : Nat)
  | receive (id : Nat) (packet : Option Packet)
  | restart

inductive Report where
  | started (ok : Bool)
  | triggered (packet : Packet) (ok : Bool)
  | handled (stored : Bool) (outcome : Outcome)
  | quiet

namespace Host

variable (full : List (Bytes × Bytes) → Bool) (h : Host)

/-- The process as the handlers of a channel see it. -/
def process (channel : Bytes × Bytes) : Process where
  db := h.db
  column := h.column
  replStartKey := channel.1
  replEndKey := channel.2

/-- The host after a handler; a channel goes on only after a reply. -/
def after (id : Nat) (p : Process) (alive : Bool) : Host where
  db := p.db
  column := p.column
  channels := Function.update h.channels id
    (if alive then some (p.replStartKey, p.replEndKey) else none)

def alive : Outcome → Bool
  | .reply _ => true
  | _ => false

def step : Event → Host × Report
  | .start =>
    match (h.process ([], [])).startMasterListener with
    | none => (h, .started false)
    | some p => ({ h with column := p.column }, .started true)
  | .trigger id =>
    let (packet, p, ok) := (h.process ([], [])).triggerReplication
    (h.after id p true, .triggered packet ok)
  | .receive id packet =>
    match h.channels id with
    | none => (h, .quiet)
    | some channel =>
      let (p, stored, outcome) := (h.process channel).handleReplication full packet
      (h.after id p (alive outcome), .handled stored outcome)
  | .restart => ({ h with channels := fun _ => none }, .quiet)

/-- What an event is for: a start succeeds; a new exchange begins at the last key of the database
and has no end key yet; a slave that has stored the last batch is finished and has forgotten its end
key; an exchange that fails is marked so. -/
def Effective (e : Event) : Prop :=
  match (h.step full e).2 with
  | .started ok => ok = true
  | .triggered packet ok => ok = true ∧
    packet = (h.process (getLastEntry h.db [], [])).slaveConstructRequest .sync
  | .handled _ .abort => False
  | .handled true _ =>
    (h.step full e).1.column.state = some .finished ∧ (h.step full e).1.column.endKey = none
  | .handled false .error => (h.step full e).1.column.state = some .failed
  | _ => True

end Host

/-! ## When an event is effective -/

namespace Process

variable (full : List (Bytes × Bytes) → Bool) (p : Process)

/-- The process once the last batch of a packet is stored. -/
def lastBatch (packet : Packet) : Option Process :=
  if getRequestType packet.packetFlag = some .fin then
    match p.takeEndKey packet with
    | .error _ => none
    | .ok (p, strs) => p.slaveFillRangeKV strs
  else none

/-- A packet that no handler accepts. -/
def Refuses (packet : Packet) : Prop :=
  match getRequestType packet.packetFlag with
  | some .sync => handleReplicationRegister full p.db packet = none
  | some .reqAck => handleReplicationRequest full p.db packet = none
  | some .repAck | some .fin =>
    match p.takeEndKey packet with
    | .error (_, outcome) => outcome = .error
    | .ok (p, strs) => p.slaveFillRangeKV strs = none
  | none => True

/-- A packet of the master whose end key is empty. -/
def Aborts (packet : Packet) : Prop :=
  match getRequestType packet.packetFlag with
  | some .repAck | some .fin => hasEndKey packet.packetFlag = true ∧ packet.strs.head? = some []
  | _ => False

/-- The state allows what the packet leads to. The last batch can be stored with effect only when
the end key is the name of its own entry. -/
def Allows : Option Packet → Prop
  | none => p.column.getReplicationState ≠ .finished
  | some packet =>
    match p.lastBatch packet with
    | some p' => p'.replEndKey ≠ [] ∧ p'.replEndKey ≠ replicationStateKey ∧
      (p'.replEndKey = replicationEndKey ∨ p'.column.endKey = none) ∧
      gReplicationState p.column.getReplicationState .finished = true
    | none => (p.Refuses full packet → p.column.getReplicationState ≠ .finished) ∧ ¬ Aborts packet

end Process

/-- The condition on the state before an event. -/
def Host.Allows (full : List (Bytes × Bytes) → Bool) (h : Host) : Event → Prop
  | .start => h.column.getReplicationState = .noOpr
  | .trigger _ => h.column.endKey.getD [] = [] ∧
    gReplicationState h.column.getReplicationState .registry = true
  | .receive id packet => ∀ channel, h.channels id = some channel →
    (h.process channel).Allows full packet
  | .restart => True

theorem updateReplicationState_isSome (m : Meta) (state : ReplicationState) :
    (m.updateReplicationState state).isSome = gReplicationState m.getReplicationState state := by
  unfold Meta.updateReplicationState
  split
  next h => rw [h]; rfl
  next h => rw [Bool.not_eq_true] at h; rw [h]; rfl

theorem updateReplicationState_eq_some {m m' : Meta} {state : ReplicationState}
    (h : m.updateReplicationState state = some m') : m' = { m with state := some state } := by
  unfold Meta.updateReplicationState at h
  split at h
  · cases h
    rfl
  · cases h

theorem gReplicationState_noOpr {state : ReplicationState} :
    gReplicationState state .noOpr = true ↔ state = .noOpr := by
  cases state <;> decide

theorem gReplicationState_failed {state : ReplicationState} :
    gReplicationState state .failed = true ↔ state ≠ .finished := by
  cases state <;> decide

namespace Process

variable {full : List (Bytes × Bytes) → Bool} {p p' : Process} {packet : Packet}

theorem takeEndKey_ok {strs : List Bytes} (h : p.takeEndKey packet = .ok (p', strs)) :
    p'.column.state = p.column.state ∧
      ¬ (hasEndKey packet.packetFlag = true ∧ packet.strs.head? = some []) := by
  unfold takeEndKey at h
  split at h
  · split at h
    · cases h
    · cases h
    next endKey strs hne hstrs =>
      split at h
      · cases h
      next column hinsert =>
        cases h
        rw [hstrs]
        refine ⟨?_, fun hhead => hne (Option.some.inj hhead.2)⟩
        unfold Meta.insertEndKey at hinsert
        split at hinsert
        · cases hinsert
          rfl
        · cases hinsert
  next hflag =>
    cases h
    exact ⟨rfl, fun hhead => hflag hhead.1⟩

theorem takeEndKey_error {outcome : Outcome} (h : p.takeEndKey packet = .error (p', outcome)) :
    p' = p ∧ (outcome = .abort ↔
      hasEndKey packet.packetFlag = true ∧ packet.strs.head? = some []) := by
  unfold takeEndKey at h
  split at h
  next hflag =>
    split at h
    next hstrs =>
      cases h
      simp [hstrs]
    next hstrs =>
      cases h
      simp [hstrs, hflag]
    next endKey strs hne hstrs =>
      split at h
      · cases h
        have hnil : endKey ≠ [] := hne
        simp [hstrs, hnil]
      · cases h
  · cases h

theorem column_slaveFillRangeKV {strs : List Bytes} (h : p.slaveFillRangeKV strs = some p') :
    p'.column = p.column := by
  unfold slaveFillRangeKV at h
  obtain ⟨rows, -, heq⟩ := Option.bind_eq_some_iff.mp h
  cases heq
  rfl

/-- A handler that fails and leaves the state alone. -/
theorem handlerEnd_error (hstate : p'.column.state = p.column.state) :
    (handlerEnd (p', false, .error)).2 = (false, .error) ∧
      ((handlerEnd (p', false, .error)).1.column.state = some .failed ↔
        p.column.getReplicationState ≠ .finished) := by
  have hget : p'.column.getReplicationState = p.column.getReplicationState := by
    rw [Meta.getReplicationState, hstate]
    rfl
  have hsome := updateReplicationState_isSome p'.column .failed
  rw [hget] at hsome
  cases hupdate : p'.column.updateReplicationState .failed with
  | none =>
    rw [hupdate] at hsome
    have hend : handlerEnd (p', false, .error) = (p', false, .error) := by
      simp only [handlerEnd, hupdate]
    rw [hend]
    refine ⟨rfl, ?_⟩
    have hfinished : p.column.getReplicationState = .finished := by
      by_contra hne
      rw [gReplicationState_failed.mpr hne] at hsome
      cases hsome
    constructor
    · intro hfailed
      dsimp only at hfailed
      rw [Meta.getReplicationState, ← hstate, hfailed] at hfinished
      cases hfinished
    · intro hne
      exact absurd hfinished hne
  | some column =>
    rw [hupdate] at hsome
    have hend : handlerEnd (p', false, .error) = ({ p' with column }, false, .error) := by
      simp only [handlerEnd, hupdate]
    rw [hend, updateReplicationState_eq_some hupdate]
    exact ⟨rfl, fun _ => gReplicationState_failed.mp hsome.symm, fun _ => rfl⟩

theorem handlePacket_of_lastBatch (full : List (Bytes × Bytes) → Bool)
    (h : p.lastBatch packet = some p') :
    p'.column.state = p.column.state ∧ p.handlePacket full packet =
      if p'.replEndKey = [] then (p', true, .abort)
      else
        let p := { p' with column := p'.column.deleteEntry p'.replEndKey }
        match p.column.updateReplicationState .finished with
        | none => (p, true, .error)
        | some column => ({ p with column }, true, .closed) := by
  unfold lastBatch at h
  split at h
  next hfin =>
    split at h
    · cases h
    next p₁ strs htake =>
      refine ⟨?_, ?_⟩
      · rw [column_slaveFillRangeKV h, (takeEndKey_ok htake).1]
      · rw [handlePacket, hfin]
        dsimp only
        rw [handleReplicationFinished, htake]
        dsimp only
        rw [h] <;> rfl
  · cases h

/-- Without a last batch the handler refuses the packet, dies of it or does not fail. -/
theorem handlePacket_of_none (full : List (Bytes × Bytes) → Bool) (h : p.lastBatch packet = none) :
    (p.Refuses full packet → ¬ Aborts packet ∧ ∃ p', p'.column.state = p.column.state ∧
        p.handlePacket full packet = (p', false, .error)) ∧
      (¬ p.Refuses full packet → ∃ p' outcome, outcome ≠ .error ∧
        (outcome = .abort ↔ Aborts packet) ∧
        p.handlePacket full packet = (p', false, outcome)) := by
  unfold Refuses Aborts handlePacket
  unfold lastBatch at h
  cases htype : getRequestType packet.packetFlag with
  | none => exact ⟨fun _ => ⟨id, p, rfl, rfl⟩, fun hne => absurd trivial hne⟩
  | some type =>
    rw [htype] at h
    cases type with
    | sync =>
      dsimp only
      cases handleReplicationRegister full p.db packet with
      | none => exact ⟨fun _ => ⟨id, p, rfl, rfl⟩, fun hne => absurd rfl hne⟩
      | some reply =>
        exact ⟨nofun, fun _ => ⟨p, .reply reply, Outcome.noConfusion, ⟨nofun, nofun⟩, rfl⟩⟩
    | reqAck =>
      dsimp only
      cases handleReplicationRequest full p.db packet with
      | none => exact ⟨fun _ => ⟨id, p, rfl, rfl⟩, fun hne => absurd rfl hne⟩
      | some reply =>
        exact ⟨nofun, fun _ => ⟨p, .reply reply, Outcome.noConfusion, ⟨nofun, nofun⟩, rfl⟩⟩
    | repAck =>
      dsimp only
      unfold handleReplicationResponse
      cases htake : p.takeEndKey packet with
      | error r =>
        obtain ⟨p', outcome⟩ := r
        obtain ⟨rfl, habort⟩ := takeEndKey_error htake
        dsimp only
        refine ⟨?_, fun hne => ⟨p', outcome, hne, habort, rfl⟩⟩
        rintro rfl
        exact ⟨fun hempty => Outcome.noConfusion (habort.mpr hempty), p', rfl, rfl⟩
      | ok r =>
        obtain ⟨p', strs⟩ := r
        obtain ⟨hstate, hkey⟩ := takeEndKey_ok htake
        dsimp only
        cases p'.slaveFillRangeKV strs with
        | none => exact ⟨fun _ => ⟨hkey, p', hstate, rfl⟩, fun hne => absurd rfl hne⟩
        | some p'' =>
          exact ⟨nofun, fun _ => ⟨p'', .reply _, Outcome.noConfusion,
            ⟨nofun, fun hempty => absurd hempty hkey⟩, rfl⟩⟩
    | fin =>
      rw [if_pos rfl] at h
      dsimp only
      unfold handleReplicationFinished
      cases htake : p.takeEndKey packet with
      | error r =>
        obtain ⟨p', outcome⟩ := r
        obtain ⟨rfl, habort⟩ := takeEndKey_error htake
        dsimp only
        refine ⟨?_, fun hne => ⟨p', outcome, hne, habort, rfl⟩⟩
        rintro rfl
        exact ⟨fun hempty => Outcome.noConfusion (habort.mpr hempty), p', rfl, rfl⟩
      | ok r =>
        obtain ⟨p', strs⟩ := r
        obtain ⟨hstate, hkey⟩ := takeEndKey_ok htake
        rw [htake] at h
        dsimp only at h ⊢
        rw [h]
        exact ⟨fun _ => ⟨hkey, p', hstate, rfl⟩, fun hne => absurd rfl hne⟩

/-- What a handled packet is for. -/
def Handled (r : Process × Bool × Outcome) : Prop :=
  match r with
  | (_, _, .abort) => False
  | (p, true, _) => p.column.state = some .finished ∧ p.column.endKey = none
  | (p, false, .error) => p.column.state = some .failed
  | _ => True

theorem handled_handlerEnd_error (hstate : p'.column.state = p.column.state) :
    Handled (handlerEnd (p', false, .error)) ↔ p.column.getReplicationState ≠ .finished := by
  obtain ⟨hend, hiff⟩ := handlerEnd_error hstate
  rw [← hiff]
  generalize handlerEnd (p', false, .error) = r at hend
  obtain ⟨p₁, stored, outcome⟩ := r
  cases hend
  exact Iff.rfl

/-- A batch that is stored without effect on the state ends in `failed`. -/
theorem not_handled_error (h : p.column.getReplicationState ≠ .finished) :
    ¬ Handled (handlerEnd (p, true, .error)) := by
  have hsome := updateReplicationState_isSome p.column .failed
  rw [gReplicationState_failed.mpr h] at hsome
  obtain ⟨column, hupdate⟩ := Option.isSome_iff_exists.mp hsome
  have hend : handlerEnd (p, true, .error) = ({ p with column }, true, .error) := by
    simp only [handlerEnd, hupdate]
  rw [hend]
  rintro ⟨hstate, -⟩
  dsimp only at hstate
  rw [updateReplicationState_eq_some hupdate] at hstate
  cases hstate

/-- The last batch is stored. -/
theorem handled_of_lastBatch (h : p.lastBatch packet = some p') :
    Handled (handlerEnd (p.handlePacket full packet)) ↔
      p'.replEndKey ≠ [] ∧ p'.replEndKey ≠ replicationStateKey ∧
      (p'.replEndKey = replicationEndKey ∨ p'.column.endKey = none) ∧
      gReplicationState p.column.getReplicationState .finished = true := by
  obtain ⟨hstate, heq⟩ := handlePacket_of_lastBatch full h
  rw [heq]
  by_cases hnil : p'.replEndKey = []
  · rw [if_pos hnil]
    exact ⟨fun hfalse => hfalse.elim, fun hallows => absurd hnil hallows.1⟩
  rw [if_neg hnil]
  dsimp only
  have hsome := updateReplicationState_isSome (p'.column.deleteEntry p'.replEndKey) .finished
  by_cases hkey : p'.replEndKey = replicationStateKey
  · -- the state itself is deleted, and `finished` cannot follow
    have hdeleted : (p'.column.deleteEntry p'.replEndKey).getReplicationState = .noOpr := by
      simp [Meta.getReplicationState, Meta.deleteEntry, hkey]
    rw [hdeleted] at hsome
    refine ⟨fun hhandled => absurd hhandled ?_, fun hallows => absurd hkey hallows.2.1⟩
    have hnone : (p'.column.deleteEntry p'.replEndKey).updateReplicationState .finished = none :=
      Option.not_isSome_iff_eq_none.mp (by rw [hsome]; decide)
    rw [hnone]
    exact not_handled_error (by rw [hdeleted]; decide)
  · have hdeleted : (p'.column.deleteEntry p'.replEndKey).getReplicationState =
        p.column.getReplicationState := by
      simp only [Meta.getReplicationState, Meta.deleteEntry, hkey, if_false, hstate]
    rw [hdeleted] at hsome
    cases hupdate : (p'.column.deleteEntry p'.replEndKey).updateReplicationState .finished with
    | none =>
      rw [hupdate] at hsome
      refine ⟨fun hhandled => absurd hhandled ?_, fun hallows => ?_⟩
      · apply not_handled_error
        rintro hfinished
        rw [← hdeleted, hfinished] at hsome
        cases hsome
      · rw [hallows.2.2.2] at hsome
        cases hsome
    | some column =>
      rw [hupdate] at hsome
      have hcolumn := updateReplicationState_eq_some hupdate
      have hend : column.endKey = none ↔
          p'.replEndKey = replicationEndKey ∨ p'.column.endKey = none := by
        rw [hcolumn]
        by_cases hname : p'.replEndKey = replicationEndKey
        · simp [Meta.deleteEntry, hname]
        · simp [Meta.deleteEntry, hname]
      constructor
      · rintro ⟨-, hnone⟩
        exact ⟨hnil, hkey, hend.mp hnone, hsome.symm⟩
      · intro hallows
        exact ⟨congrArg Meta.state hcolumn, hend.mpr hallows.2.2.1⟩

theorem handled_iff (packet : Option Packet) :
    Handled (p.handleReplication full packet) ↔ p.Allows full packet := by
  cases packet with
  | none => exact handled_handlerEnd_error rfl
  | some packet =>
    rw [handleReplication, Allows]
    cases hlast : p.lastBatch packet with
    | some p' => exact handled_of_lastBatch hlast
    | none =>
      obtain ⟨hrefuses, haccepts⟩ := handlePacket_of_none full hlast
      by_cases href : p.Refuses full packet
      · obtain ⟨habort, p', hstate, heq⟩ := hrefuses href
        rw [heq, handled_handlerEnd_error hstate, forall_prop_of_true href, and_iff_left habort]
      · obtain ⟨p', outcome, hne, habort, heq⟩ := haccepts href
        rw [heq, and_iff_right (fun hr => absurd hr href), ← habort]
        cases outcome with
        | error => exact absurd rfl hne
        | abort => exact ⟨fun hfalse => hfalse.elim, fun hnot => absurd rfl hnot⟩
        | reply packet => exact ⟨fun _ h => (by cases h), fun _ => trivial⟩
        | closed => exact ⟨fun _ h => (by cases h), fun _ => trivial⟩

end Process

namespace Host

variable {full : List (Bytes × Bytes) → Bool} {h : Host}

theorem effective_start : h.Effective full .start ↔ h.Allows full .start := by
  have hsome := updateReplicationState_isSome h.column .noOpr
  have hiff : h.Allows full .start ↔ (h.column.updateReplicationState .noOpr).isSome = true := by
    rw [hsome, gReplicationState_noOpr]
    rfl
  rw [hiff]
  unfold Effective step Process.startMasterListener
  have hcolumn : (h.process ([], [])).column = h.column := rfl
  rw [hcolumn]
  cases h.column.updateReplicationState .noOpr with
  | none => exact Iff.rfl
  | some column => exact ⟨fun _ => rfl, fun _ => rfl⟩

/-- A request carries an end key exactly when there is one. -/
theorem slaveConstructRequest_inj {start end₁ end₂ : Bytes} (h₁ h₂ : Process)
    (hs₁ : h₁.replStartKey = start) (hs₂ : h₂.replStartKey = start) (he₁ : h₁.replEndKey = end₁)
    (he₂ : h₂.replEndKey = end₂)
    (heq : h₁.slaveConstructRequest .sync = h₂.slaveConstructRequest .sync) : end₁ = end₂ := by
  have hstrs := congrArg Packet.strs heq
  unfold Process.slaveConstructRequest at hstrs
  rw [hs₁, hs₂, he₁, he₂] at hstrs
  have htail := List.append_cancel_left hstrs
  by_cases h₁ : end₁ = []
  · by_cases h₂ : end₂ = []
    · rw [h₁, h₂]
    · simp [h₁, h₂] at htail
  · by_cases h₂ : end₂ = []
    · simp [h₁, h₂] at htail
    · simpa [h₁, h₂] using htail

theorem effective_trigger (id : Nat) :
    h.Effective full (.trigger id) ↔ h.Allows full (.trigger id) := by
  have hsome := updateReplicationState_isSome h.column .registry
  let p : Process := { h.process ([], []) with
    replStartKey := getLastEntry h.db []
    replEndKey := h.column.endKey.getD [] }
  have hpacket : p.slaveConstructRequest .sync =
      (h.process (getLastEntry h.db [], [])).slaveConstructRequest .sync ↔
        h.column.endKey.getD [] = [] := by
    constructor
    · exact slaveConstructRequest_inj _ _ rfl rfl rfl rfl
    · intro hend
      have hp : p = h.process (getLastEntry h.db [], []) := by
        simp only [p, hend]
        rfl
      rw [hp]
  have hallows : h.Allows full (.trigger id) ↔ h.column.endKey.getD [] = [] ∧
      (h.column.updateReplicationState .registry).isSome = true := by
    rw [hsome]
    rfl
  rw [hallows, ← hpacket, and_comm]
  have hcolumn : p.column = h.column := rfl
  have htrigger : (h.process ([], [])).triggerReplication =
      match h.column.updateReplicationState .registry with
      | none => (p.slaveConstructRequest .sync, p, false)
      | some column => (p.slaveConstructRequest .sync, { p with column }, true) := rfl
  unfold Effective step
  rw [htrigger]
  cases h.column.updateReplicationState .registry with
  | none => exact Iff.rfl
  | some column => exact Iff.rfl

theorem effective_receive (id : Nat) (packet : Option Packet) :
    h.Effective full (.receive id packet) ↔ h.Allows full (.receive id packet) := by
  rw [Allows]
  cases hchannel : h.channels id with
  | none =>
    have hstep : h.step full (.receive id packet) = (h, .quiet) := by simp only [step, hchannel]
    rw [Effective, hstep]
    exact ⟨fun _ channel hsome => absurd hsome (Option.some_ne_none channel).symm, fun _ => trivial⟩
  | some channel =>
    have hforall : (∀ channel', some channel = some channel' →
        (h.process channel').Allows full packet) ↔ (h.process channel).Allows full packet := by
      constructor
      · exact fun hall => hall channel rfl
      · rintro hallows channel' ⟨⟩
        exact hallows
    rw [hforall, ← Process.handled_iff]
    obtain ⟨⟨p, stored, outcome⟩, hr⟩ : ∃ r,
      (h.process channel).handleReplication full packet = r :=
      ⟨_, rfl⟩
    have hstep : h.step full (.receive id packet) =
        (h.after id p (alive outcome), .handled stored outcome) := by
      simp only [step, hchannel, hr]
    rw [Effective, hstep, hr]
    cases stored with
    | true => cases outcome <;> exact Iff.rfl
    | false => cases outcome <;> exact Iff.rfl

theorem effective_iff (e : Event) : h.Effective full e ↔ h.Allows full e := by
  cases e with
  | start => exact effective_start
  | trigger id => exact effective_trigger id
  | receive id packet => exact effective_receive id packet
  | restart => exact ⟨fun _ => trivial, fun _ => trivial⟩

/-- In every run every event is effective exactly when the state before it allows it. -/
theorem run_effective_iff (full : List (Bytes × Bytes) → Bool) (db : Db) (events : List Event) :
    AlongRun (fun h e => some (step full h e).1) (Effective full)
        { db, column := {}, channels := fun _ => none } events ↔
      AlongRun (fun h e => some (step full h e).1) (Allows full)
        { db, column := {}, channels := fun _ => none } events :=
  alongRun_congr (fun _ _ => effective_iff _) _ events

/-- After an exchange that failed the process does not start again. -/
theorem start_fails_after_failure :
    ¬ AlongRun (fun h e => some (step (fun _ => false) h e).1) (Effective fun _ => false)
      { db := .empty, column := {}, channels := fun _ => none }
      [.start, .trigger 0, .receive 0 none, .restart, .start] := by
  rintro ⟨-, hrest⟩
  obtain ⟨-, hrest⟩ := hrest _ rfl
  obtain ⟨-, hrest⟩ := hrest _ rfl
  obtain ⟨-, hrest⟩ := hrest _ rfl
  obtain ⟨hstart, -⟩ := hrest _ rfl
  exact Bool.false_ne_true hstart

end Host

end ISearch.Replication

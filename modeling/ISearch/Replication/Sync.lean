import ISearch.Replication.Defs

/-!
# Full synchronisation

One message is in flight at a time. A master builds its answer on the flag word of the request, and
the kinds are combined with a bitwise or, so every answer to a request after the registration has
the kind `fin`: the slave takes the second packet for the last one.
-/

namespace ISearch.Replication

open List

inductive Flight where
  | toMaster (packet : Packet)
  | toSlave (packet : Packet)
  | idle

structure System where
  master : Process
  slave : Process
  flight : Flight
  /-- The number of answers of the master. -/
  answers : Nat
  /-- The slave has taken the finished branch and stored the last batch. -/
  finished : Bool

/-- `full i` says of what the `i`-th answer holds so far whether it has reached the limit. -/
def System.step (full : Nat → List (Bytes × Bytes) → Bool) (σ : System) : System :=
  match σ.flight with
  | .toMaster packet =>
    let (master, _, outcome) := σ.master.handleReplication (full σ.answers) (some packet)
    let flight := match outcome with
      | .reply packet => Flight.toSlave packet
      | _ => .idle
    { σ with master, flight, answers := σ.answers + 1 }
  | .toSlave packet =>
    let (slave, stored, outcome) := σ.slave.handleReplication (full σ.answers) (some packet)
    let flight := match outcome with
      | .reply packet => Flight.toMaster packet
      | _ => .idle
    { σ with slave, flight, finished := σ.finished || stored }
  | .idle => σ

def System.start (master slave : Process) : System :=
  let (packet, slave, _) := slave.triggerReplication
  { master, slave, flight := .toMaster packet, answers := 0, finished := false }

/-- The slave has the entries of the master up to the end key. -/
def Complete (master slave : Process) : Prop :=
  ∀ e ∈ master.db.entries, e.1 ≤ slave.replEndKey → slave.db.get? e.1 = some e.2

section

variable (full : Nat → List (Bytes × Bytes) → Bool) (master slave : Process)

/-- The end key of an exchange: the one stored by the slave, or the last key of the master. -/
def exchangeEndKey : Bytes :=
  match slave.column.endKey with
  | some endKey => endKey
  | none => getLastEntry master.db []

def lastKey (kvRows : List (Bytes × Bytes)) : Bytes := (kvRows.getLast?.map (·.1)).getD []

/-- What the first two answers hold, and whether the range ends with them. -/
def firstBatch : List (Bytes × Bytes) × Bool :=
  fillRange (full 0) (exchangeEndKey master slave) []
    (retrieveStart master.db (getLastEntry slave.db []))

def secondBatch : List (Bytes × Bytes) × Bool :=
  fillRange (full 1) (exchangeEndKey master slave) []
    (retrieveStart master.db (lastKey (firstBatch full master slave).1))

/-- The range fits into two packets, unless the first ends with the empty key, which cannot be asked
for. -/
def FitsTwoPackets : Prop :=
  (firstBatch full master slave).2 = true ∨ lastKey (firstBatch full master slave).1 = [] ∨
    ∀ e ∈ master.db.entries, e.1 ≤ exchangeEndKey master slave →
      e.1 ≤ lastKey (secondBatch full master slave).1

end

/-! ## Filling a packet -/

section Fill

variable {full : List (Bytes × Bytes) → Bool} {endKey : Bytes}

/-- A packet holds the first entries of the range. -/
theorem fillRange_prefix (full : List (Bytes × Bytes) → Bool) (endKey : Bytes)
    (filled rest : List (Bytes × Bytes)) :
    ∃ taken, (fillRange full endKey filled rest).1 = filled ++ taken ∧ taken <+: rest := by
  induction rest generalizing filled with
  | nil => exact ⟨[], (append_nil _).symm, nil_prefix⟩
  | cons e rest ih =>
    unfold fillRange
    dsimp only
    split
    · exact ⟨[e], rfl, prefix_append [e] rest⟩
    split
    · exact ⟨[e], rfl, prefix_append [e] rest⟩
    · obtain ⟨taken, heq, hpre⟩ := ih (filled ++ [e])
      refine ⟨e :: taken, ?_, cons_prefix_cons.mpr ⟨rfl, hpre⟩⟩
      rw [heq, append_assoc]
      rfl

/-- The range ends with the packet when no entry up to the end key is left. -/
theorem fillRange_finished {filled rest : List (Bytes × Bytes)}
    (hsorted : rest.Pairwise fun e e' => e.1 < e'.1)
    (h : (fillRange full endKey filled rest).2 = true) :
    ∀ e ∈ rest, e.1 ≤ endKey → e ∈ (fillRange full endKey filled rest).1 := by
  induction rest generalizing filled with
  | nil => exact fun e he => absurd he not_mem_nil
  | cons e₀ rest ih =>
    obtain ⟨hlt, hrest⟩ := pairwise_cons.mp hsorted
    unfold fillRange at h ⊢
    dsimp only at h ⊢
    intro e he hle
    split at h
    next hend =>
      rw [if_pos hend]
      rcases mem_cons.mp he with rfl | he
      · exact mem_append_right filled (mem_singleton_self _)
      · exact absurd (hlt e he) (not_lt.mpr (hle.trans hend))
    next hend =>
      rw [if_neg hend]
      split at h
      · cases h
      next hfull =>
        rw [if_neg hfull]
        rcases mem_cons.mp he with rfl | he
        · obtain ⟨taken, heq, -⟩ := fillRange_prefix full endKey (filled ++ [e]) rest
          rw [heq]
          exact mem_append_left _ (mem_append_right filled (mem_singleton_self _))
        · exact ih hrest h e he hle

/-- A packet that does not end the range holds at least one entry. -/
theorem fillRange_ne_nil {filled rest : List (Bytes × Bytes)}
    (h : (fillRange full endKey filled rest).2 = false) :
    (fillRange full endKey filled rest).1 ≠ [] := by
  cases rest with
  | nil => cases h
  | cons e rest =>
    unfold fillRange
    dsimp only
    split
    · simp
    split
    · simp
    · obtain ⟨taken, heq, -⟩ := fillRange_prefix full endKey (filled ++ [e]) rest
      rw [heq]
      simp

end Fill

theorem nil_le (k : Bytes) : [] ≤ k := not_lt.mp (not_lt_nil k)

theorem mem_retrieveStart {db : Db} {k : Bytes} {e : Bytes × Bytes} :
    e ∈ retrieveStart db k ↔ e ∈ db.entries ∧ k ≤ e.1 := by
  unfold retrieveStart
  split
  next hk => simp [hk, nil_le]
  next => simp [SortedMap.seek]

theorem sorted_retrieveStart (db : Db) (k : Bytes) :
    (retrieveStart db k).Pairwise fun e e' => e.1 < e'.1 := by
  unfold retrieveStart
  split
  · exact db.sorted
  · exact db.sorted.filter _

theorem lastKey_append_singleton (kvRows : List (Bytes × Bytes)) (e : Bytes × Bytes) :
    lastKey (kvRows ++ [e]) = e.1 := by
  simp [lastKey]

/-- The first entries of a sorted list are those up to the last key among them. -/
theorem mem_prefix_iff {taken rows : List (Bytes × Bytes)}
    (hsorted : rows.Pairwise fun e e' => e.1 < e'.1) (hpre : taken <+: rows) (hne : taken ≠ [])
    (e : Bytes × Bytes) : e ∈ taken ↔ e ∈ rows ∧ e.1 ≤ lastKey taken := by
  obtain ⟨rest, rfl⟩ := hpre
  obtain ⟨init, last, rfl⟩ := (eq_nil_or_concat' taken).resolve_left hne
  rw [lastKey_append_singleton]
  obtain ⟨htaken, -, hrest⟩ := pairwise_append.mp hsorted
  obtain ⟨-, -, hinit⟩ := pairwise_append.mp htaken
  constructor
  · intro he
    refine ⟨mem_append_left rest he, ?_⟩
    rcases mem_append.mp he with he | he
    · exact (hinit e he last (mem_singleton_self last)).le
    · rw [mem_singleton.mp he]
  · rintro ⟨he, hle⟩
    rcases mem_append.mp he with he | he
    · exact he
    · have hlt := hrest last (mem_append_right init (mem_singleton_self last)) e he
      exact absurd hlt (not_lt.mpr hle)

/-- What a packet holds. -/
theorem mem_fillRange {full : List (Bytes × Bytes) → Bool} {endKey k : Bytes} {db : Db}
    (hne : (fillRange full endKey [] (retrieveStart db k)).1 ≠ []) (e : Bytes × Bytes) :
    e ∈ (fillRange full endKey [] (retrieveStart db k)).1 ↔ e ∈ db.entries ∧ k ≤ e.1 ∧
      e.1 ≤ lastKey (fillRange full endKey [] (retrieveStart db k)).1 := by
  obtain ⟨taken, heq, hpre⟩ := fillRange_prefix full endKey [] (retrieveStart db k)
  rw [nil_append] at heq
  rw [heq] at hne ⊢
  rw [mem_prefix_iff (sorted_retrieveStart db k) hpre hne, mem_retrieveStart, and_assoc]

theorem fillRange_subset {full : List (Bytes × Bytes) → Bool} {endKey k : Bytes} {db : Db} :
    ∀ e ∈ (fillRange full endKey [] (retrieveStart db k)).1, e ∈ db.entries := by
  intro e he
  obtain ⟨taken, heq, hpre⟩ := fillRange_prefix full endKey [] (retrieveStart db k)
  rw [heq, nil_append] at he
  exact (mem_retrieveStart.mp (hpre.subset he)).1

section Stored

variable {master slave : Db} {rows : List (Bytes × Bytes)} {e : Bytes × Bytes}

/-- Entries of the master do not overwrite anything but with the value of the master. -/
theorem get?_putAll_of_get? (hrows : ∀ e' ∈ rows, e' ∈ master.entries) (he : e ∈ master.entries)
    (hget : slave.get? e.1 = some e.2) : (slave.putAll rows).get? e.1 = some e.2 := by
  by_cases hmem : e ∈ rows
  · apply SortedMap.get?_putAll_of_mem hmem
    rintro ⟨k', v'⟩ he' rfl
    exact SortedMap.eq_of_mem (hrows _ he') he
  · rw [SortedMap.get?_putAll_of_notMem, hget]
    rintro ⟨k', v'⟩ he' heq
    dsimp only at heq
    subst heq
    have hval : v' = e.2 := SortedMap.eq_of_mem (hrows _ he') he
    subst hval
    exact hmem he'

theorem get?_putAll_of_mem_rows (hrows : ∀ e' ∈ rows, e' ∈ master.entries) (he : e ∈ rows) :
    (slave.putAll rows).get? e.1 = some e.2 := by
  apply SortedMap.get?_putAll_of_mem he
  rintro ⟨k', v'⟩ he' rfl
  exact SortedMap.eq_of_mem (hrows _ he') (hrows e he)

/-- The slave has the entries of the master before its last key. -/
theorem get?_of_lt_last (hpre : slave.entries <+: master.entries) (he : e ∈ master.entries)
    (hlt : ¬ getLastEntry slave [] ≤ e.1) : slave.get? e.1 = some e.2 := by
  unfold getLastEntry at hlt
  cases hlast : slave.entries.getLast? with
  | none =>
    rw [hlast] at hlt
    exact absurd (nil_le e.1) hlt
  | some last =>
    rw [hlast] at hlt
    have hne : slave.entries ≠ [] := by
      rintro hnil
      rw [hnil] at hlast
      cases hlast
    apply SortedMap.get?_eq_some.mpr
    rw [mem_prefix_iff master.sorted hpre hne]
    refine ⟨he, ?_⟩
    rw [lastKey, hlast]
    exact (not_le.mp hlt).le

end Stored

/-! ## Messages -/

/-- The kind and the end-key bit of an answer. -/
theorem setRequestType_register (finished hasEnd : Bool) :
    let flag := setRequestType (if hasEnd then 2 else 0) (if finished then .fin else .repAck)
    getRequestType flag = some (if finished then .fin else .repAck) ∧ hasEndKey flag = hasEnd := by
  cases finished <;> cases hasEnd <;> decide

/-- Whatever the master means to answer to a request, it answers `fin`. -/
theorem setRequestType_request (finished : Bool) :
    let flag := setRequestType 4 (if finished then .fin else .repAck)
    getRequestType flag = some .fin ∧ hasEndKey flag = false := by
  cases finished <;> decide

theorem flag_sync : setRequestType 0 .sync = 0 ∧ getRequestType 0 = some .sync ∧
    hasStartKey 0 = false ∧ clearStartKey 0 = 0 ∧ hasEndKey 0 = false ∧ setEndKey 0 = 2 := by
  decide

theorem flag_sync_end : setEndKey (setRequestType 0 .sync) = 2 ∧ getRequestType 2 = some .sync ∧
    hasStartKey 2 = false ∧ clearStartKey 2 = 2 ∧ hasEndKey 2 = true ∧ clearEndKey 2 = 0 := by
  decide

theorem flag_sync_start : setStartKey (setRequestType 0 .sync) = 1 ∧ getRequestType 1 = some .sync ∧
    hasStartKey 1 = true ∧ clearStartKey 1 = 0 ∧ hasEndKey 0 = false ∧ setEndKey 0 = 2 := by
  decide

theorem flag_sync_start_end : setEndKey (setStartKey (setRequestType 0 .sync)) = 3 ∧
    getRequestType 3 = some .sync ∧ hasStartKey 3 = true ∧ clearStartKey 3 = 2 ∧
    hasEndKey 2 = true ∧ clearEndKey 2 = 0 := by
  decide

theorem flag_reqAck_end : setEndKey (setRequestType 0 .reqAck) = 6 ∧
    getRequestType 6 = some .reqAck ∧ hasStartKey 6 = false := by
  decide

theorem flag_reqAck_start_end : setEndKey (setStartKey (setRequestType 0 .reqAck)) = 7 ∧
    getRequestType 7 = some .reqAck ∧ hasStartKey 7 = true ∧ hasEndKey 7 = true ∧
    clearEndKey (clearStartKey 7) = 4 := by
  decide

theorem takeRows_flatten (kvRows : List (Bytes × Bytes)) :
    Process.takeRows (flatten kvRows) = some kvRows := by
  induction kvRows with
  | nil => rfl
  | cons e kvRows ih =>
    have hcons : flatten (e :: kvRows) = e.1 :: e.2 :: flatten kvRows := rfl
    rw [hcons, Process.takeRows, ih]
    rfl

namespace Process

variable (p : Process) (full : List (Bytes × Bytes) → Bool)

theorem handleReplicationRegister_sync (db : Db) :
    getRequestType (p.slaveConstructRequest .sync).packetFlag = some .sync ∧
      handleReplicationRegister full db (p.slaveConstructRequest .sync) =
        some (masterFillRangeKV full db (if decide (p.replEndKey = []) then 2 else 0)
          p.replStartKey p.replEndKey) := by
  unfold slaveConstructRequest handleReplicationRegister takeStr
  by_cases hstart : p.replStartKey = []
  · by_cases hend : p.replEndKey = []
    · simp [hstart, hend, flag_sync]
    · simp [hstart, hend, flag_sync_end]
  · by_cases hend : p.replEndKey = []
    · simp [hstart, hend, flag_sync_start]
    · simp [hstart, hend, flag_sync_start_end]

theorem handleReplicationRequest_reqAck (db : Db) (hend : p.replEndKey ≠ []) :
    getRequestType (p.slaveConstructRequest .reqAck).packetFlag = some .reqAck ∧
      handleReplicationRequest full db (p.slaveConstructRequest .reqAck) =
        if p.replStartKey = [] then none
        else some (masterFillRangeKV full db 4 p.replStartKey p.replEndKey) := by
  unfold slaveConstructRequest handleReplicationRequest takeStr
  by_cases hstart : p.replStartKey = []
  · simp [hstart, hend, flag_reqAck_end]
  · simp [hstart, hend, flag_reqAck_start_end]

variable {p} {p₁ : Process} {packet : Packet} {rows : List (Bytes × Bytes)}

/-- The slave after a batch. -/
def withBatch (p : Process) (rows : List (Bytes × Bytes)) : Process :=
  { p with db := p.db.putAll rows, replStartKey := lastKey rows }

theorem db_withBatch {db : Db} (h : p.db = db) (rows : List (Bytes × Bytes)) :
    (p.withBatch rows).db = db.putAll rows := by
  rw [withBatch, h]

theorem slaveFillRangeKV_flatten (p : Process) (rows : List (Bytes × Bytes)) :
    p.slaveFillRangeKV (flatten rows) = some (p.withBatch rows) := by
  rw [slaveFillRangeKV, takeRows_flatten]
  rfl

theorem takeEndKey_absent (hhas : hasEndKey packet.packetFlag = false) :
    p.takeEndKey packet = .ok (p, packet.strs) := by
  rw [takeEndKey, if_neg (by rw [hhas]; exact Bool.false_ne_true)]

theorem takeEndKey_present (hhas : hasEndKey packet.packetFlag = true) {endKey : Bytes}
    {strs : List Bytes} (hstrs : packet.strs = endKey :: strs) (hne : endKey ≠ [])
    (hnone : p.column.endKey = none) : p.takeEndKey packet =
      .ok ({ p with column := { p.column with endKey := some endKey }, replEndKey := endKey },
        strs) := by
  have hinsert : p.column.insertEndKey endKey = some { p.column with endKey := some endKey } := by
    rw [Meta.insertEndKey, hnone]
  obtain ⟨c, rest, rfl⟩ := exists_cons_of_ne_nil hne
  rw [takeEndKey, if_pos hhas, hstrs]
  dsimp only
  rw [hinsert]

theorem takeEndKey_empty (hhas : hasEndKey packet.packetFlag = true) {strs : List Bytes}
    (hstrs : packet.strs = [] :: strs) : p.takeEndKey packet = .error (p, .abort) := by
  rw [takeEndKey, if_pos hhas, hstrs]

theorem handleReplication_response (htype : getRequestType packet.packetFlag = some .repAck)
    (htake : p.takeEndKey packet = .ok (p₁, flatten rows)) :
    p.handleReplication full (some packet) = (p₁.withBatch rows, false,
      .reply ((p₁.withBatch rows).slaveConstructRequest .reqAck)) := by
  simp only [handleReplication, handlerEnd, handlePacket, htype, handleReplicationResponse, htake,
    slaveFillRangeKV_flatten]

theorem handleReplication_finished (htype : getRequestType packet.packetFlag = some .fin)
    (htake : p.takeEndKey packet = .ok (p₁, flatten rows)) (hend : p₁.replEndKey ≠ []) :
    ∃ column outcome, p.handleReplication full (some packet) =
      ({ p₁.withBatch rows with column }, true, outcome) ∧
        (outcome = .closed ∨ outcome = .error) := by
  have hend' : ¬ (p₁.withBatch rows).replEndKey = [] := hend
  simp only [handleReplication, handlerEnd, handlePacket, htype, handleReplicationFinished, htake,
    slaveFillRangeKV_flatten, if_neg hend']
  cases ((p₁.withBatch rows).column.deleteEntry
      (p₁.withBatch rows).replEndKey).updateReplicationState .finished with
  | some column => exact ⟨_, _, rfl, .inl rfl⟩
  | none =>
    dsimp only
    split
    · exact ⟨_, _, rfl, .inr rfl⟩
    · exact ⟨_, _, rfl, .inr rfl⟩

theorem handleReplication_abort (htype : getRequestType packet.packetFlag = some .fin)
    (htake : p.takeEndKey packet = .error (p, .abort)) :
    p.handleReplication full (some packet) = (p, false, .abort) := by
  simp only [handleReplication, handlerEnd, handlePacket, htype, handleReplicationFinished, htake]

theorem handleReplication_answer {reply : Option Packet} {type : ReplicationType}
    (htype : getRequestType packet.packetFlag = some type)
    (hanswer : (type = .sync ∧ handleReplicationRegister full p.db packet = reply) ∨
      type = .reqAck ∧ handleReplicationRequest full p.db packet = reply) :
    (∀ r, reply = some r → p.handleReplication full (some packet) = (p, false, .reply r)) ∧
      (reply = none → ∃ p', p.handleReplication full (some packet) = (p', false, .error)) := by
  have hpacket : p.handlePacket full packet = p.answer reply := by
    rcases hanswer with ⟨rfl, h⟩ | ⟨rfl, h⟩
    · simp only [handlePacket, htype, h]
    · simp only [handlePacket, htype, h]
  constructor
  · rintro r rfl
    simp only [handleReplication, handlerEnd, hpacket, answer]
  · rintro rfl
    simp only [handleReplication, handlerEnd, hpacket, answer]
    split
    · exact ⟨_, rfl⟩
    · exact ⟨_, rfl⟩

end Process

theorem masterFillRangeKV_of_ne {full : List (Bytes × Bytes) → Bool} {db : Db} {flag : UInt32}
    {startKey endKey : Bytes} (h : endKey ≠ []) :
    masterFillRangeKV full db flag startKey endKey =
      { packetFlag := setRequestType flag
          (if (fillRange full endKey [] (retrieveStart db startKey)).2 then .fin else .repAck)
        strs := flatten (fillRange full endKey [] (retrieveStart db startKey)).1 } := by
  simp [masterFillRangeKV, h]

/-- The master names its last key when it is not asked for an end key. -/
theorem masterFillRangeKV_nil {full : List (Bytes × Bytes) → Bool} {db : Db} {flag : UInt32}
    {startKey : Bytes} (h : getLastEntry db [] ≠ []) :
    masterFillRangeKV full db flag startKey [] =
      { packetFlag := setRequestType flag
          (if (fillRange full (getLastEntry db []) [] (retrieveStart db startKey)).2 then .fin
            else .repAck)
        strs := getLastEntry db [] ::
          flatten (fillRange full (getLastEntry db []) [] (retrieveStart db startKey)).1 } := by
  simp [masterFillRangeKV, h]

theorem masterFillRangeKV_empty {full : List (Bytes × Bytes) → Bool} {db : Db} {flag : UInt32}
    {startKey : Bytes} (h : getLastEntry db [] = []) :
    masterFillRangeKV full db flag startKey [] =
      { packetFlag := setRequestType flag .fin, strs := [[]] } := by
  simp [masterFillRangeKV, h, flatten]

/-! ## Runs -/

variable {full : Nat → List (Bytes × Bytes) → Bool} {master slave : Process} {σ τ : System}

/-- A state of a run before which the slave has not finished. -/
inductive Reaches (full : Nat → List (Bytes × Bytes) → Bool) (σ : System) :
  Nat → System → Prop where
  | refl : Reaches full σ 0 σ
  | step {n : Nat} {τ τ' : System} (h : Reaches full σ n τ) (hfinished : τ.finished = false)
    (hstep : τ.step full = τ') : Reaches full σ (n + 1) τ'

theorem Reaches.iterate {n : Nat} (h : Reaches full σ n τ) : (System.step full)^[n] σ = τ := by
  induction h with
  | refl => rfl
  | step h hfinished hstep ih => rw [Function.iterate_succ_apply', ih, hstep]

theorem Reaches.before {n i : Nat} (h : Reaches full σ n τ) (hi : i < n) :
    ((System.step full)^[i] σ).finished = false := by
  induction h with
  | refl => cases hi
  | step h hfinished hstep ih =>
    rcases Nat.lt_succ_iff_lt_or_eq.mp hi with hi | rfl
    · exact ih hi
    · rw [h.iterate]
      exact hfinished

/-- Once no message is in flight, nothing happens any more. -/
theorem iterate_of_idle (h : τ.flight = .idle) (n : Nat) : (System.step full)^[n] τ = τ := by
  induction n with
  | zero => rfl
  | succ n ih =>
    rw [Function.iterate_succ_apply', ih, System.step, h]

/-- A run is decided where it comes to rest. -/
theorem Reaches.forall_iff {n : Nat} (h : Reaches full σ n τ) (hidle : τ.flight = .idle)
    (P : System → Prop) : (∀ i, ((System.step full)^[i] σ).finished = true →
      P ((System.step full)^[i] σ)) ↔ (τ.finished = true → P τ) := by
  constructor
  · intro hall
    have hn := hall n
    rwa [h.iterate] at hn
  · intro hτ i hfinished
    rcases Nat.lt_or_ge i n with hi | hi
    · rw [h.before hi] at hfinished
      cases hfinished
    · obtain ⟨k, rfl⟩ := Nat.exists_eq_add_of_le hi
      have heq : (System.step full)^[n + k] σ = τ := by
        rw [Nat.add_comm, Function.iterate_add_apply, h.iterate, iterate_of_idle hidle]
      rw [heq] at hfinished ⊢
      exact hτ hfinished

theorem triggerReplication_spec (slave : Process) :
    ∃ s₀ ok, slave.triggerReplication = (s₀.slaveConstructRequest .sync, s₀, ok) ∧
      s₀.db = slave.db ∧ s₀.replStartKey = getLastEntry slave.db [] ∧
      s₀.replEndKey = slave.column.endKey.getD [] ∧ s₀.column.endKey = slave.column.endKey := by
  let s₀ : Process := { slave with
    replStartKey := getLastEntry slave.db []
    replEndKey := slave.column.endKey.getD [] }
  unfold Process.triggerReplication
  dsimp only
  split
  · exact ⟨s₀, false, rfl, rfl, rfl, rfl, rfl⟩
  next column hcolumn =>
    refine ⟨{ s₀ with column }, true, rfl, rfl, rfl, rfl, ?_⟩
    unfold Meta.updateReplicationState at hcolumn
    split at hcolumn
    · cases hcolumn
      rfl
    · cases hcolumn

/-- The answer to the registration, as the slave reads it. -/
theorem register_answer (full : Nat → List (Bytes × Bytes) → Bool)
    (hstored : slave.column.endKey ≠ some []) {s₀ : Process}
    (hdb : s₀.db = slave.db) (hstart : s₀.replStartKey = getLastEntry slave.db [])
    (hend : s₀.replEndKey = slave.column.endKey.getD [])
    (hcolumn : s₀.column.endKey = slave.column.endKey) (hE : exchangeEndKey master slave ≠ []) :
    ∃ packet s₁, handleReplicationRegister (full 0) master.db (s₀.slaveConstructRequest .sync) =
        some packet ∧
      getRequestType packet.packetFlag =
        some (if (firstBatch full master slave).2 then .fin else .repAck) ∧
      s₀.takeEndKey packet = .ok (s₁, flatten (firstBatch full master slave).1) ∧
      s₁.db = slave.db ∧ s₁.replEndKey = exchangeEndKey master slave := by
  rw [(s₀.handleReplicationRegister_sync (full 0) master.db).2, hend, hstart]
  cases hkey : slave.column.endKey with
  | none =>
    have hlast : getLastEntry master.db [] = exchangeEndKey master slave := by
      rw [exchangeEndKey, hkey]
    rw [Option.getD_none, masterFillRangeKV_nil (by rwa [hlast]), hlast, decide_eq_true rfl]
    obtain ⟨htype, hhas⟩ := setRequestType_register (firstBatch full master slave).2 true
    exact ⟨_, _, rfl, htype, Process.takeEndKey_present hhas rfl hE (hcolumn.trans hkey), hdb, rfl⟩
  | some endKey =>
    have hne : endKey ≠ [] := fun h => hstored (hkey.trans (congrArg some h))
    have hend' : exchangeEndKey master slave = endKey := by rw [exchangeEndKey, hkey]
    rw [Option.getD_some, masterFillRangeKV_of_ne hne, decide_eq_false hne, ← hend']
    obtain ⟨htype, hhas⟩ := setRequestType_register (firstBatch full master slave).2 false
    refine ⟨_, s₀, rfl, htype, Process.takeEndKey_absent hhas, hdb, ?_⟩
    rw [hend, hkey, hend', Option.getD_some]

/-- A master without keys has no end key to name. -/
theorem register_answer_empty (full : Nat → List (Bytes × Bytes) → Bool) {s₀ : Process}
    (hend : s₀.replEndKey = slave.column.endKey.getD [])
    (hstored : slave.column.endKey ≠ some []) (hE : exchangeEndKey master slave = []) :
    ∃ packet, handleReplicationRegister (full 0) master.db (s₀.slaveConstructRequest .sync) =
        some packet ∧ getRequestType packet.packetFlag = some .fin ∧
      s₀.takeEndKey packet = .error (s₀, .abort) := by
  have hkey : slave.column.endKey = none := by
    cases hkey : slave.column.endKey with
    | none => rfl
    | some endKey =>
      rw [exchangeEndKey, hkey] at hE
      exact absurd (hkey.trans (congrArg some hE)) hstored
  rw [exchangeEndKey, hkey] at hE
  rw [(s₀.handleReplicationRegister_sync (full 0) master.db).2, hend, hkey, Option.getD_none,
    masterFillRangeKV_empty hE, decide_eq_true rfl]
  obtain ⟨htype, hhas⟩ := setRequestType_register true true
  exact ⟨_, rfl, htype, Process.takeEndKey_empty hhas rfl⟩

theorem step_toMaster {packet reply : Packet} (hflight : σ.flight = .toMaster packet)
    (h : σ.master.handleReplication (full σ.answers) (some packet) =
      (σ.master, false, .reply reply)) :
    σ.step full = { σ with flight := .toSlave reply, answers := σ.answers + 1 } := by
  rw [System.step, hflight]
  dsimp only
  rw [h]

/-- The registration and its answer. -/
theorem reaches_answer {s₀ : Process} {ok : Bool} {reply : Packet}
    (htrigger : slave.triggerReplication = (s₀.slaveConstructRequest .sync, s₀, ok))
    (hreply : handleReplicationRegister (full 0) master.db (s₀.slaveConstructRequest .sync) =
      some reply) :
    Reaches full (System.start master slave) 1 ⟨master, s₀, .toSlave reply, 1, false⟩ := by
  have hstart : System.start master slave =
      ⟨master, s₀, .toMaster (s₀.slaveConstructRequest .sync), 0, false⟩ := by
    rw [System.start, htrigger]
  rw [hstart]
  refine .step .refl rfl ?_
  apply step_toMaster rfl
  have htype := (s₀.handleReplicationRegister_sync (full 0) master.db).1
  exact (Process.handleReplication_answer _ htype (.inl ⟨rfl, hreply⟩)).1 reply rfl

theorem run_abort (full : Nat → List (Bytes × Bytes) → Bool)
    (hstored : slave.column.endKey ≠ some [])
    (hE : exchangeEndKey master slave = []) :
    ∃ τ, Reaches full (System.start master slave) 2 τ ∧ τ.flight = .idle ∧ τ.finished = false := by
  obtain ⟨s₀, ok, htrigger, -, -, hend, -⟩ := triggerReplication_spec slave
  obtain ⟨packet, hreply, htype, htake⟩ := register_answer_empty full hend hstored hE
  have hreach := reaches_answer htrigger hreply
  refine ⟨_, .step hreach rfl rfl, ?_⟩
  rw [System.step]
  dsimp only
  rw [Process.handleReplication_abort _ htype htake]
  exact ⟨rfl, rfl⟩

theorem run_first (hstored : slave.column.endKey ≠ some [])
    (hE : exchangeEndKey master slave ≠ []) (hb : (firstBatch full master slave).2 = true) :
    ∃ τ, Reaches full (System.start master slave) 2 τ ∧ τ.flight = .idle ∧ τ.finished = true ∧
      τ.master = master ∧ τ.slave.db = slave.db.putAll (firstBatch full master slave).1 ∧
      τ.slave.replEndKey = exchangeEndKey master slave := by
  obtain ⟨s₀, ok, htrigger, hdb, hstart, hend, hcolumn⟩ := triggerReplication_spec slave
  obtain ⟨packet, s₁, hreply, htype, htake, hdb₁, hend₁⟩ :=
    register_answer full hstored hdb hstart hend hcolumn hE
  have hreach := reaches_answer htrigger hreply
  rw [hb, if_pos rfl] at htype
  obtain ⟨column, outcome, heq, houtcome⟩ := Process.handleReplication_finished (full 1)
    htype htake (by rwa [hend₁])
  refine ⟨_, .step hreach rfl rfl, ?_⟩
  rw [System.step]
  dsimp only
  rw [heq]
  rcases houtcome with rfl | rfl
  · exact ⟨rfl, rfl, rfl, Process.db_withBatch hdb₁ _, hend₁⟩
  · exact ⟨rfl, rfl, rfl, Process.db_withBatch hdb₁ _, hend₁⟩

theorem run_request (hstored : slave.column.endKey ≠ some [])
    (hE : exchangeEndKey master slave ≠ []) (hb : (firstBatch full master slave).2 = false) :
    ∃ s₂, Reaches full (System.start master slave) 2
        ⟨master, s₂, .toMaster (s₂.slaveConstructRequest .reqAck), 1, false⟩ ∧
      s₂.db = slave.db.putAll (firstBatch full master slave).1 ∧
      s₂.replStartKey = lastKey (firstBatch full master slave).1 ∧
      s₂.replEndKey = exchangeEndKey master slave := by
  obtain ⟨s₀, ok, htrigger, hdb, hstart, hend, hcolumn⟩ := triggerReplication_spec slave
  obtain ⟨packet, s₁, hreply, htype, htake, hdb₁, hend₁⟩ :=
    register_answer full hstored hdb hstart hend hcolumn hE
  have hreach := reaches_answer htrigger hreply
  rw [hb, if_neg Bool.false_ne_true] at htype
  have heq := Process.handleReplication_response (full 1) htype htake
  refine ⟨s₁.withBatch (firstBatch full master slave).1, .step hreach rfl ?_,
    Process.db_withBatch hdb₁ _, rfl, hend₁⟩
  rw [System.step]
  dsimp only
  rw [heq]
  rfl

theorem run_refused (hstored : slave.column.endKey ≠ some [])
    (hE : exchangeEndKey master slave ≠ []) (hb : (firstBatch full master slave).2 = false)
    (hlast : lastKey (firstBatch full master slave).1 = []) :
    ∃ τ, Reaches full (System.start master slave) 3 τ ∧ τ.flight = .idle ∧ τ.finished = false := by
  obtain ⟨s₂, hreach, -, hstart, hend⟩ := run_request hstored hE hb
  obtain ⟨htype, hreply⟩ := s₂.handleReplicationRequest_reqAck (full 1) master.db
    (by rwa [hend])
  rw [if_pos (hstart.trans hlast)] at hreply
  obtain ⟨p', heq⟩ := (Process.handleReplication_answer _ htype (.inr ⟨rfl, hreply⟩)).2 rfl
  refine ⟨_, .step hreach rfl rfl, ?_⟩
  rw [System.step]
  dsimp only
  rw [heq]
  exact ⟨rfl, rfl⟩

/-- The answer to a request has the kind `fin`. -/
theorem request_answer {s₂ : Process}
    (hstart : s₂.replStartKey = lastKey (firstBatch full master slave).1)
    (hend : s₂.replEndKey = exchangeEndKey master slave) (hE : exchangeEndKey master slave ≠ [])
    (hlast : lastKey (firstBatch full master slave).1 ≠ []) :
    ∃ reply, master.handleReplication (full 1) (some (s₂.slaveConstructRequest .reqAck)) =
        (master, false, .reply reply) ∧
      getRequestType reply.packetFlag = some .fin ∧
      s₂.takeEndKey reply = .ok (s₂, flatten (secondBatch full master slave).1) := by
  obtain ⟨htype, hreply⟩ := s₂.handleReplicationRequest_reqAck (full 1) master.db
    (by rwa [hend])
  rw [if_neg (by rwa [hstart]), hend, hstart, masterFillRangeKV_of_ne hE] at hreply
  obtain ⟨htype', hhas⟩ := setRequestType_request (secondBatch full master slave).2
  have hanswer := (Process.handleReplication_answer _ htype (.inr ⟨rfl, hreply⟩)).1 _ rfl
  exact ⟨_, hanswer, htype', Process.takeEndKey_absent hhas⟩

/-- The slave takes the second answer for the last one, whatever it holds. -/
theorem run_last (hstored : slave.column.endKey ≠ some [])
    (hE : exchangeEndKey master slave ≠ []) (hb : (firstBatch full master slave).2 = false)
    (hlast : lastKey (firstBatch full master slave).1 ≠ []) :
    ∃ τ, Reaches full (System.start master slave) 4 τ ∧ τ.flight = .idle ∧ τ.finished = true ∧
      τ.master = master ∧
      τ.slave.db = (slave.db.putAll (firstBatch full master slave).1).putAll
        (secondBatch full master slave).1 ∧
      τ.slave.replEndKey = exchangeEndKey master slave := by
  obtain ⟨s₂, hreach, hdb, hstart, hend⟩ := run_request hstored hE hb
  obtain ⟨reply, hanswer, htype, htake⟩ := request_answer hstart hend hE hlast
  have hreach₃ := hreach.step rfl (step_toMaster rfl hanswer)
  obtain ⟨column, outcome, heq, houtcome⟩ := Process.handleReplication_finished (full 2) htype htake
    (by rwa [hend])
  refine ⟨_, .step hreach₃ rfl rfl, ?_⟩
  rw [System.step]
  dsimp only
  rw [heq]
  rcases houtcome with rfl | rfl
  · exact ⟨rfl, rfl, rfl, Process.db_withBatch hdb _, hend⟩
  · exact ⟨rfl, rfl, rfl, Process.db_withBatch hdb _, hend⟩

/-! ## Completeness -/

theorem complete_first (hpre : slave.db.entries <+: master.db.entries)
    (hb : (firstBatch full master slave).2 = true) {e : Bytes × Bytes} (he : e ∈ master.db.entries)
    (hle : e.1 ≤ exchangeEndKey master slave) :
    (slave.db.putAll (firstBatch full master slave).1).get? e.1 = some e.2 := by
  have hsubset : ∀ e' ∈ (firstBatch full master slave).1, e' ∈ master.db.entries :=
    fillRange_subset
  by_cases hstart : getLastEntry slave.db [] ≤ e.1
  · apply get?_putAll_of_mem_rows hsubset
    exact fillRange_finished (sorted_retrieveStart _ _) hb e
      (mem_retrieveStart.mpr ⟨he, hstart⟩) hle
  · exact get?_putAll_of_get? hsubset he (get?_of_lt_last hpre he hstart)

/-- The last key of the slave is one of the master, unless the slave is empty. -/
theorem getLastEntry_le {e : Bytes × Bytes} (h : e ∈ slave.db.entries) :
    e.1 ≤ getLastEntry slave.db [] := by
  have hne : slave.db.entries ≠ [] := ne_nil_of_mem h
  have hle := ((mem_prefix_iff slave.db.sorted prefix_rfl hne e).mp h).2
  have hlast : getLastEntry slave.db [] = lastKey slave.db.entries := by
    unfold getLastEntry lastKey
    cases slave.db.entries.getLast? with
    | none => rfl
    | some last => rfl
  rwa [hlast]

section Second

variable (hpre : slave.db.entries <+: master.db.entries)
  (hb : (firstBatch full master slave).2 = false)

include hb in
theorem mem_firstBatch (e : Bytes × Bytes) : e ∈ (firstBatch full master slave).1 ↔
    e ∈ master.db.entries ∧ getLastEntry slave.db [] ≤ e.1 ∧
      e.1 ≤ lastKey (firstBatch full master slave).1 :=
  mem_fillRange (fillRange_ne_nil hb) e

include hb in
/-- The last key of a packet is a key of the master. -/
theorem exists_lastKey : ∃ e ∈ (firstBatch full master slave).1,
    e.1 = lastKey (firstBatch full master slave).1 := by
  have hne : (firstBatch full master slave).1 ≠ [] := fillRange_ne_nil hb
  obtain ⟨init, last, heq⟩ := (eq_nil_or_concat' _).resolve_left hne
  rw [heq, lastKey_append_singleton]
  exact ⟨last, mem_append_right init (mem_singleton_self last), rfl⟩

include hb in
theorem secondBatch_ne_nil : (secondBatch full master slave).1 ≠ [] := by
  obtain ⟨e, he, hkey⟩ := exists_lastKey hb
  have hmem : e ∈ retrieveStart master.db (lastKey (firstBatch full master slave).1) :=
    mem_retrieveStart.mpr ⟨((mem_firstBatch hb e).mp he).1, hkey.ge⟩
  unfold secondBatch
  cases hrange : retrieveStart master.db (lastKey (firstBatch full master slave).1) with
  | nil =>
    rw [hrange] at hmem
    cases hmem
  | cons e' rest =>
    cases hb₂ : (fillRange (full 1) (exchangeEndKey master slave) [] (e' :: rest)).2 with
    | false => exact fillRange_ne_nil hb₂
    | true =>
      unfold fillRange
      dsimp only
      split
      · exact cons_ne_nil _ _
      split
      · exact cons_ne_nil _ _
      · obtain ⟨taken, heq, -⟩ := fillRange_prefix (full 1) (exchangeEndKey master slave)
          ([] ++ [e']) rest
        rw [heq]
        exact cons_ne_nil _ _

include hb in
theorem mem_secondBatch (e : Bytes × Bytes) : e ∈ (secondBatch full master slave).1 ↔
    e ∈ master.db.entries ∧ lastKey (firstBatch full master slave).1 ≤ e.1 ∧
      e.1 ≤ lastKey (secondBatch full master slave).1 :=
  mem_fillRange (secondBatch_ne_nil hb) e

include hpre hb in
/-- What the slave has after two packets. -/
theorem get?_second_iff {e : Bytes × Bytes} (he : e ∈ master.db.entries) :
    ((slave.db.putAll (firstBatch full master slave).1).putAll
        (secondBatch full master slave).1).get? e.1 = some e.2 ↔
      e.1 ≤ lastKey (secondBatch full master slave).1 := by
  have hsubset₁ : ∀ e' ∈ (firstBatch full master slave).1, e' ∈ master.db.entries :=
    fillRange_subset
  have hsubset₂ : ∀ e' ∈ (secondBatch full master slave).1, e' ∈ master.db.entries :=
    fillRange_subset
  obtain ⟨e₁, he₁, hkey₁⟩ := exists_lastKey hb
  obtain ⟨hmem₁, hstart₁, -⟩ := (mem_firstBatch hb e₁).mp he₁
  have hle₂ : lastKey (firstBatch full master slave).1 ≤
      lastKey (secondBatch full master slave).1 := by
    obtain ⟨e₂, he₂⟩ := exists_mem_of_ne_nil _ (secondBatch_ne_nil hb)
    obtain ⟨-, hle, hle'⟩ := (mem_secondBatch hb e₂).mp he₂
    exact hle.trans hle'
  constructor
  · intro hget
    by_contra hgt
    have hnot₂ : ∀ e' ∈ (secondBatch full master slave).1, e'.1 ≠ e.1 := by
      intro e' he' heq
      exact hgt (heq ▸ ((mem_secondBatch hb e').mp he').2.2)
    have hnot₁ : ∀ e' ∈ (firstBatch full master slave).1, e'.1 ≠ e.1 := by
      intro e' he' heq
      exact hgt (heq ▸ ((mem_firstBatch hb e').mp he').2.2.trans hle₂)
    rw [SortedMap.get?_putAll_of_notMem hnot₂, SortedMap.get?_putAll_of_notMem hnot₁,
      SortedMap.get?_eq_some] at hget
    have hlast := getLastEntry_le hget
    exact hgt (hlast.trans (hstart₁.trans (hkey₁.le.trans hle₂)))
  · intro hle
    by_cases hstart : getLastEntry slave.db [] ≤ e.1
    · by_cases hmid : lastKey (firstBatch full master slave).1 ≤ e.1
      · exact get?_putAll_of_mem_rows hsubset₂ ((mem_secondBatch hb e).mpr ⟨he, hmid, hle⟩)
      · apply get?_putAll_of_get? hsubset₂ he
        apply get?_putAll_of_mem_rows hsubset₁
        exact (mem_firstBatch hb e).mpr ⟨he, hstart, (not_le.mp hmid).le⟩
    · apply get?_putAll_of_get? hsubset₂ he
      exact get?_putAll_of_get? hsubset₁ he (get?_of_lt_last hpre he hstart)

end Second

/-- In an exchange with a slave that has the first entries of the master, the slave takes the
finished branch only when it has all of them up to the end key exactly when the range fits into two
packets. -/
theorem sync_complete_iff (full : Nat → List (Bytes × Bytes) → Bool) (master slave : Process)
    (hpre : slave.db.entries <+: master.db.entries)
    (hstored : slave.column.endKey ≠ some []) :
    (∀ n, ((System.step full)^[n] (System.start master slave)).finished = true →
      Complete master ((System.step full)^[n] (System.start master slave)).slave) ↔
      FitsTwoPackets full master slave := by
  by_cases hE : exchangeEndKey master slave = []
  · obtain ⟨τ, hreach, hidle, hfinished⟩ := run_abort full hstored hE
    rw [hreach.forall_iff hidle fun τ => Complete master τ.slave]
    have hfirst : (firstBatch full master slave).2 = true := by
      rw [firstBatch, hE]
      cases retrieveStart master.db (getLastEntry slave.db []) with
      | nil => rfl
      | cons e rest =>
        rw [fillRange, if_pos (nil_le e.1)]
    exact ⟨fun _ => .inl hfirst, fun _ h => absurd h (by rw [hfinished]; exact Bool.false_ne_true)⟩
  cases hb : (firstBatch full master slave).2 with
  | true =>
    obtain ⟨τ, hreach, hidle, hfinished, -, hdb, hend⟩ := run_first hstored hE hb
    rw [hreach.forall_iff hidle fun τ => Complete master τ.slave]
    refine ⟨fun _ => .inl hb, fun _ _ => ?_⟩
    intro e he hle
    rw [hend] at hle
    rw [hdb]
    exact complete_first hpre hb he hle
  | false =>
    by_cases hlast : lastKey (firstBatch full master slave).1 = []
    · obtain ⟨τ, hreach, hidle, hfinished⟩ := run_refused hstored hE hb hlast
      rw [hreach.forall_iff hidle fun τ => Complete master τ.slave]
      exact ⟨fun _ => .inr (.inl hlast),
        fun _ h => absurd h (by rw [hfinished]; exact Bool.false_ne_true)⟩
    · obtain ⟨τ, hreach, hidle, hfinished, -, hdb, hend⟩ := run_last hstored hE hb hlast
      rw [hreach.forall_iff hidle fun τ => Complete master τ.slave]
      have hcomplete : Complete master τ.slave ↔ ∀ e ∈ master.db.entries,
          e.1 ≤ exchangeEndKey master slave → e.1 ≤ lastKey (secondBatch full master slave).1 := by
        unfold Complete
        rw [hend, hdb]
        exact forall₂_congr fun e he => imp_congr_right fun _ => get?_second_iff hpre hb he
      unfold FitsTwoPackets
      rw [hfinished, forall_prop_of_true rfl, hcomplete, hb]
      simp [hlast]

def threeKeys : Process where
  db := { entries := [([1], [10]), ([2], [20]), ([3], [30])], sorted := by decide }
  column := {}
  replStartKey := []
  replEndKey := []

def noKeys : Process where
  db := .empty
  column := {}
  replStartKey := []
  replEndKey := []

/-- Three entries that fit into one packet. -/
theorem sync_complete_one_packet :
    ((System.step fun _ _ => false)^[2] (System.start threeKeys noKeys)).finished = true ∧
      Complete threeKeys
        ((System.step fun _ _ => false)^[2] (System.start threeKeys noKeys)).slave := by
  have hfinished :
      ((System.step fun _ _ => false)^[2] (System.start threeKeys noKeys)).finished = true := by
    decide +kernel
  have hiff := sync_complete_iff (fun _ _ => false) threeKeys noKeys nil_prefix (by decide +kernel)
  exact ⟨hfinished, hiff.mpr (.inl (by decide +kernel)) 2 hfinished⟩

/-- When every packet holds one entry, the slave finishes with the first key. -/
theorem sync_incomplete :
    ((System.step fun _ _ => true)^[4] (System.start threeKeys noKeys)).finished = true ∧
      ¬ Complete threeKeys
        ((System.step fun _ _ => true)^[4] (System.start threeKeys noKeys)).slave := by
  refine ⟨by decide +kernel, fun hcomplete => ?_⟩
  have hget := hcomplete ([3], [30]) (by decide +kernel) (by decide +kernel)
  exact absurd hget (by decide +kernel)

end ISearch.Replication

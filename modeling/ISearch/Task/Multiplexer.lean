import ISearch.Task.MultiRequest
import Mathlib.Data.List.Nodup
import Mathlib.Data.List.Perm.Basic
import Mathlib.Data.List.TakeWhile

/-!
# One reply for a batch

In every run the waiting task is replied to once, after all its sub-tasks unless it has an error,
with the rows of each of them. A batch without keys, or whose key list is not decoded, is replied to
twice, and a key that stands in the list twice is issued twice.
-/

namespace ISearch.Task

open List
open KeyFormat (Bytes)

variable {Row : Type} {tableDef : KeyTable} {packs : Key → Bool}

/-- The keys that are decoded. -/
def BatchRequest.keyList (cur : BatchRequest Row) (tableDef : KeyTable) : List Key :=
  (decodeKeyList tableDef cur.keys).2

/-- The result `r` has the rows of the sub-tasks. -/
def HasRows (r₀ r : TaskResult Row) (completed : List (Nat × TaskResult Row)) : Prop :=
  r.rows = r₀.rows ++ completed.flatMap (·.2.rows) ∧
    r.totalRows = (completed.map (·.2.totalRows)).foldl (· + ·) r₀.totalRows

/-- One reply at most, and one when all sub-tasks have been replied to; one without error comes
after them and has their rows; no key is issued twice; no reply of a sub-task comes too late. -/
structure AnsweredOnce (r₀ : TaskResult Row) (keys : List Key) (s : System Row) : Prop where
  at_most_once : s.replies.length ≤ 1
  answered : s.position = .waiting → s.outstanding = [] → s.replies.length = 1
  complete : ∀ r ∈ s.replies, 0 ≤ r.resultCode → s.outstanding = [] ∧
    (s.completed.map Prod.fst).Perm (List.range keys.length) ∧ HasRows r₀ r s.completed
  issued_once : (s.issued.map (keys[·]?)).Nodup
  alive : s.outstanding ≠ [] → s.req.isSome

namespace TaskResult

variable (t task : TaskResult Row)

theorem resultCode_mergeCounts : (t.mergeCounts task).resultCode = t.resultCode := by
  rw [mergeCounts]
  split <;> split <;> (try split) <;> (try split) <;> rfl

theorem resultWriter_mergeCounts : (t.mergeCounts task).resultWriter = t.resultWriter := by
  rw [mergeCounts]
  split <;> split <;> (try split) <;> (try split) <;> rfl

theorem mergeResult_ok {oom : Bool} (h : (t.mergeResult task oom).1 = 0) :
    (t.mergeResult task oom).2.resultCode = t.resultCode ∧
      (t.mergeResult task oom).2.rows = t.rows ++ task.rows ∧
      (t.mergeResult task oom).2.totalRows = t.totalRows + task.totalRows := by
  have hcode := resultCode_mergeCounts t task
  have hwriter := resultWriter_mergeCounts t task
  rw [mergeResult] at h ⊢
  cases hw : task.resultWriter with
  | none => simp [rows, totalRows, hcode, hwriter, hw]
  | some w =>
    simp only [hw] at h
    split at h
    · cases h
    · next hoom =>
      simp only [hoom, rows, totalRows, hw, hwriter]
      refine ⟨hcode, ?_⟩
      cases t.resultWriter <;> simp

theorem mergeResult_failed {oom : Bool} (h : (t.mergeResult task oom).1 ≠ 0) :
    (t.mergeResult task oom).1 < 0 := by
  rw [mergeResult] at h ⊢
  split
  · simp_all
  · simp only [*] at h
    split
    · show -enomem < 0
      decide
    · simp_all

/-- A result without error has the rows that it had and those of the sub-task. -/
theorem takeResult_ok {oom : Bool} (h : 0 ≤ (t.takeResult task oom).resultCode) :
    0 ≤ t.resultCode ∧ (t.takeResult task oom).rows = t.rows ++ task.rows ∧
      (t.takeResult task oom).totalRows = t.totalRows + task.totalRows := by
  rw [takeResult] at h ⊢
  have hret : ∀ t' : TaskResult Row, 0 ≤ (if (t'.mergeResult task oom).1 ≠ 0 then
      (t'.mergeResult task oom).2.setError (t'.mergeResult task oom).1 "multi_request"
        "merge result error" else (t'.mergeResult task oom).2).resultCode →
      (t'.mergeResult task oom).1 = 0 ∧ 0 ≤ t'.resultCode := by
    intro t' h
    split at h
    · next hret => exact absurd h (not_le.mpr (mergeResult_failed t' task hret))
    · next hret =>
      rw [not_not] at hret
      exact ⟨hret, (mergeResult_ok t' task hret).1 ▸ h⟩
  split_ifs at h ⊢ with herr
  · exact absurd (hret _ h).2 (not_le.mpr herr.2)
  · obtain ⟨hzero, hcode⟩ := hret _ h
    dsimp only
    rw [if_neg (not_not.mpr hzero)]
    exact ⟨hcode, (mergeResult_ok t task hzero).2⟩

end TaskResult

/-! ## The invariant -/

/-- How many keys have been issued at a position of the loop. -/
def Position.Issues (n : Nat) (replied : Bool) : Position → Nat → Prop
  | .split i, k => k = i
  | .pushed i, k => k = i + 1
  | .waiting, k => k = n ∨ replied

/-- The sub-task that is pushed and not counted. -/
def Position.uncounted : Position → Nat
  | .pushed _ => 1
  | .split _ | .waiting => 0

variable {r₀ : TaskResult Row} {keys : List Key} {s : System Row} {req : MultiRequest}

/-- The keys at the first positions are issued, and all of them can be packed. -/
def Issued (packs : Key → Bool) (keys : List Key) (issued : List Nat) : Prop :=
  ∃ k, issued = List.range k ∧ ∀ i < k, ∃ key, keys[i]? = some key ∧ packs key

/-- While there is a `MultiRequest`. -/
structure Live (r₀ : TaskResult Row) (packs : Key → Bool) (keys : List Key) (s : System Row)
    (req : MultiRequest) : Prop where
  keyList : req.keyList = keys
  wait : req.wait = true ↔ s.replies = []
  firstPass : req.firstPass = false ↔ s.position = .waiting
  counted : req.subReq + s.position.uncounted = s.outstanding.length
  pending : s.position = .waiting → s.outstanding ≠ []
  early : s.position ≠ .waiting → s.replies = []
  issued : ∃ k ≤ keys.length, s.issued = List.range k ∧
    s.position.Issues keys.length (!s.replies.isEmpty) k
  packed : Issued packs keys s.issued
  perm : (s.outstanding ++ s.completed.map Prod.fst).Perm s.issued
  mask : ∀ i, req.keyMask i = true → i ∈ s.completed.map Prod.fst
  merged : s.replies = [] → 0 ≤ s.task.resultCode → HasRows r₀ s.task s.completed
  failed : ∀ r ∈ s.replies, r.resultCode < 0
  at_most_once : s.replies.length ≤ 1

/-- When it is deleted. -/
structure Done (r₀ : TaskResult Row) (packs : Key → Bool) (keys : List Key) (s : System Row) :
    Prop where
  position : s.position = .waiting
  outstanding : s.outstanding = []
  replied : ∃ r, s.replies = [r] ∧ (0 ≤ r.resultCode →
    (s.completed.map Prod.fst).Perm (List.range keys.length) ∧ HasRows r₀ r s.completed)
  packed : Issued packs keys s.issued

def Inv (r₀ : TaskResult Row) (packs : Key → Bool) (keys : List Key) (s : System Row) : Prop :=
  match s.req with
  | some req => Live r₀ packs keys s req
  | none => Done r₀ packs keys s

theorem map_range_getElem? {k : Nat} (h : k ≤ keys.length) :
    (List.range k).map (keys[·]?) = (keys.take k).map some := by
  apply ext_getElem
  · simp [h]
  · intro i hi _
    rw [length_map, length_range] at hi
    simp [List.getElem?_eq_getElem (hi.trans_le h)]

theorem Issued.nil : Issued packs keys [] := ⟨0, rfl, fun i hi => absurd hi i.not_lt_zero⟩

theorem Issued.le {k : Nat} (h : ∀ i < k, ∃ key, keys[i]? = some key ∧ packs key) :
    k ≤ (keys.takeWhile packs).length := by
  induction keys generalizing k with
  | nil =>
    cases k with
    | zero => exact le_rfl
    | succ k => simpa using h 0 k.succ_pos
  | cons key keys ih =>
    cases k with
    | zero => exact Nat.zero_le _
    | succ k =>
      have hkey : packs key := by simpa using h 0 k.succ_pos
      rw [takeWhile_cons_of_pos hkey, length_cons]
      exact Nat.succ_le_succ (ih fun i hi => by simpa using h (i + 1) (Nat.succ_lt_succ hi))

/-- Distinct keys are issued once. -/
theorem Issued.nodup {issued : List Nat} (h : Issued packs keys issued)
    (hdistinct : (keys.takeWhile packs).Nodup) : (issued.map (keys[·]?)).Nodup := by
  obtain ⟨k, rfl, hk⟩ := h
  have hle := Issued.le hk
  have hprefix := takeWhile_prefix (l := keys) packs
  rw [map_range_getElem? (hle.trans hprefix.length_le)]
  refine List.Nodup.map (Option.some_injective _) ?_
  rw [prefix_iff_eq_take.mp hprefix] at hdistinct
  exact hdistinct.sublist (take_sublist_take_left hle)

theorem answeredOnce_of_inv (h : Inv r₀ packs keys s)
    (hdistinct : (keys.takeWhile packs).Nodup) : AnsweredOnce r₀ keys s := by
  rw [Inv] at h
  split at h
  · next req hreq =>
    exact ⟨h.at_most_once, fun hpos hout => absurd hout (h.pending hpos),
      fun r hr hcode => absurd hcode (not_le.mpr (h.failed r hr)), h.packed.nodup hdistinct,
      fun _ => by simp [hreq]⟩
  · next hreq =>
    obtain ⟨r, hr, hcomplete⟩ := h.replied
    refine ⟨by simp [hr], fun _ _ => by simp [hr], fun r' hr' hcode => ?_,
      h.packed.nodup hdistinct, fun hout => absurd h.outstanding hout⟩
    obtain rfl : r' = r := by simpa [hr] using hr'
    exact ⟨h.outstanding, hcomplete hcode⟩

/-! ## The steps -/

/-- The waiting task gets its reply, and nothing is left to wait for. -/
theorem done_delete (hwait : req.wait = true) (hreplies : s.replies = [])
    (hpos : s.position = .waiting) (hout : s.outstanding = [])
      (hissued : Issued packs keys s.issued)
    (hcomplete : 0 ≤ s.task.resultCode →
      (s.completed.map Prod.fst).Perm (List.range keys.length) ∧ HasRows r₀ s.task s.completed) :
    Inv r₀ packs keys (s.completeWaiter req).delete := by
  rw [System.completeWaiter, if_pos hwait]
  exact ⟨hpos, hout, ⟨s.task, by simp [System.replyNotify, System.delete, hreplies], hcomplete⟩,
    hissued⟩

/-- The last sub-task after a reply. -/
theorem done_delete_replied (hwait : req.wait = false) {r : TaskResult Row}
    (hreplies : s.replies = [r]) (hr : r.resultCode < 0) (hpos : s.position = .waiting)
    (hout : s.outstanding = []) (hissued : Issued packs keys s.issued) :
    Inv r₀ packs keys (s.completeWaiter req).delete := by
  rw [System.completeWaiter, if_neg (by simp [hwait])]
  simp only [System.delete, hwait]
  exact ⟨hpos, hout, ⟨r, hreplies, fun h => absurd h (not_le.mpr hr)⟩, hissued⟩

/-- The loop is left, with or without an error. -/
theorem inv_secondPass (h : Live r₀ packs keys s req) {i : Nat} (hpos : s.position = .split i)
    (err : Bool)
    (herr : err = true → s.task.resultCode < 0)
      (hall : err = false → s.issued = List.range keys.length) :
    Inv r₀ packs keys (s.secondPass req err) := by
  have hreplies := h.early (by simp [hpos])
  have hwait := h.wait.mpr hreplies
  have hcounted := h.counted
  rw [hpos, Position.uncounted, Nat.cast_zero, add_zero] at hcounted
  obtain ⟨k, hk, hissued, -⟩ := h.issued
  rw [System.secondPass]
  split_ifs with hsub herr'
  · have hout : s.outstanding = [] := by
      apply eq_nil_of_length_eq_zero
      dsimp only at hsub
      omega
    have hperm := h.perm
    rw [hout, nil_append] at hperm
    refine done_delete hwait hreplies rfl hout h.packed fun hcode => ?_
    cases err with
    | true => exact absurd hcode (not_le.mpr (herr rfl))
    | false => exact ⟨hall rfl ▸ hperm, h.merged hreplies hcode⟩
  · have hout : s.outstanding ≠ [] := by
      intro hout
      rw [hout] at hcounted
      exact hsub hcounted
    rw [System.completeWaiter, if_pos hwait]
    exact {
      keyList := h.keyList
      wait := by simp [System.replyNotify]
      firstPass := by simp [System.replyNotify]
      counted := by simpa [System.replyNotify, Position.uncounted] using hcounted
      pending := fun _ => hout
      early := fun hne => absurd rfl hne
      issued := ⟨k, hk, hissued, .inr (by simp [System.replyNotify])⟩
      packed := h.packed
      perm := h.perm
      mask := h.mask
      merged := by simp [System.replyNotify]
      failed := by simpa [System.replyNotify, hreplies] using herr herr'
      at_most_once := by simp [System.replyNotify, hreplies] }
  · have hout : s.outstanding ≠ [] := by
      intro hout
      rw [hout] at hcounted
      exact hsub hcounted
    exact {
      keyList := h.keyList
      wait := h.wait
      firstPass := by simp
      counted := by simpa [Position.uncounted] using hcounted
      pending := fun _ => hout
      early := fun hne => absurd rfl hne
      issued := ⟨_, le_rfl, hall (by simpa using herr'), .inl rfl⟩
      packed := h.packed
      perm := h.perm
      mask := h.mask
      merged := h.merged
      failed := h.failed
      at_most_once := h.at_most_once }

/-- The next step of the loop. -/
theorem inv_advance (hreq : s.req = some req) (h : Live r₀ packs keys s req)
    (hpos : s.position ≠ .waiting) :
    Inv r₀ packs keys (s.advance req packs) := by
  have hreplies := h.early hpos
  obtain ⟨k, hk, hissued, hat⟩ := h.issued
  have hcounted := h.counted
  rw [System.advance]
  split
  · next hwaiting => exact absurd hwaiting hpos
  · next i hpushed =>
    rw [hpushed] at hat hcounted
    exact {
      keyList := h.keyList
      wait := h.wait
      firstPass := by simpa [hpushed] using h.firstPass
      counted := by simpa [Position.uncounted] using hcounted
      pending := nofun
      early := fun _ => hreplies
      issued := ⟨k, hk, hissued, hat⟩
      packed := h.packed
      perm := h.perm
      mask := h.mask
      merged := h.merged
      failed := h.failed
      at_most_once := h.at_most_once }
  · next i hsplit =>
    rw [hsplit] at hat hcounted
    obtain rfl : k = i := hat
    split
    · next hnone =>
      refine inv_secondPass h hsplit false nofun fun _ => ?_
      rw [h.keyList] at hnone
      rw [hissued, le_antisymm hk (List.getElem?_eq_none_iff.mp hnone)]
    · next keyVal hsome =>
      rw [h.keyList] at hsome
      have hlt : k < keys.length := (List.getElem?_eq_some_iff.mp hsome).1
      have hnew : req.keyMask k = false := by
        rw [← Bool.not_eq_true]
        intro hmask
        have hmem := h.perm.subset (mem_append_right _ (h.mask k hmask))
        simp [hissued] at hmem
      rw [if_neg (by simp [hnew])]
      split
      · next hpacks =>
        simp only [Inv, hreq]
        exact {
          keyList := h.keyList
          wait := h.wait
          firstPass := by simpa [hsplit] using h.firstPass
          counted := by simpa [Position.uncounted] using hcounted
          pending := nofun
          early := fun _ => hreplies
          issued := ⟨k + 1, hlt, by rw [hissued, range_succ], rfl⟩
          packed := by
            obtain ⟨k', hk', hbelow⟩ := h.packed
            obtain rfl : k' = k := by simpa [hissued] using (congrArg List.length hk').symm
            refine ⟨k' + 1, by rw [hissued, range_succ], fun i hi => ?_⟩
            rcases Nat.lt_succ_iff_lt_or_eq.mp hi with hi | rfl
            · exact hbelow i hi
            · exact ⟨keyVal, hsome, hpacks⟩
          perm := by
            have hperm := h.perm.append_right [k]
            refine .trans ?_ hperm
            rw [append_assoc, append_assoc]
            exact perm_append_comm.append_left _
          mask := h.mask
          merged := h.merged
          failed := h.failed
          at_most_once := h.at_most_once }
      · have hcode : (s.task.setError (-enomem) "reply_notify" "split task error").resultCode < 0 :=
          Int.negSucc_lt_zero 11
        have hfailed : Live r₀ packs keys { s with
            task := s.task.setError (-enomem) "reply_notify" "split task error" } req :=
          { h with merged := fun _ hok => absurd hok (not_le.mpr hcode) }
        exact inv_secondPass hfailed hsplit true (fun _ => hcode) nofun

theorem HasRows.append {t r : TaskResult Row} {completed : List (Nat × TaskResult Row)} {oom : Bool}
    (h : HasRows r₀ t completed) (hcode : 0 ≤ (t.takeResult r oom).resultCode) (index : Nat) :
    HasRows r₀ (t.takeResult r oom) (completed ++ [(index, r)]) := by
  obtain ⟨-, hrows, htotal⟩ := t.takeResult_ok r hcode
  rw [HasRows, hrows, htotal, h.1, h.2]
  simp

/-- A sub-task is replied to. -/
theorem inv_completeTask (h : Live r₀ packs keys s req) {index : Nat} (hmem : index ∈ s.outstanding)
    (r : TaskResult Row) (oom : Bool) : Inv r₀ packs keys (s.completeTask req index r oom) := by
  obtain ⟨k, hk, hissued, hat⟩ := h.issued
  have hcounted := h.counted
  have hlen := length_erase_of_mem hmem
  have hpos := length_pos_of_mem hmem
  have hperm : (s.outstanding.erase index ++ (s.completed ++ [(index, r)]).map Prod.fst).Perm
      s.issued := by
    refine .trans ?_ h.perm
    rw [map_append, ← append_assoc]
    refine perm_append_comm.trans ?_
    exact (perm_cons_erase hmem).symm.append_right _
  have hmerged : s.replies = [] → 0 ≤ (s.task.takeResult r oom).resultCode →
      HasRows r₀ (s.task.takeResult r oom) (s.completed ++ [(index, r)]) := fun hreplies hcode =>
    (h.merged hreplies (s.task.takeResult_ok r hcode).1).append hcode index
  have htask : s.replies = [] →
      (if req.wait then s.task.takeResult r oom else s.task) = s.task.takeResult r oom :=
    fun hreplies => if_pos (h.wait.mpr hreplies)
  rw [System.completeTask]
  dsimp only
  split
  · next hlast =>
    -- the last sub-task behind the loop
    have hwaiting := h.firstPass.mp hlast.1
    rw [hwaiting, Position.uncounted] at hcounted
    have hout : s.outstanding.erase index = [] := by
      apply eq_nil_of_length_eq_zero
      have := hlast.2
      omega
    rw [hout, nil_append] at hperm
    rw [hwaiting] at hat
    cases hwait : req.wait with
    | true =>
      have hreplies := h.wait.mp hwait
      refine done_delete rfl hreplies hwaiting hout h.packed fun hcode => ?_
      dsimp only at hcode ⊢
      rw [if_pos rfl] at hcode ⊢
      have hall : s.issued = List.range keys.length := by
        rw [hissued, hat.resolve_right (by simp [hreplies])]
      exact ⟨hall ▸ hperm, hmerged hreplies hcode⟩
    | false =>
      have hreplies : s.replies ≠ [] := fun hnil => by simp [h.wait.mpr hnil] at hwait
      obtain ⟨r', hr'⟩ := length_eq_one_iff.mp
        (le_antisymm h.at_most_once (length_pos_of_ne_nil hreplies))
      exact done_delete_replied rfl hr' (h.failed r' (by simp [hr'])) hwaiting hout h.packed
  · next hlast =>
    exact {
      keyList := h.keyList
      wait := h.wait
      firstPass := h.firstPass
      counted := by
        dsimp only
        omega
      pending := by
        intro hwaiting hout
        dsimp only at hwaiting hout
        rw [hwaiting, Position.uncounted] at hcounted
        rw [hout, length_nil] at hlen
        exact hlast ⟨h.firstPass.mpr hwaiting, by omega⟩
      early := h.early
      issued := ⟨k, hk, hissued, hat⟩
      packed := h.packed
      perm := hperm
      mask := by
        intro i hi
        dsimp only at hi ⊢
        by_cases hindex : i = index
        · simp [hindex]
        · rw [Function.update_of_ne hindex] at hi
          rw [map_append]
          exact mem_append_left _ (h.mask i hi)
      merged := by
        intro hreplies
        dsimp only
        rw [htask hreplies]
        exact hmerged hreplies
      failed := h.failed
      at_most_once := h.at_most_once }

theorem inv_step (e : Event Row) {s' : System Row} (h : Inv r₀ packs keys s)
    (hstep : s.step packs e = some s') : Inv r₀ packs keys s' := by
  cases hreq : s.req with
  | none => cases e <;> simp [System.step, hreq] at hstep
  | some req =>
    have hlive : Live r₀ packs keys s req := by simpa [Inv, hreq] using h
    cases e with
    | advance =>
      simp only [System.step, hreq] at hstep
      split at hstep
      · cases hstep
      · next hpos =>
        cases hstep
        exact inv_advance hreq hlive hpos
    | complete index r oom =>
      simp only [System.step, hreq] at hstep
      split at hstep
      · next hmem =>
        cases hstep
        exact inv_completeTask hlive hmem r oom
      · cases hstep

/-! ## Batches -/

/-- The key list has a key, and all of it is there. -/
def KeyList.HasKeys (tableDef : KeyTable) : KeyList → Prop
  | .embedded keys => keys ≠ []
  | .network names count vals => 0 < count.toUInt32.toInt32.toInt ∧
    ∃ fields rest keys, decodeKeyNames tableDef tableDef.keyFields names = some (fields, rest) ∧
      arrayGetBin rest = none ∧
      decodeKeyVals tableDef fields count.toUInt32.toInt32.toInt.toNat vals = .ok keys

theorem decodeKeyField_error {fid : UInt8} {vals : Bytes} {err : Int}
    (h : decodeKeyField tableDef fid vals = .error err) : err < 0 := by
  rw [decodeKeyField] at h
  split at h
  all_goals try split at h
  all_goals cases h
  all_goals decide

theorem decodeKeyVal_error {fields : List UInt8} {vals : Bytes} {err : Int}
    (h : decodeKeyVal tableDef fields vals = .error err) : err < 0 := by
  induction fields generalizing vals with
  | nil => cases h
  | cons fid fields ih =>
    rw [decodeKeyVal, bind_eq_error] at h
    rcases h with h | ⟨⟨v, vals'⟩, -, h⟩
    · exact decodeKeyField_error h
    · rcases bind_eq_error.mp h with h | ⟨_, -, h⟩
      · exact ih h
      · cases h

theorem decodeKeyVals_error {fields : List UInt8} {k : Nat} {vals : Bytes} {err : Int}
    (h : decodeKeyVals tableDef fields k vals = .error err) : err < 0 := by
  induction k generalizing vals with
  | zero => cases h
  | succ k ih =>
    rw [decodeKeyVals, bind_eq_error] at h
    rcases h with h | ⟨⟨key, vals'⟩, -, h⟩
    · exact decodeKeyVal_error h
    · rcases bind_eq_error.mp h with h | ⟨_, -, h⟩
      · exact ih h
      · cases h

theorem decodeKeyList_pos_iff (keys : KeyList) :
    0 < (decodeKeyList tableDef keys).1 ↔ keys.HasKeys tableDef := by
  cases keys with
  | embedded keys => simp [decodeKeyList, KeyList.HasKeys, length_pos_iff]
  | network names count vals =>
    rw [decodeKeyList, KeyList.HasKeys]
    cases hnames : decodeKeyNames tableDef tableDef.keyFields names with
    | none => simp
    | some r =>
      obtain ⟨fields, rest⟩ := r
      cases hrest : arrayGetBin rest with
      | some v =>
        refine iff_of_false (by simp [hrest]) ?_
        rintro ⟨-, _, _, _, h, hnone, -⟩
        cases h
        simp [hrest] at hnone
      | none =>
        simp only [hrest, Option.isSome_none, Bool.false_eq_true, if_false]
        cases hvals : decodeKeyVals tableDef fields count.toUInt32.toInt32.toInt.toNat vals with
        | error err =>
          refine iff_of_false (not_lt.mpr (decodeKeyVals_error hvals).le) ?_
          rintro ⟨-, _, _, _, h, -, hok⟩
          cases h
          rw [hvals] at hok
          cases hok
        | ok keys => exact ⟨fun h => ⟨h, _, _, keys, rfl, hrest, hvals⟩, fun h => h.1⟩

theorem inv_taskNotify (cur : BatchRequest Row)
    (h : (cur.refusal tableDef).isSome ∨ cur.keys.HasKeys tableDef) :
    Inv cur.result packs (cur.keyList tableDef) (cur.taskNotify tableDef) := by
  rw [BatchRequest.taskNotify]
  split
  · next msg hmsg =>
    have hcode : (cur.result.setError (-ecTooManyKeyValue) "task_notify" msg).resultCode < 0 :=
      Int.negSucc_lt_zero 2045
    exact ⟨rfl, rfl, ⟨_, rfl, fun hok => absurd hok (not_le.mpr hcode)⟩, Issued.nil⟩
  · next hnone =>
    have hpos := (decodeKeyList_pos_iff cur.keys).mpr (h.resolve_left (by simp [hnone]))
    dsimp only
    rw [if_neg (not_le.mpr hpos)]
    have hlive : ∀ r, Live cur.result packs (cur.keyList tableDef)
        ⟨cur.result, r, .split 0, [], [], [], []⟩
        ⟨true, (decodeKeyList tableDef cur.keys).2, fun _ => false, 0,
          (decodeKeyList tableDef cur.keys).1, 0, true⟩ := fun _ =>
      ⟨rfl, by simp, by simp, rfl, nofun, fun _ => rfl, ⟨0, Nat.zero_le _, rfl, rfl⟩, Issued.nil,
        .refl _, nofun, fun _ _ => ⟨by simp, by simp⟩, nofun, Nat.zero_le _⟩
    split
    · next hcode => exact inv_secondPass (hlive none) rfl true (fun _ => hcode) nofun
    · rw [if_neg (by simpa using hpos)]
      exact hlive _

@[simp] theorem System.req_delete (s : System Row) : s.delete.req = none := by
  rw [System.delete]
  split
  · assumption
  · rfl

/-- Without a `MultiRequest` nothing happens any more. -/
theorem run_deleted (h : s.req = none) {events : List (Event Row)} {s' : System Row}
    (hrun : runOps (System.step packs) s events = some s') : s' = s := by
  cases events with
  | nil => exact (Option.some_inj.mp hrun).symm
  | cons e events => cases e <;> simp [System.step, h] at hrun

/-- No key is looked at. -/
def BatchRequest.Unsplit (cur : BatchRequest Row) (tableDef : KeyTable) : Prop :=
  (cur.refusal tableDef).isSome ∨ cur.keys.HasKeys tableDef ∧ cur.result.resultCode < 0

theorem req_taskNotify (cur : BatchRequest Row) (h : cur.Unsplit tableDef) :
    (cur.taskNotify tableDef).req = none := by
  rw [BatchRequest.taskNotify]
  split
  · rfl
  · next hnone =>
    obtain ⟨hkeys, hcode⟩ := h.resolve_left (by simp [hnone])
    dsimp only
    rw [if_neg (not_le.mpr ((decodeKeyList_pos_iff cur.keys).mpr hkeys)), if_pos hcode,
      System.secondPass, if_pos rfl]
    exact System.req_delete _

/-- Between two rounds of a loop in which no sub-task is replied to. -/
def System.looped (r₀ : TaskResult Row) (keys : List Key) (totalReq : Int) (k : Nat) : System Row :=
  ⟨r₀, some ⟨true, keys, fun _ => false, 0, totalReq, k, true⟩, .split k, List.range k,
    List.range k, [], []⟩

theorem exists_run_looped (totalReq : Int) {k : Nat} (hk : k ≤ (keys.takeWhile packs).length) :
    ∃ events, runOps (System.step packs) (System.looped r₀ keys totalReq 0) events =
      some (System.looped r₀ keys totalReq k) := by
  induction k with
  | zero => exact ⟨[], rfl⟩
  | succ k ih =>
    obtain ⟨events, hrun⟩ := ih (Nat.le_of_succ_le hk)
    have hkey := (List.takeWhile_prefix packs).getElem hk
    have hpacks := mem_takeWhile_imp (getElem_mem hk)
    rw [hkey] at hpacks
    have hstep : runOps (System.step packs) (System.looped r₀ keys totalReq k)
        [.advance, .advance] = some (System.looped r₀ keys totalReq (k + 1)) := by
      have hlt : k < keys.length := lt_of_lt_of_le hk (List.takeWhile_prefix packs).length_le
      simp [System.step, System.looped, System.advance, hpacks, hlt, range_succ]
    refine ⟨events ++ [.advance, .advance], ?_⟩
    rw [runOps, foldlM_append, ← runOps, hrun]
    exact hstep

/-- A table with one integer key, `k`. -/
def oneKeyTable : KeyTable := ⟨1, fun _ => 0, fun _ => .signed, false⟩

/-- A batch that announces a key and has no value for it. -/
def missingValue : BatchRequest Nat where
  requestCode := .get
  limitStart := 0
  limitCount := 0
  keys := .network [2, 0, 0, 0, 107, 0] 1 []
  result := ⟨0, "", "", 0, 0, none⟩

end ISearch.Task

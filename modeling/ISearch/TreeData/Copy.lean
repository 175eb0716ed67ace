import ISearch.TreeData.Bookkeeping

/-!
# From a raw node to a tree node and back (`tree_data.cc`)

`copy_tree_all` inserts the rows of a raw node one by one, each as a clean row; when memory runs out
it takes down what it has built, and the caller may try once more. `copy_raw_all` appends the rows
of the records in index order.
-/

namespace ISearch.TreeData

open TTree BufferProcess State List

variable {K R : Type}

/-- `destroy_sub_tree`: `Ttree::Destroy` frees the records of every T-tree node. -/
def State.destroySubTree (st : State K R) : State K R :=
  { st with
    root := .nil
    live := fun h => st.live h && !decide (h ∈ st.handles)
    data := ⟨0, 0, 0, 0, .nil⟩ }

/-- `copy_tree_all`; other codes of `insert_row` than `EC_NO_MEM` are passed over. -/
def copyTreeAll (T : Table K R) (env : Mallocator) :
    List (Row R) → State K R → Option (Int × State K R)
  | [], st => some (0, st)
  | r :: rows, st => do
    let (iRet, st) ← insertRow T env r.value false st
    if iRet = ecNoMem then return (ecNoMem, st.destroySubTree)
    copyTreeAll T env rows st

/-- The loop of `copy_raw_all`; `appends` says whether `append_n_records` has memory when so many
records are left. -/
def copyRecords (st : State K R) (appends : Nat → Bool) :
    List Handle → List (Row R) → Int × List (Row R)
  | [], raw => (0, raw)
  | h :: hs, raw =>
    if appends hs.length then copyRecords st appends hs (raw ++ (st.mem h).rows)
    else (ecNoMem, raw)

/-- `copy_raw_all`: the code, and the rows of the raw node. -/
def copyRawAll (st : State K R) (appends : Nat → Bool) (raw : List (Row R)) :
    Int × List (Row R) :=
  if st.data.nodeCnts = 0 then (1, raw)
  else copyRecords st appends (st.root.traverseForward (visit st 0) ⟨[], 0⟩).handles raw

/-- A node as `Init` and `destroy_sub_tree` leave it. -/
structure State.Bare (st : State K R) : Prop where
  root : st.root = .nil
  live : ∀ h, st.live h = false
  data : st.data = ⟨0, 0, 0, 0, .nil⟩

/-- The rows in index order, those of one index value as they come. -/
structure Table.Sorts [LinearOrder K] (T : Table K R) (rows sorted : List (Row R)) : Prop where
  perm : sorted.Perm rows
  pairwise : sorted.Pairwise fun r r' => T.index r.value ≤ T.index r'.value
  filter : ∀ k, (sorted.filter fun r => T.index r.value = k) =
    rows.filter fun r => T.index r.value = k

/-- What a conversion leaves: the rows in index order, and the counters of the root. -/
structure Converted [LinearOrder K] (T : Table K R) (rows : List (Row R)) (st : State K R) :
    Prop where
  sorts : T.Sorts rows st.rows
  inv : st.Inv T
  full : st.Full
  booked : Booked T st

variable [LinearOrder K] {T : Table K R} {env : Mallocator} {st st' : State K R}
  {rows : List (Row R)}

/-- The conversion by `copy_tree_all`, tried once more if other nodes could be purged, and back. -/
structure KeepsRows (T : Table K R) (rows : List (Row R)) : Prop where
  /-- It comes to an end, and fails without memory only. -/
  ends : ∀ env purged st, st.Bare → ∃ iRet st',
    retry purged (withUnit (copyTreeAll T env rows)) st = some (iRet, (), st') ∧
      (iRet = 0 ∨ iRet = ecNoMem ∧ ∃ n, env.fails n = true)
  /-- The raw node that it gives has the rows with their flags. -/
  back : ∀ env purged st, st.Bare → ∀ st',
    retry purged (withUnit (copyTreeAll T env rows)) st = some (0, (), st') →
    ∀ appends iRet raw, copyRawAll st' appends [] = (iRet, raw) → iRet ≠ ecNoMem →
      raw.Perm rows ∧ (iRet = 0 ∨ rows = [])
  /-- A conversion that failed at first has the rows and the counters of one that did not. -/
  same : ∀ env purged st, st.Bare → ∀ st',
    retry purged (withUnit (copyTreeAll T env rows)) st = some (0, (), st') →
    ∀ (env₁ : Mallocator) st₁ st₁', env₁.Unlimited → st₁.Bare →
      copyTreeAll T env₁ rows st₁ = some (0, st₁') →
      st'.rows = st₁'.rows ∧ st'.data.rowCnt = st₁'.data.rowCnt ∧
        st'.data.nodeCnts = st₁'.data.nodeCnts ∧ st'.data.totalRawSize = st₁'.data.totalRawSize

theorem Table.Sorts.unique {sorted sorted' : List (Row R)} (h : T.Sorts rows sorted)
    (h' : T.Sorts rows sorted') : sorted = sorted' :=
  eq_of_filter_key_eq h.pairwise h'.pairwise fun k => (h.filter k).trans (h'.filter k).symm

theorem pairwise_rows (hinv : st.Inv T) :
    st.rows.Pairwise fun r r' => T.index r.value ≤ T.index r'.value := by
  rw [State.rows, pairwise_flatMap]
  refine ⟨fun h hh => ?_, hinv.sorted.imp_of_mem fun hx hy hlt r hr r' hr' => ?_⟩
  · refine pairwise_of_forall_mem_list fun r hr r' hr' => ?_
    rw [hinv.index h hh r hr, hinv.index h hh r' hr']
  · rw [hinv.index _ hx r hr, hinv.index _ hy r' hr']
    exact hlt.le

/-- The rows of an index value are those of its record. -/
theorem filter_rows_eq (hinv : st.Inv T) {h : Handle} (hh : h ∈ st.handles) {k : K}
    (hk : st.keyOf h = k) : (st.rows.filter fun r => T.index r.value = k) = (st.mem h).rows := by
  subst hk
  have hone : (st.handles.filter fun g => st.keyOf g = st.keyOf h) = [h] := by
    have hbeq : (st.handles.filter fun g => st.keyOf g = st.keyOf h) =
        st.handles.filter (· == h) := by
      refine filter_congr fun g hg => ?_
      by_cases hgh : g = h
      · simp [hgh]
      · have hkey : st.keyOf g ≠ st.keyOf h := fun heq => hgh (hinv.sorted.eq_of_key_eq hg hh heq)
        simp [hgh, hkey]
    rw [hbeq, filter_beq, count_eq_one_of_mem hinv.sorted.nodup hh, replicate_one]
  rw [State.rows, filter_flatMap_index (fun k => decide (k = st.keyOf h)) hinv.index, hone,
    flatMap_singleton]

theorem filter_rows_eq_nil (hinv : st.Inv T) {k : K} (hk : ∀ h ∈ st.handles, st.keyOf h ≠ k) :
    (st.rows.filter fun r => T.index r.value = k) = [] := by
  refine filter_eq_nil_iff.mpr fun r hr => ?_
  obtain ⟨h, hh, hrh⟩ := mem_flatMap.mp hr
  rw [hinv.index h hh r hrh]
  simpa using hk h hh

/-! ## One insertion -/

theorem State.Bare.converted (h : st.Bare) : Converted T [] st := by
  have hhandles : st.handles = [] := by rw [State.handles, h.root]; rfl
  have hrows : st.rows = [] := by rw [State.rows, hhandles]; rfl
  have hnone : ∀ g, g ∉ st.handles := fun g hg => by rw [hhandles] at hg; cases hg
  have hsorts : T.Sorts [] st.rows := by
    rw [hrows]
    exact ⟨.rfl, .nil, fun _ => rfl⟩
  refine ⟨hsorts, ⟨?_, ?_, ?_, ?_, ?_, ?_⟩, ?_, ⟨?_, ?_, ?_, ?_⟩⟩
  · rw [h.root]
    trivial
  · rw [hhandles]
    exact .nil
  · exact fun g => iff_of_false (by rw [h.live g]; decide) (hnone g)
  · exact fun g hg => absurd hg (hnone g)
  · exact fun g hg => absurd hg (hnone g)
  · exact fun g hg => absurd hg (hnone g)
  · exact fun g hg => absurd hg (hnone g)
  · rw [h.data, hrows]
    rfl
  · rw [h.data, hhandles]
    rfl
  · rw [h.data, hrows]
    rfl
  · rw [h.data, h.root]

theorem Converted.inserted (hc : Converted T rows st) {row : R} {dirty : Bool}
    (hi : Inserted env T row dirty st st') : Converted T (rows ++ [⟨row, dirty⟩]) st' := by
  have hinv' := hi.inv hc.inv
  obtain ⟨a, b, hst, hst'⟩ := hi.rowsChange hc.inv
  refine ⟨⟨?_, pairwise_rows hinv', fun k => ?_⟩, hinv', hi.full hc.inv hc.full,
    hc.booked.inserted hc.inv hi⟩
  · have hperm := hc.sorts.perm
    rw [hst, append_nil] at hperm
    rw [hst', append_assoc]
    refine (perm_append_comm.append_left a).trans ?_
    rw [← append_assoc]
    exact hperm.append_right [⟨row, dirty⟩]
  rw [filter_append, ← hc.sorts.filter k]
  by_cases hk : T.index row = k
  · subst hk
    rw [filter_cons_of_pos (by simp), filter_nil]
    cases hi.change with
    | added record hnew hadds hkey hrows =>
      have hmem : st.calls ∈ st'.handles := hadds.spliced.mem_iff.mpr (.inl rfl)
      rw [filter_rows_eq_nil hc.inv hnew, nil_append, filter_rows_eq hinv' hmem
        (by rw [State.keyOf, hadds.mem_self, hkey]), hadds.mem_self, hrows]
    | extended h h' record hh hindex hw hkey hrows =>
      have hmem : h' ∈ st'.handles := (hw.mem_handles_iff hh).mpr (.inl rfl)
      rw [filter_rows_eq hc.inv hh hindex, filter_rows_eq hinv' hmem
        (by rw [State.keyOf, hw.mem_self, hkey]), hw.mem_self, hrows]
  · rw [hst, hst']
    simp [hk]

theorem Refused.bare_destroySubTree (h : Refused env st st') (hinv : st.Inv T) :
    st'.destroySubTree.Bare where
  root := rfl
  data := rfl
  live g := by
    have hhandles : st'.handles = st.handles := congrArg TtreeNode.toList h.root
    change (st'.live g && !decide (g ∈ st'.handles)) = false
    rw [h.live, hhandles]
    by_cases hg : g ∈ st.handles
    · simp [hg]
    · simp [Bool.eq_false_iff.mpr (mt (hinv.live_iff g).mp hg)]

/-- The rows as `copy_tree_all` inserts them. -/
def cleaned (rows : List (Row R)) : List (Row R) := rows.map fun r => ⟨r.value, false⟩

/-- All rows are inserted as clean ones, or memory runs out and the node is bare. -/
theorem copyTreeAll_spec (env : Mallocator) (rows : List (Row R)) (H : T.Orders)
    {done : List (Row R)} (hc : Converted T done st) :
    (∃ st', copyTreeAll T env rows st = some (0, st') ∧ Converted T (done ++ cleaned rows) st') ∨
      ∃ st', copyTreeAll T env rows st = some (ecNoMem, st') ∧ st'.Bare ∧
        ∃ n, env.fails n = true := by
  induction rows generalizing st done with
  | nil => exact .inl ⟨st, rfl, by rwa [cleaned, map_nil, append_nil]⟩
  | cons r rows ih =>
    obtain ⟨st₁, heq, hrefused⟩ | ⟨st₁, heq, hins⟩ :=
      insertRow_cases env H hc.inv r.value false
    · refine .inr ⟨st₁.destroySubTree, ?_, hrefused.bare_destroySubTree hc.inv, hrefused.failed⟩
      simp only [copyTreeAll, heq, Option.bind_eq_bind, Option.bind_some, if_true, Option.pure_def]
    · have hstep : copyTreeAll T env (r :: rows) st = copyTreeAll T env rows st₁ := by
        simp only [copyTreeAll, heq, Option.bind_eq_bind, Option.bind_some]
        rw [if_neg (by decide)]
      have hrest := ih (hc.inserted hins)
      rw [append_assoc] at hrest
      rw [hstep]
      exact hrest

/-- So does the second attempt, on the node that the first one leaves bare. -/
theorem retry_copyTreeAll (H : T.Orders) (env : Mallocator) (purged : Bool) (rows : List (Row R))
    (h : st.Bare) :
    (∃ st', retry purged (withUnit (copyTreeAll T env rows)) st = some (0, (), st') ∧
      Converted T (cleaned rows) st') ∨
    ∃ st', retry purged (withUnit (copyTreeAll T env rows)) st = some (ecNoMem, (), st') ∧
      ∃ n, env.fails n = true := by
  obtain ⟨st₁, heq, hc⟩ | ⟨st₁, heq, hbare, hfails⟩ :=
    copyTreeAll_spec env rows H (h.converted (T := T))
  · refine .inl ⟨st₁, ?_, hc⟩
    rw [retry, withUnit, heq]
    rfl
  · cases purged with
    | false =>
      refine .inr ⟨st₁, ?_, hfails⟩
      rw [retry, withUnit, heq]
      rfl
    | true =>
      have hretry : retry true (withUnit (copyTreeAll T env rows)) st =
          withUnit (copyTreeAll T env rows) st₁ := by
        rw [retry, withUnit, heq]
        rfl
      rw [hretry]
      obtain ⟨st₂, heq₂, hc⟩ | ⟨st₂, heq₂, -⟩ :=
        copyTreeAll_spec env rows H (hbare.converted (T := T))
      · exact .inl ⟨st₂, by rw [withUnit, heq₂]; rfl, hc⟩
      · exact .inr ⟨st₂, by rw [withUnit, heq₂]; rfl, hfails⟩

/-! ## And back -/

omit [LinearOrder K] in
theorem copyRecords_eq {appends : Nat → Bool} {hs : List Handle} {raw raw' : List (Row R)}
    {iRet : Int} (h : copyRecords st appends hs raw = (iRet, raw')) (hne : iRet ≠ ecNoMem) :
    iRet = 0 ∧ raw' = raw ++ hs.flatMap fun h => (st.mem h).rows := by
  induction hs generalizing raw with
  | nil =>
    cases h
    exact ⟨rfl, by simp⟩
  | cons g hs ih =>
    rw [copyRecords] at h
    split at h
    · obtain ⟨hret, hraw⟩ := ih h
      exact ⟨hret, by rw [hraw, flatMap_cons, append_assoc]⟩
    · cases h
      exact absurd rfl hne

omit [LinearOrder K] in
theorem copyRawAll_ne_ecNoMem (st : State K R) (raw : List (Row R)) :
    (copyRawAll st (fun _ => true) raw).1 ≠ ecNoMem := by
  have hloop (hs : List Handle) (raw : List (Row R)) :
      (copyRecords st (fun _ => true) hs raw).1 = 0 := by
    induction hs generalizing raw with
    | nil => rfl
    | cons h hs ih => rw [copyRecords, if_pos rfl, ih]
  rw [copyRawAll]
  split
  · exact (by decide : (1 : Int) ≠ ecNoMem)
  · rw [hloop]
    decide

/-- The records of a converted node are appended in index order; without records there is nothing to
append, and the code is 1. -/
theorem Converted.copyRawAll_eq (hc : Converted T rows st) (hlen : rows.length < 2 ^ 32)
    {appends : Nat → Bool} {iRet : Int} {raw : List (Row R)}
    (h : copyRawAll st appends [] = (iRet, raw)) (hne : iRet ≠ ecNoMem) :
    raw = st.rows ∧ (iRet = 0 ∨ rows = []) := by
  have hrowsLen := hc.sorts.perm.length_eq
  rw [copyRawAll] at h
  split at h
  · rename_i hcnts
    cases h
    have hle : st.handles.length ≤ st.rows.length := by
      rw [← length_indexValues hc.inv hc.full, indexValues]
      exact (dedup_sublist _).length_le.trans (by rw [length_map])
    have hnone : st.handles.length = 0 := by
      have hmod := congrArg UInt32.toNat (hc.booked.nodeCnts.symm.trans hcnts)
      rw [UInt32.toNat_ofNat', Nat.mod_eq_of_lt (by omega)] at hmod
      exact hmod
    have hnil : st.rows = [] := by
      rw [State.rows, length_eq_zero_iff.mp hnone, flatMap_nil]
    refine ⟨hnil.symm, .inr ?_⟩
    rw [hnil] at hrowsLen
    exact length_eq_zero_iff.mp hrowsLen.symm
  · obtain ⟨hret, hraw⟩ := copyRecords_eq h hne
    rw [TtreeNode.traverseForward_eq, foldl_visit, taken_zero, nil_append, nil_append]
      at hraw
    exact ⟨hraw, .inl hret⟩

/-- A conversion and its way back keep the rows and their flags where no row is dirty. -/
theorem keepsRows_iff (H : T.Orders) (hlen : rows.length < 2 ^ 32) :
    KeepsRows T rows ↔ ∀ r ∈ rows, r.dirty = false := by
  have hclean (hall : ∀ r ∈ rows, r.dirty = false) : cleaned rows = rows := by
    refine (map_congr_left fun r hr => ?_).trans (map_id rows)
    rw [← hall r hr]
    rfl
  have hcleanLen : (cleaned rows).length < 2 ^ 32 := by rwa [cleaned, length_map]
  have hconverted {env : Mallocator} (purged : Bool) {st st' : State K R}
      (hbare : st.Bare)
      (hrun : retry purged (withUnit (copyTreeAll T env rows)) st = some (0, (), st')) :
      Converted T (cleaned rows) st' := by
    obtain ⟨st₁, heq, hc⟩ | ⟨st₁, heq, -⟩ := retry_copyTreeAll H env purged rows hbare
    · rw [heq] at hrun
      cases hrun
      exact hc
    · rw [heq] at hrun
      cases hrun
  constructor
  · intro hkeeps r hr
    let st : State K R := .init (fun _ => ⟨0, T.index r.value, []⟩) 0 0 false
    have hbare : st.Bare := ⟨rfl, fun _ => rfl, rfl⟩
    obtain ⟨st', heq, hc⟩ | ⟨st', -, n, hn⟩ :=
      retry_copyTreeAll H plainMallocator false rows hbare
    · have hmem := copyRawAll_ne_ecNoMem st' ([] : List (Row R))
      obtain ⟨hraw, -⟩ := hc.copyRawAll_eq hcleanLen rfl hmem
      have hperm := (hkeeps.back _ _ _ hbare st' heq _ _ _ rfl hmem).1
      rw [hraw] at hperm
      obtain ⟨r', -, rfl⟩ := mem_map.mp (hc.sorts.perm.subset (hperm.symm.subset hr))
      rfl
    · cases hn
  · intro hall
    refine ⟨fun env purged st hbare => ?_,
      fun env purged st hbare st' hrun appends iRet raw hcopy hne => ?_,
      fun env purged st hbare st' hrun env₁ st₁ st₁' hok hbare₁ hrun₁ => ?_⟩
    · obtain ⟨st₁, heq, -⟩ | ⟨st₁, heq, hfails⟩ := retry_copyTreeAll H env purged rows hbare
      · exact ⟨0, st₁, heq, .inl rfl⟩
      · exact ⟨_, st₁, heq, .inr ⟨rfl, hfails⟩⟩
    · have hc := hconverted _ hbare hrun
      obtain ⟨rfl, hret⟩ := hc.copyRawAll_eq hcleanLen hcopy hne
      rw [hclean hall] at hc hret
      exact ⟨hc.sorts.perm, hret⟩
    · have hc := hconverted _ hbare hrun
      have hc₁ : Converted T (cleaned rows) st₁' :=
        hconverted false hbare₁ (by rw [retry, withUnit, hrun₁]; rfl)
      have hrows := hc.sorts.unique hc₁.sorts
      refine ⟨hrows, ?_, ?_, ?_⟩
      · rw [hc.booked.rowCnt, hc₁.booked.rowCnt, hrows]
      · rw [hc.booked.nodeCnts, hc₁.booked.nodeCnts, ← length_indexValues hc.inv hc.full,
          ← length_indexValues hc₁.inv hc₁.full, indexValues, indexValues, hrows]
      · rw [hc.booked.totalRawSize, hc₁.booked.totalRawSize, hrows]

theorem keepsRows_clean : KeepsRows natTable [⟨(3, 7), false⟩, ⟨(1, 4), false⟩, ⟨(3, 5), false⟩] :=
  (keepsRows_iff natTable_orders (by decide)).mpr (by decide)

/-- The flag of a dirty row is lost. -/
theorem not_keepsRows_dirty : ¬KeepsRows natTable [⟨(3, 7), true⟩] := by
  intro h
  obtain ⟨st', hst'⟩ : ∃ st', retry false (withUnit (copyTreeAll natTable plainMallocator
      [⟨(3, 7), true⟩])) emptyNode = some (0, (), st') := ⟨_, rfl⟩
  have hbare : emptyNode.Bare := ⟨rfl, fun _ => rfl, rfl⟩
  have hraw : ((retry false (withUnit (copyTreeAll natTable plainMallocator
      [⟨(3, 7), true⟩])) emptyNode).map fun o => copyRawAll o.2.2 (fun _ => true) []) =
        some (0, [⟨(3, 7), false⟩]) := by rfl
  rw [hst'] at hraw
  have hperm := (h.back _ _ _ hbare st' hst' _ _ _ (Option.some.inj hraw) (by decide)).1
  exact absurd (hperm.subset mem_cons_self) (by decide)

end ISearch.TreeData

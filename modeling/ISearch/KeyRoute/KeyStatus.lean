import ISearch.KeyRoute.KeySet
import Mathlib.Data.List.Find

/-!
# The status of a key

Seen through its calls, the set of migrated keys is a map from keys to a status: `Insert` gives a
key that is not there the status `migrateStart`, and `Migrated` a key that is there the status
`migrateSuccess`. The records of a set in use never overlap, so a call changes the status of no
other key.
-/

namespace ISearch.KeyRoute

open Function
open KeyFormat (Bytes)

namespace FileBackedKeySet

/-- The status byte in front of a key that is in the set. -/
def status (s : FileBackedKeySet) (key : Nat → UInt8) : Option UInt8 :=
  (s.find key).map fun offset => s.file (offset - 1)

variable {s : FileBackedKeySet} {key key' : Nat → UInt8}

theorem contains_false : s.contains key false = (s.status key).isSome := by
  rw [contains, status]
  cases s.find key <;> rfl

theorem contains_true : s.contains key true = (s.status key == some migrateSuccess) := by
  rw [contains, status]
  cases s.find key <;> rfl

/-! ## Which record a key is -/

section Layout

variable {keySize : UInt8} {file : Nat → UInt8} {start stop : Nat} {rs : List (Nat × Nat)}

theorem Layout.length_eq (h : Layout keySize file stop start rs) :
    ∀ r ∈ rs, r.2 = recordLen keySize file (r.1 - 1) := by
  induction h with
  | nil => exact nofun
  | cons rest ih => exact List.forall_mem_cons.mpr ⟨rfl, ih⟩

end Layout

/-- The record at an offset is the key. -/
def Matches (s : FileBackedKeySet) (key : Nat → UInt8) (offset : Nat) : Prop :=
  slice s.file offset (s.keyLen key) = s.keyAt key

/-- A record that starts with the bytes of a key is as long as the key. -/
theorem Matches.length {stop : Nat} {rs : List (Nat × Nat)}
    (hlayout : Layout s.keySize s.file stop metaSize rs) {r : Nat × Nat} (hr : r ∈ rs)
    (h : s.Matches key r.1) : r.2 = s.keyLen key := by
  have hlen := hlayout.length_eq r hr
  have hpos := (hlayout.bounds r hr).1
  rw [recordLen] at hlen
  rw [keyLen]
  by_cases hsize : s.keySize = 0
  · rw [if_pos hsize, Nat.sub_add_cancel (Nat.one_le_of_lt hpos)] at hlen
    rw [if_pos hsize, hlen]
    have hfirst := congrArg (fun l => l[0]?) h
    simp only [keyAt, keyLen, if_pos hsize, getElem?_slice, Nat.zero_lt_succ, if_true,
      add_zero, Option.some.injEq] at hfirst
    rw [hfirst]
  · rw [if_neg hsize] at hlen ⊢
    exact hlen

/-- Keys of one record are equal. -/
theorem Matches.keyAt_eq {stop : Nat} {rs : List (Nat × Nat)}
    (hlayout : Layout s.keySize s.file stop metaSize rs) {r : Nat × Nat} (hr : r ∈ rs)
    (h : s.Matches key r.1) (h' : s.Matches key' r.1) : s.keyAt key' = s.keyAt key := by
  have hlen : s.keyLen key' = s.keyLen key :=
    (h'.length hlayout hr).symm.trans (h.length hlayout hr)
  rw [← h, ← h', hlen]

section Keep

variable {s' : FileBackedKeySet} {stop : Nat} {rs : List (Nat × Nat)}

theorem keyLen_congr (hsize : s'.keySize = s.keySize) : s'.keyLen key = s.keyLen key := by
  rw [keyLen, keyLen, hsize]

theorem keyAt_congr (hsize : s'.keySize = s.keySize) : s'.keyAt key = s.keyAt key := by
  rw [keyAt, keyAt, keyLen_congr hsize]

theorem matches_congr (hlayout : Layout s.keySize s.file stop metaSize rs)
    (hsize : s'.keySize = s.keySize)
    (hsame : ∀ r ∈ rs, slice s'.file r.1 r.2 = slice s.file r.1 r.2) {r : Nat × Nat}
    (hr : r ∈ rs) : s'.Matches key r.1 ↔ s.Matches key r.1 := by
  have hlayout' : Layout s'.keySize s'.file stop metaSize rs := by
    rw [hsize]
    exact hlayout.congr hsame
  constructor
  · intro h
    have hlen := h.length hlayout' hr
    rw [Matches, ← hlen, hsame r hr, keyAt_congr hsize, hlen, keyLen_congr hsize] at h
    exact h
  · intro h
    rw [Matches, keyLen_congr hsize, ← h.length hlayout hr, hsame r hr, h.length hlayout hr,
      keyAt_congr hsize]
    exact h

theorem mem_bucket {rs : List (Nat × Nat)} {b offset : Nat}
    (htable : s.buckets = tableOf s.file rs fun _ => []) (h : offset ∈ s.buckets b) :
    ∃ r ∈ rs, r.1 = offset := by
  rw [htable] at h
  exact List.mem_map.mp ((mem_tableOf h).resolve_right List.not_mem_nil)

section

variable (hlayout : Layout s.keySize s.file stop metaSize rs)
  (htable : s.buckets = tableOf s.file rs fun _ => []) (hsize : s'.keySize = s.keySize)
  (hsame : ∀ r ∈ rs, slice s'.file r.1 r.2 = slice s.file r.1 r.2)

include hlayout htable hsize hsame

theorem find?_congr (key : Nat → UInt8) :
    ((s.buckets (bucketOf (s.keyAt key))).find? fun offset =>
      slice s'.file offset (s.keyLen key) = s.keyAt key) = s.find key := by
  refine List.find?_congr fun offset hoffset => ?_
  obtain ⟨r, hr, rfl⟩ := mem_bucket htable hoffset
  have hiff : s'.Matches key r.1 ↔ s.Matches key r.1 := matches_congr hlayout hsize hsame hr
  rw [Matches, Matches, keyAt_congr hsize, keyLen_congr hsize] at hiff
  exact decide_eq_decide.mpr hiff

theorem find_congr (hbuckets : s'.buckets = s.buckets) : s'.find key = s.find key := by
  rw [find, keyAt_congr hsize, keyLen_congr hsize, hbuckets,
    find?_congr hlayout htable hsize hsame]

/-- The search in a set that has a new record, of the key `key`. -/
theorem find_record {offset len : Nat}
    (hlayout' : Layout s'.keySize s'.file s'.writePos metaSize (rs ++ [(offset, len)]))
    (hmatches : s'.Matches key offset)
    (hbuckets : s'.buckets = update s.buckets (bucketOf (s.keyAt key))
      (offset :: s.buckets (bucketOf (s.keyAt key)))) :
    s'.find key' = if s.keyAt key' = s.keyAt key then some offset else s.find key' := by
  have hrest := find?_congr hlayout htable hsize hsame key'
  rw [find, keyAt_congr hsize, keyLen_congr hsize, hbuckets]
  split_ifs with hkey
  · have hmatches' : slice s'.file offset (s.keyLen key') = s.keyAt key' := by
      have hlen : s.keyLen key' = s.keyLen key := by
        simpa only [keyAt, length_slice] using congrArg List.length hkey
      rw [Matches, keyAt_congr hsize, keyLen_congr hsize] at hmatches
      rw [hlen, hkey]
      exact hmatches
    rw [hkey, update_self, List.find?_cons_of_pos (by simpa [hkey] using hmatches')]
  by_cases hbucket : bucketOf (s.keyAt key') = bucketOf (s.keyAt key)
  · -- the new record is in the chain of the key, but it is another one
    have hother : ¬slice s'.file offset (s.keyLen key') = s.keyAt key' := by
      intro hmatches'
      have hmatches' : s'.Matches key' offset := by
        rw [Matches, keyAt_congr hsize, keyLen_congr hsize]
        exact hmatches'
      have := hmatches.keyAt_eq hlayout' (List.mem_append_right _ List.mem_cons_self) hmatches'
      rw [keyAt_congr hsize, keyAt_congr hsize] at this
      exact hkey this
    rw [hbucket, update_self, List.find?_cons_of_neg (by simpa using hother), ← hbucket,
      hrest]
  · rw [update_of_ne hbucket, hrest]

end

end Keep

/-- What a search finds is the record of the key. -/
theorem find_eq_some {rs : List (Nat × Nat)} {offset : Nat}
    (htable : s.buckets = tableOf s.file rs fun _ => []) (h : s.find key = some offset) :
    (∃ r ∈ rs, r.1 = offset) ∧ s.Matches key offset :=
  ⟨mem_bucket htable (List.mem_of_find?_eq_some h), by simpa [Matches] using List.find?_some h⟩

theorem find_of_keyAt (h : s.keyAt key' = s.keyAt key) : s.find key' = s.find key := by
  have hlen : s.keyLen key' = s.keyLen key := by
    simpa only [keyAt, length_slice] using congrArg List.length h
  rw [find, find, h, hlen]

theorem status_of_keyAt (h : s.keyAt key' = s.keyAt key) : s.status key' = s.status key := by
  rw [status, status, find_of_keyAt h]

/-! ## The calls -/

theorem Inv.status_migrated (h : s.Inv) : (s.migrated key).2.status key' =
    if s.keyAt key' = s.keyAt key then (s.status key').map fun _ => migrateSuccess
    else s.status key' := by
  obtain ⟨rs, hlayout, htable⟩ := h
  rw [FileBackedKeySet.migrated]
  cases hfind : s.find key with
  | none =>
    split_ifs with hkey
    · rw [status_of_keyAt hkey, status, hfind]
      rfl
    · rfl
  | some offset =>
    dsimp only
    obtain ⟨⟨r, hr, hoffset⟩, hmatches⟩ := find_eq_some htable hfind
    have hmem : offset ∈ rs.map Prod.fst := List.mem_map.mpr ⟨r, hr, hoffset⟩
    have hsame : ∀ r ∈ rs, slice (write s.file (offset - 1) [migrateSuccess]) r.1 r.2 =
        slice s.file r.1 r.2 := by
      intro r hr
      rcases hlayout.status_outside hmem r hr with hlt | hge
      · exact slice_write_after _ _ (by rw [List.length_singleton]; omega)
      · exact slice_write_before _ _ hge
    have hsearch : FileBackedKeySet.find { s with
        file := write s.file (offset - 1) [migrateSuccess] } key' = s.find key' :=
      find_congr hlayout htable rfl hsame rfl
    rw [status, hsearch]
    split_ifs with hkey
    · have hself : write s.file (offset - 1) [migrateSuccess] (offset - 1) = migrateSuccess := by
        simp [write]
      rw [status, find_of_keyAt hkey, hfind, Option.map_some, Option.map_some, Option.map_some]
      exact congrArg some hself
    · rw [status]
      cases hfind' : s.find key' with
      | none => rfl
      | some offset' =>
        obtain ⟨⟨r', hr', hoffset'⟩, hmatches'⟩ := find_eq_some htable hfind'
        -- two keys are no two names of one record
        have hne : offset' ≠ offset := by
          rintro rfl
          subst hoffset
          exact hkey (hmatches.keyAt_eq hlayout hr hmatches')
        have hpos := (hlayout.bounds r hr).1
        have hpos' := (hlayout.bounds r' hr').1
        rw [Option.map_some, Option.map_some]
        dsimp only
        rcases Nat.lt_or_gt_of_ne hne with hlt | hgt
        · rw [write_of_lt (by omega)]
        · rw [write_of_ge (by rw [List.length_singleton]; omega)]

/-- There is room for the record of a key, or the file can grow. -/
def Room (s : FileBackedKeySet) (key : Nat → UInt8) (canGrow : Bool) : Prop :=
  s.writePos + s.keyLen key + 1 ≤ s.size ∨ canGrow

/-- Without room the set stays as it is. -/
theorem insert_of_not_room {canGrow : Bool} (h : ¬s.Room key canGrow) :
    (s.insert key canGrow).2 = s := by
  rw [Room, not_or, not_le] at h
  rw [FileBackedKeySet.insert]
  split_ifs
  · rfl
  · rw [insertToFile, if_pos ⟨h.1, by simpa using h.2⟩]

theorem Inv.status_insert (h : s.Inv) {canGrow : Bool} (hroom : s.Room key canGrow) :
    (s.insert key canGrow).2.status key' =
      if s.keyAt key' = s.keyAt key then some ((s.status key').getD migrateStart)
      else s.status key' := by
  rw [FileBackedKeySet.insert]
  by_cases hcontains : s.contains key false
  · rw [if_pos hcontains]
    rw [contains_false] at hcontains
    obtain ⟨v, hv⟩ := Option.isSome_iff_exists.mp hcontains
    split_ifs with hkey
    · rw [status_of_keyAt hkey, hv, Option.getD_some]
    · rfl
  have hfits : ¬(s.writePos + s.keyLen key + 1 > s.size ∧ !canGrow) := by
    rintro ⟨hfull, hgrow⟩
    rcases hroom with hle | hcan
    · omega
    · simp [hcan] at hgrow
  rw [if_neg hcontains, insertToFile, if_neg hfits]
  obtain ⟨rs, hlayout, htable⟩ := h
  have hnone : s.status key = none := by
    rw [contains_false] at hcontains
    exact Option.not_isSome_iff_eq_none.mp hcontains
  dsimp only
  set s' : FileBackedKeySet := { s with
    size := if s.writePos + s.keyLen key + 1 > s.size then s.size + growFileSize else s.size
    file := write s.file s.writePos (migrateStart :: slice key 0 (s.keyLen key))
    writePos := s.writePos + (s.keyLen key + 1)
    buckets := insertToSet (write s.file s.writePos (migrateStart :: slice key 0 (s.keyLen key)))
      s.buckets (s.writePos + 1) (s.keyLen key) } with hs'
  have hlayout' : Layout s'.keySize s'.file s'.writePos metaSize
      (rs ++ [(s.writePos + 1, s.keyLen key)]) := hlayout.insertToFile
  have hmatches : s'.Matches key (s.writePos + 1) := by
    have hself := slice_write_self s.file s.writePos (migrateStart :: slice key 0 (s.keyLen key))
    rw [List.length_cons, length_slice, add_comm, slice_add] at hself
    exact (List.cons.inj hself).2
  have hsize : s'.keySize = s.keySize := rfl
  have hsame : ∀ r ∈ rs, slice s'.file r.1 r.2 = slice s.file r.1 r.2 := fun r hr =>
    slice_write_before _ _ (hlayout.bounds r hr).2
  have hbuckets : s'.buckets = update s.buckets (bucketOf (s.keyAt key))
      ((s.writePos + 1) :: s.buckets (bucketOf (s.keyAt key))) := by
    rw [← (show slice s'.file (s.writePos + 1) (s.keyLen key) = s.keyAt key from hmatches)]
    rfl
  have hfind : s'.find key' = if s.keyAt key' = s.keyAt key then some (s.writePos + 1)
      else s.find key' :=
    find_record hlayout htable hsize hsame hlayout' hmatches hbuckets
  rw [status, hfind]
  split_ifs with hkey
  · have hstart : s'.file s.writePos = migrateStart := by
      simp [hs', write]
    rw [status_of_keyAt hkey, hnone]
    exact congrArg some hstart
  · rw [status]
    cases hfind' : s.find key' with
    | none => rfl
    | some offset =>
      obtain ⟨⟨r, hr, rfl⟩, -⟩ := find_eq_some htable hfind'
      have hbounds := hlayout.bounds r hr
      have hstatus : s'.file (r.1 - 1) = s.file (r.1 - 1) := write_of_lt (by omega)
      exact congrArg some hstatus

@[simp] theorem keySize_insert (s : FileBackedKeySet) (key : Nat → UInt8) (canGrow : Bool) :
    (s.insert key canGrow).2.keySize = s.keySize := by
  rw [FileBackedKeySet.insert, insertToFile]
  split_ifs <;> rfl

@[simp] theorem keySize_migrated (s : FileBackedKeySet) (key : Nat → UInt8) :
    (s.migrated key).2.keySize = s.keySize := by
  rw [FileBackedKeySet.migrated]
  split <;> rfl

end FileBackedKeySet

end ISearch.KeyRoute

import ISearch.KeyFormat.Defs
import ISearch.Lib.Memory

/-!
# The set of migrated keys (`file_backed_key_set.cc`)

The keys that are on their way to another node, or have got there, are records of a mapped file: a
byte for the status, and the key. A hash table in memory holds the offsets of the keys. After a
restart `Load` builds it again from the records; it takes the status byte of a key of variable size
for the length byte, which stands behind it.

A key is passed as a pointer, here the memory from the pointer on.
-/

namespace ISearch.KeyRoute

open List
open KeyFormat (Bytes)

/-- A `char` as an unsigned number. -/
def ofChar (c : UInt8) : UInt32 := c.toInt8.toInt32.toUInt32

/-- The internal state of `new_hash`. -/
structure HashState where
  a : UInt32
  b : UInt32
  c : UInt32

/-- The macro `mix`. -/
def mix : HashState → HashState
  | ⟨a, b, c⟩ =>
    let a := (a - b - c) ^^^ (c >>> 13)
    let b := (b - c - a) ^^^ (a <<< 8)
    let c := (c - a - b) ^^^ (b >>> 13)
    let a := (a - b - c) ^^^ (c >>> 12)
    let b := (b - c - a) ^^^ (a <<< 16)
    let c := (c - a - b) ^^^ (b >>> 5)
    let a := (a - b - c) ^^^ (c >>> 3)
    let b := (b - c - a) ^^^ (a <<< 10)
    let c := (c - a - b) ^^^ (b >>> 15)
    ⟨a, b, c⟩

/-- Up to four bytes, the first one lowest. -/
def word (k : Bytes) : UInt32 :=
  ofChar (k.getD 0 0) + (ofChar (k.getD 1 0) <<< 8) + (ofChar (k.getD 2 0) <<< 16) +
    (ofChar (k.getD 3 0) <<< 24)

/-- The loop over the first bytes, twelve at a time, and the bytes left. -/
def mixBlocks : Nat → HashState → Bytes → HashState × Bytes
  | 0, s, k => (s, k)
  | fuel + 1, s, k =>
    if k.length ≥ 12 then
      mixBlocks fuel (mix ⟨s.a + word (k.take 4), s.b + word ((k.drop 4).take 4),
        s.c + word ((k.drop 8).take 4)⟩) (k.drop 12)
    else (s, k)

/-- `new_hash`. The first byte of `c` is reserved for the length. -/
def newHash (k : Bytes) : UInt32 :=
  let (s, rest) := mixBlocks k.length ⟨0x9e3779b9, 0x9e3779b9, 0x48545443⟩ k
  (mix ⟨s.a + word (rest.take 4), s.b + word ((rest.drop 4).take 4),
    s.c + .ofNat k.length + word (0 :: (rest.drop 8).take 3)⟩).c

/-! ## The set -/

def migrateStart : UInt8 := 1
def migrateSuccess : UInt8 := 2

def initFileSize : Nat := 4096 * 1024
def growFileSize : Nat := 1024 * 1024
def bucketSize : Nat := 1024 * 1024

/-- `sizeof(meta_info)`. -/
def metaSize : Nat := 16

/-- The file with its `meta_info`, and the chains of the hash table; the size of the keys is a key
format, 0 for keys of variable size. -/
structure FileBackedKeySet where
  keySize : UInt8
  file : Nat → UInt8
  size : Nat
  writePos : Nat
  buckets : Nat → List Nat

namespace FileBackedKeySet

variable (s : FileBackedKeySet)

/-- `Open`, of a file that is all zero then. -/
def openFile (keySize : UInt8) : FileBackedKeySet :=
  ⟨keySize, fun _ => 0, initFileSize, metaSize, fun _ => []⟩

/-- The length of the key at a pointer. -/
def keyLen (key : Nat → UInt8) : Nat :=
  if s.keySize = 0 then (key 0).toNat + 1 else s.keySize.toNat

/-- The key at a pointer. -/
def keyAt (key : Nat → UInt8) : Bytes := slice key 0 (s.keyLen key)

/-- The chain a key belongs to. -/
def bucketOf (k : Bytes) : Nat := (newHash k).toNat % bucketSize

/-- The search for a key that `Contains`, `is_migrating` and `Migrated` make. -/
def find (key : Nat → UInt8) : Option Nat :=
  (s.buckets (bucketOf (s.keyAt key))).find? fun offset =>
    slice s.file offset (s.keyLen key) = s.keyAt key

def contains (key : Nat → UInt8) (checkStatus : Bool) : Bool :=
  match s.find key with
  | some offset => !checkStatus || s.file (offset - 1) == migrateSuccess
  | none => false

def isMigrating (key : Nat → UInt8) : Bool :=
  match s.find key with
  | some offset => s.file (offset - 1) == migrateStart
  | none => false

/-- `Migrated`: the return code and the set. -/
def migrated (key : Nat → UInt8) : Int × FileBackedKeySet :=
  match s.find key with
  | some offset => (0, { s with file := write s.file (offset - 1) [migrateSuccess] })
  | none => (-1, s)

/-- `insert_to_set`, of the `len` bytes at an offset. -/
def insertToSet (file : Nat → UInt8) (buckets : Nat → List Nat) (offset len : Nat) :
    Nat → List Nat :=
  let hash := bucketOf (slice file offset len)
  Function.update buckets hash (offset :: buckets hash)

/-- `insert_to_file`: the offset of the key; `canGrow` says whether `ftruncate` and `mremap`
succeed. -/
def insertToFile (key : Nat → UInt8) (len : Nat) (canGrow : Bool) :
    Option (Nat × FileBackedKeySet) :=
  let grow := s.writePos + len + 1 > s.size
  if grow ∧ !canGrow then none
  else
    some (s.writePos + 1, { s with
      size := if grow then s.size + growFileSize else s.size
      file := write s.file s.writePos (migrateStart :: slice key 0 len)
      writePos := s.writePos + (len + 1) })

def insert (key : Nat → UInt8) (canGrow : Bool) : Int × FileBackedKeySet :=
  if s.contains key false then (0, s)
  else
    match s.insertToFile key (s.keyLen key) canGrow with
    | none => (-1, s)
    | some (k, s') => (0, { s' with buckets := insertToSet s'.file s'.buckets k (s.keyLen key) })

/-- The loop of `Load`. -/
def loadLoop (keySize : UInt8) (file : Nat → UInt8) (start stop : Nat)
    (buckets : Nat → List Nat) : Nat → List Nat :=
  if start < stop then
    if keySize = 0 then
      let keyLen := (file start).toNat + 1
      loadLoop keySize file (start + (keyLen + 1 + 1)) stop
        (insertToSet file buckets (start + 1) (keyLen + 1))
    else
      loadLoop keySize file (start + (keySize.toNat + 1)) stop
        (insertToSet file buckets (start + 1) keySize.toNat)
  else buckets
termination_by stop - start

/-- `Load`, from the file of a set. -/
def load : FileBackedKeySet :=
  { s with buckets := loadLoop s.keySize s.file metaSize s.writePos fun _ => [] }

/-! ## The records of the file -/

/-- The length of the key in the record at `start`. -/
def recordLen (keySize : UInt8) (file : Nat → UInt8) (start : Nat) : Nat :=
  if keySize = 0 then (file (start + 1)).toNat + 1 else keySize.toNat

/-- The offsets and lengths of the keys, as `insert_to_file` writes them. -/
def recordsFrom (keySize : UInt8) (file : Nat → UInt8) (start stop : Nat) : List (Nat × Nat) :=
  if start < stop then
    (start + 1, recordLen keySize file start) ::
      recordsFrom keySize file (start + (recordLen keySize file start + 1)) stop
  else []
termination_by stop - start

def records : List (Nat × Nat) := recordsFrom s.keySize s.file metaSize s.writePos

/-- The records `rs` fill the file from `start` to `stop`. -/
inductive Layout (keySize : UInt8) (file : Nat → UInt8) (stop : Nat) :
    Nat → List (Nat × Nat) → Prop
  | nil : Layout keySize file stop stop []
  | cons {start : Nat} {rs : List (Nat × Nat)}
      (rest : Layout keySize file stop (start + (recordLen keySize file start + 1)) rs) :
      Layout keySize file stop start ((start + 1, recordLen keySize file start) :: rs)

/-- The hash table of the keys `rs`. -/
def tableOf (file : Nat → UInt8) (rs : List (Nat × Nat)) (buckets : Nat → List Nat) :
    Nat → List Nat :=
  rs.foldl (fun buckets r => insertToSet file buckets r.1 r.2) buckets

section Layout

variable {keySize : UInt8} {file file' : Nat → UInt8} {start stop : Nat} {rs : List (Nat × Nat)}
  {buckets : Nat → List Nat}

theorem Layout.le (h : Layout keySize file stop start rs) : start ≤ stop := by
  induction h with
  | nil => exact le_rfl
  | cons rest ih => omega

theorem Layout.recordsFrom (h : Layout keySize file stop start rs) :
    FileBackedKeySet.recordsFrom keySize file start stop = rs := by
  induction h with
  | nil =>
    rw [FileBackedKeySet.recordsFrom]
    exact if_neg (lt_irrefl _)
  | cons rest ih =>
    have hle := rest.le
    rw [FileBackedKeySet.recordsFrom, if_pos (by omega), ih]

theorem Layout.bounds (h : Layout keySize file stop start rs) :
    ∀ r ∈ rs, start < r.1 ∧ r.1 + r.2 ≤ stop := by
  induction h with
  | nil => exact nofun
  | cons rest ih =>
    have hle := rest.le
    rw [forall_mem_cons]
    refine ⟨⟨Nat.lt_succ_self _, ?_⟩, fun r hr => ?_⟩
    · dsimp only
      omega
    · have := ih r hr
      omega

/-- The status byte of a record is in no key. -/
theorem Layout.status_outside (h : Layout keySize file stop start rs) {offset : Nat}
    (hoffset : offset ∈ rs.map Prod.fst) :
    ∀ r ∈ rs, offset - 1 < r.1 ∨ r.1 + r.2 ≤ offset - 1 := by
  induction h with
  | nil => exact nofun
  | @cons start rs rest ih =>
    have hbounds := rest.bounds
    rw [map_cons, mem_cons] at hoffset
    rw [forall_mem_cons]
    rcases hoffset with rfl | hlater
    · refine ⟨.inl (Nat.lt_succ_self _), fun r hr => .inl ?_⟩
      have := (hbounds r hr).1
      dsimp only
      omega
    · refine ⟨.inr ?_, ih hlater⟩
      obtain ⟨r, hr, rfl⟩ := mem_map.mp hlater
      have := (hbounds r hr).1
      dsimp only
      omega

/-- The records stay where they are while the bytes of the keys do. -/
theorem Layout.congr (h : Layout keySize file stop start rs)
    (hsame : ∀ r ∈ rs, slice file' r.1 r.2 = slice file r.1 r.2) :
    Layout keySize file' stop start rs := by
  induction h with
  | nil => exact .nil
  | @cons start rs rest ih =>
    obtain ⟨hfirst, hrest⟩ := forall_mem_cons.mp hsame
    have hlen : recordLen keySize file' start = recordLen keySize file start := by
      rw [recordLen, recordLen]
      by_cases hsize : keySize = 0
      · have hpos : 0 < recordLen keySize file start := by
          rw [recordLen, if_pos hsize]
          exact Nat.succ_pos _
        rw [if_pos hsize, if_pos hsize, slice_inj.mp hfirst (start + 1) le_rfl (by omega)]
      · rw [if_neg hsize, if_neg hsize]
    have := ih hrest
    rw [← hlen] at this ⊢
    exact .cons this

theorem Layout.snoc (h : Layout keySize file stop start rs)
    {len : Nat} (hlen : recordLen keySize file stop = len) :
    Layout keySize file (stop + (len + 1)) start (rs ++ [(stop + 1, len)]) := by
  induction h with
  | nil =>
    subst hlen
    exact .cons .nil
  | cons rest ih => exact .cons ih

theorem tableOf_cons (r : Nat × Nat) (rs : List (Nat × Nat)) :
    tableOf file (r :: rs) buckets = tableOf file rs (insertToSet file buckets r.1 r.2) := by
  rw [tableOf, foldl_cons, tableOf]

theorem tableOf_congr (hsame : ∀ r ∈ rs, slice file' r.1 r.2 = slice file r.1 r.2) :
    tableOf file' rs buckets = tableOf file rs buckets := by
  induction rs generalizing buckets with
  | nil => rw [tableOf, tableOf, foldl_nil, foldl_nil]
  | cons r rs ih =>
    obtain ⟨hfirst, hrest⟩ := forall_mem_cons.mp hsame
    have hinsert : insertToSet file' buckets r.1 r.2 = insertToSet file buckets r.1 r.2 := by
      simp only [insertToSet, hfirst]
    rw [tableOf_cons, tableOf_cons, hinsert, ih hrest]

theorem mem_tableOf {offset b : Nat} (h : offset ∈ tableOf file rs buckets b) :
    offset ∈ rs.map Prod.fst ∨ offset ∈ buckets b := by
  induction rs generalizing buckets with
  | nil =>
    rw [tableOf, foldl_nil] at h
    exact .inr h
  | cons r rs ih =>
    rw [tableOf_cons] at h
    rcases ih h with hlater | hinsert
    · exact .inl (mem_cons_of_mem _ hlater)
    simp only [insertToSet] at hinsert
    by_cases hb : b = bucketOf (slice file r.1 r.2)
    · subst hb
      rw [Function.update_self] at hinsert
      rcases mem_cons.mp hinsert with rfl | hold
      · exact .inl mem_cons_self
      · exact .inr hold
    · rw [Function.update_of_ne hb] at hinsert
      exact .inr hinsert

/-- The loader takes the record at an offset for what it is: always where the size of the keys is
fixed; else it takes the status for the length, and is right by chance. -/
def Read (keySize : UInt8) (file : Nat → UInt8) (r : Nat × Nat) : Prop :=
  keySize ≠ 0 ∨ (file (r.1 - 1)).toNat + 2 = r.2

theorem Layout.loadLoop (h : Layout keySize file stop start rs)
    (hread : ∀ r ∈ rs, Read keySize file r) :
    FileBackedKeySet.loadLoop keySize file start stop buckets = tableOf file rs buckets := by
  induction h generalizing buckets with
  | nil =>
    rw [FileBackedKeySet.loadLoop]
    exact if_neg (lt_irrefl _)
  | @cons start rs rest ih =>
    obtain ⟨hfirst, hrest⟩ := forall_mem_cons.mp hread
    have hle := rest.le
    rw [FileBackedKeySet.loadLoop, if_pos (by omega), tableOf_cons]
    by_cases hsize : keySize = 0
    · have hlen : (file start).toNat + 2 = recordLen keySize file start :=
        hfirst.resolve_left (not_not.mpr hsize)
      rw [if_pos hsize]
      dsimp only
      rw [← hlen] at ih
      rw [← hlen]
      exact ih hrest
    · have hlen : recordLen keySize file start = keySize.toNat := if_neg hsize
      rw [if_neg hsize]
      rw [hlen] at ih
      rw [hlen]
      exact ih hrest

end Layout

/-! ## Runs -/

/-- What every call keeps: the table holds the records of the file. -/
def Inv : Prop := ∃ rs, Layout s.keySize s.file s.writePos metaSize rs ∧
  s.buckets = tableOf s.file rs fun _ => []

theorem inv_openFile (keySize : UInt8) : Inv (openFile keySize) := ⟨[], .nil, rfl⟩

section Calls

variable {s : FileBackedKeySet} {key : Nat → UInt8}

theorem Inv.migrated (h : s.Inv) : (s.migrated key).2.Inv := by
  rw [FileBackedKeySet.migrated]
  cases hfind : s.find key with
  | none => exact h
  | some offset =>
    obtain ⟨rs, hlayout, htable⟩ := h
    have hmem : offset ∈ rs.map Prod.fst := by
      have := mem_of_find?_eq_some hfind
      rw [htable] at this
      exact (mem_tableOf this).resolve_right not_mem_nil
    have hsame : ∀ r ∈ rs, slice (write s.file (offset - 1) [migrateSuccess]) r.1 r.2 =
        slice s.file r.1 r.2 := by
      intro r hr
      rcases hlayout.status_outside hmem r hr with hlt | hge
      · exact slice_write_after _ _ (by rw [length_singleton]; omega)
      · exact slice_write_before _ _ hge
    exact ⟨rs, hlayout.congr hsame, by rw [tableOf_congr hsame]; exact htable⟩

/-- The file with a new record at its end. -/
theorem Layout.insertToFile {rs : List (Nat × Nat)}
    (h : Layout s.keySize s.file s.writePos metaSize rs) :
    Layout s.keySize (write s.file s.writePos (migrateStart :: slice key 0 (s.keyLen key)))
      (s.writePos + (s.keyLen key + 1)) metaSize (rs ++ [(s.writePos + 1, s.keyLen key)]) := by
  have hsame : ∀ r ∈ rs,
      slice (write s.file s.writePos (migrateStart :: slice key 0 (s.keyLen key))) r.1 r.2 =
        slice s.file r.1 r.2 := fun r hr => slice_write_before _ _ (h.bounds r hr).2
  refine (h.congr hsame).snoc ?_
  rw [recordLen]
  by_cases hsize : s.keySize = 0
  · have hlen : s.keyLen key = (key 0).toNat + 1 := if_pos hsize
    have hslice : slice key 0 (s.keyLen key) = key 0 :: slice key 1 (key 0).toNat := by
      rw [hlen, Nat.add_comm, slice_add]
      rfl
    have hfirst : write s.file s.writePos (migrateStart :: slice key 0 (s.keyLen key))
        (s.writePos + 1) = key 0 := by
      rw [hslice, write, if_pos (Nat.le_add_right _ _), Nat.add_sub_cancel_left,
        List.getElem?_cons_succ, List.getElem?_cons_zero, Option.getD_some]
    rw [if_pos hsize, hfirst, hlen]
  · rw [if_neg hsize, keyLen, if_neg hsize]

theorem Inv.insert (h : s.Inv) (canGrow : Bool) : (s.insert key canGrow).2.Inv := by
  rw [FileBackedKeySet.insert]
  split_ifs with hcontains
  · exact h
  by_cases hfail : s.writePos + s.keyLen key + 1 > s.size ∧ !canGrow
  · rw [FileBackedKeySet.insertToFile, if_pos hfail]
    exact h
  rw [FileBackedKeySet.insertToFile, if_neg hfail]
  obtain ⟨rs, hlayout, htable⟩ := h
  refine ⟨rs ++ [(s.writePos + 1, s.keyLen key)], hlayout.insertToFile, ?_⟩
  have hsame : ∀ r ∈ rs,
      slice (write s.file s.writePos (migrateStart :: slice key 0 (s.keyLen key))) r.1 r.2 =
        slice s.file r.1 r.2 := fun r hr => slice_write_before _ _ (hlayout.bounds r hr).2
  rw [tableOf, foldl_append, foldl_cons, foldl_nil]
  change insertToSet _ s.buckets _ _ = insertToSet _ (tableOf _ rs fun _ => []) _ _
  rw [tableOf_congr hsame, ← htable]

end Calls

/-- The calls that change the set. -/
inductive Call where
  | insert (key : Nat → UInt8) (canGrow : Bool)
  | migrated (key : Nat → UInt8)

def call (s : FileBackedKeySet) : Call → FileBackedKeySet
  | .insert key canGrow => (s.insert key canGrow).2
  | .migrated key => (s.migrated key).2

def run (calls : List Call) (s : FileBackedKeySet) : FileBackedKeySet := calls.foldl call s

theorem Inv.run {s : FileBackedKeySet} (h : s.Inv) (calls : List Call) : (run calls s).Inv := by
  induction calls generalizing s with
  | nil => exact h
  | cons c calls ih =>
    cases c with
    | insert key canGrow => exact ih (h.insert canGrow)
    | migrated key => exact ih h.migrated

theorem Inv.load_eq {s : FileBackedKeySet} (h : s.Inv)
    (hread : ∀ r ∈ s.records, Read s.keySize s.file r) : s.load = s := by
  obtain ⟨rs, hlayout, htable⟩ := h
  rw [records, hlayout.recordsFrom] at hread
  rw [load, hlayout.loadLoop hread, ← htable]

/-- The answers after a restart. -/
theorem load_answers (keySize : UInt8) (calls : List Call) {s : FileBackedKeySet}
    (hs : s = run calls (openFile keySize)) (hread : ∀ r ∈ s.records, Read s.keySize s.file r)
    (key : Nat → UInt8) :
    (∀ checkStatus, s.load.contains key checkStatus = s.contains key checkStatus) ∧
      s.load.isMigrating key = s.isMigrating key ∧
      (s.load.migrated key).1 = (s.migrated key).1 := by
  have hinv : s.Inv := by
    rw [hs]
    exact (inv_openFile keySize).run calls
  rw [hinv.load_eq hread]
  exact ⟨fun _ => rfl, rfl, rfl⟩

/-- The memory of a pointer to some bytes. -/
def pointTo (bytes : Bytes) : Nat → UInt8 := fun i => bytes.getD i 0

/-- Keys of four bytes, of which one has got to the other node. -/
theorem load_answers_fixed : ∃ s, s = run [.insert (pointTo [1, 2, 3, 4]) true,
      .insert (pointTo [5, 6, 7, 8]) true, .migrated (pointTo [1, 2, 3, 4])] (openFile 4) ∧
    s.load.contains (pointTo [1, 2, 3, 4]) true = true ∧
      s.load.isMigrating (pointTo [5, 6, 7, 8]) = true := by
  refine ⟨_, rfl, ?_, ?_⟩
  · rw [(load_answers 4 _ rfl (fun _ _ => .inl (by decide)) _).1]
    decide
  · rw [(load_answers 4 _ rfl (fun _ _ => .inl (by decide)) _).2.1]
    decide

/-- A key of variable size is not found again. -/
theorem load_loses_key : ∃ s, s = run [.insert (pointTo [1, 97]) true] (openFile 0) ∧
    s.contains (pointTo [1, 97]) false = true ∧
      s.load.contains (pointTo [1, 97]) false = false := by
  refine ⟨_, rfl, by decide, ?_⟩
  -- two is read as the length of the key, and its hash is taken of three bytes
  rw [load, loadLoop, if_pos (by decide), if_pos (by decide), loadLoop, if_neg (by decide)]
  decide

end FileBackedKeySet

end ISearch.KeyRoute

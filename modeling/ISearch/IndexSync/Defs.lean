import ISearch.KeyFormat.Defs
import ISearch.Lib.SortedMap
import Mathlib.Data.Prod.Lex
import Mathlib.Tactic.Linarith

/-!
# The ordered-set index (`sequence_search_index.cc`, `sync_index_timer.h`)

`SequenceSetIndex` keeps, for each application and field, a `std::set` of entries ordered by key and
document id. The eight scans of `GetRangeIndex` position an iterator in such a set with
`upper_bound` and walk from there.

An iterator is a position in the list of the entries; the position behind the last one is `end()`,
and `none` stands for reading the entry at it. Keys are integer-valued doubles.
-/

namespace ISearch.IndexSync

abbrev Bytes := List UInt8

/-- `RANGTYPE`. -/
inductive RangeType where
  | init
  | gele
  | gelt
  | gtle
  | gtlt
  | lt
  | gt
  | le
  | ge
  deriving DecidableEq, Repr

/-- The keys of a range. -/
def inRange {α : Type} [LinearOrder α] (start stop : α) : RangeType → α → Bool
  | .gele, k => start ≤ k ∧ k ≤ stop
  | .gelt, k => start ≤ k ∧ k < stop
  | .gtle, k => start < k ∧ k ≤ stop
  | .gtlt, k => start < k ∧ k < stop
  | .lt, k => k < stop
  | .gt, k => start < k
  | .le, k => k ≤ stop
  | .ge, k => start ≤ k
  | .init, _ => false

structure InvertIndexEntry where
  keyType : Nat
  key : Int
  docId : Bytes
  appid : Bytes
  field : Int
  docVersion : Int
  originalKey : Bytes
  isValid : Bool
  deriving DecidableEq, Repr

def eps : ℚ := 1 / 1000000

namespace InvertIndexEntry

/-- `InvertIndexEntry(appid, field, key_type, key)`. The constructor leaves the version and the
flag as they are in memory; no scan reads them from a bound. -/
def ofKey (appid : Bytes) (field : Int) (keyType : Nat) (key : Int) : InvertIndexEntry where
  keyType := keyType
  key := key
  docId := []
  appid := appid
  field := field
  docVersion := 0
  originalKey := []
  isValid := false

def eq (this src : InvertIndexEntry) : Bool := |(this.key : ℚ) - src.key| < eps

def lt (this src : InvertIndexEntry) : Bool := (this.key : ℚ) + eps < src.key

def le (this src : InvertIndexEntry) : Bool :=
  (this.key : ℚ) + eps < src.key || |(this.key : ℚ) - src.key| < eps

/-- `operator<`. -/
def less (this src : InvertIndexEntry) : Bool :=
  if |(this.key : ℚ) - src.key| < eps then this.docId < src.docId
  else (this.key : ℚ) + eps < src.key

/-- The place of an entry in a set: by key, and by document id among entries of one key. -/
def place (e : InvertIndexEntry) : ℤ ×ₗ Bytes := toLex (e.key, e.docId)

end InvertIndexEntry

theorem abs_sub_lt_eps {a b : Int} : |(a : ℚ) - b| < eps ↔ a = b := by
  rw [← Int.cast_sub, ← Int.cast_abs, eps]
  constructor
  · intro h
    by_contra hne
    have hpos : 1 ≤ |a - b| := Int.one_le_abs (sub_ne_zero_of_ne hne)
    have hcast : (1 : ℚ) ≤ (|a - b| : Int) := by exact_mod_cast hpos
    linarith
  · rintro rfl
    simp

theorem add_eps_lt {a b : Int} : (a : ℚ) + eps < b ↔ a < b := by
  rw [eps]
  constructor
  · intro h
    have hlt : (a : ℚ) < b := by linarith
    exact_mod_cast hlt
  · intro h
    have hcast : (a : ℚ) + 1 ≤ b := by exact_mod_cast h
    linarith

namespace InvertIndexEntry

variable {a b : InvertIndexEntry}

@[simp] theorem eq_iff : a.eq b = true ↔ a.key = b.key := by simp [eq, abs_sub_lt_eps]

@[simp] theorem eq_eq_false_iff : a.eq b = false ↔ a.key ≠ b.key := by
  rw [← Bool.not_eq_true, eq_iff]

@[simp] theorem lt_iff : a.lt b = true ↔ a.key < b.key := by simp [lt, add_eps_lt]

@[simp] theorem le_iff : a.le b = true ↔ a.key ≤ b.key := by
  simp [le, abs_sub_lt_eps, add_eps_lt, le_iff_lt_or_eq]

/-- `operator<` orders entries by their places. -/
@[simp] theorem less_iff : a.less b = true ↔ a.place < b.place := by
  rw [less, place, place, Prod.Lex.toLex_lt_toLex]
  simp only [abs_sub_lt_eps, add_eps_lt]
  split
  · rename_i h
    simp [h]
  · rename_i h
    simp [h]

end InvertIndexEntry

/-- The position of `std::set::insert`: an entry that is already there is kept. -/
def insertEntry (e : InvertIndexEntry) : List InvertIndexEntry → List InvertIndexEntry
  | [] => [e]
  | x :: l => if e.less x then e :: x :: l else if x.less e then x :: insertEntry e l else x :: l

/-- An entry is put at its place, or its place is taken. -/
theorem insertEntry_cases {e : InvertIndexEntry} {l : List InvertIndexEntry}
    (h : SortedBy InvertIndexEntry.place l) :
    ((∃ x ∈ l, x.place = e.place) ∧ insertEntry e l = l) ∨
      Spliced InvertIndexEntry.place e l (insertEntry e l) := by
  induction l with
  | nil => exact .inr .nil
  | cons x l ih =>
    obtain ⟨hx, hl⟩ := SortedBy.cons_iff.mp h
    rw [insertEntry]
    split
    · rename_i hlt
      rw [InvertIndexEntry.less_iff] at hlt
      refine .inr (.cons ?_)
      intro y hy
      rcases List.mem_cons.mp hy with rfl | hy
      · exact hlt
      · exact hlt.trans (hx y hy)
    · rename_i hge
      rw [InvertIndexEntry.less_iff] at hge
      split
      · rename_i hlt
        rw [InvertIndexEntry.less_iff] at hlt
        rcases ih hl with ⟨⟨y, hy, hplace⟩, heq⟩ | hsplice
        · exact .inl ⟨⟨y, List.mem_cons_of_mem _ hy, hplace⟩, by rw [heq]⟩
        · have hctx := hsplice.context (a := [x]) (b := []) (by simpa using hlt) (by simp)
          exact .inr (by simpa using hctx)
      · rename_i hle
        rw [InvertIndexEntry.less_iff] at hle
        exact .inl ⟨⟨x, List.mem_cons_self, le_antisymm (not_lt.mp hge) (not_lt.mp hle)⟩, rfl⟩

theorem sorted_insertEntry {e : InvertIndexEntry} {l : List InvertIndexEntry}
    (h : SortedBy InvertIndexEntry.place l) : SortedBy InvertIndexEntry.place (insertEntry e l) := by
  rcases insertEntry_cases h with ⟨-, heq⟩ | hsplice
  · rwa [heq]
  · exact hsplice.sorted h

/-- `std::set<InvertIndexEntry>`. -/
structure EntrySet where
  entries : List InvertIndexEntry
  sorted : SortedBy InvertIndexEntry.place entries

namespace EntrySet

def empty : EntrySet := ⟨[], .nil⟩

def insert (set : EntrySet) (e : InvertIndexEntry) : EntrySet :=
  ⟨insertEntry e set.entries, sorted_insertEntry set.sorted⟩

/-- `std::upper_bound(begin(), end(), key)`. -/
def upperBound (set : EntrySet) (key : InvertIndexEntry) : Nat := set.entries.findIdx (key.less ·)

/-- A walk forwards from a position for as long as `go` holds, without the entries `skip` names. -/
def forward (set : EntrySet) (pos : Nat) (go skip : InvertIndexEntry → Bool) :
    List InvertIndexEntry :=
  ((set.entries.drop pos).takeWhile go).filter (!skip ·)

/-- `for (; set_it != begin(); set_it--)` without the entries `skip` names. -/
def backward (set : EntrySet) (skip : InvertIndexEntry → Bool) :
    Nat → Option (List InvertIndexEntry)
  | 0 => some []
  | pos + 1 => do
    let e ← set.entries[pos + 1]?
    let entry ← set.backward skip pos
    return if skip e then entry else e :: entry

/-- The walk backwards, and the first entry after it. -/
def backwardToBegin (set : EntrySet) (pos : Nat) (skip : InvertIndexEntry → Bool) :
    Option (List InvertIndexEntry) := do
  let entry ← set.backward skip pos
  return entry ++ set.entries.head?.toList

end EntrySet

/-- `_SearchIndexs`. -/
abbrev SequenceSetIndex := SortedMap Bytes EntrySet

/-- The text of an `int` in a stream. -/
def intText (n : Int) : Bytes :=
  if n < 0 then 45 :: KeyFormat.decimal n.natAbs else KeyFormat.decimal n.natAbs

def getIndexAppidField (entry : InvertIndexEntry) : Bytes :=
  entry.appid ++ 95 :: intText entry.field

namespace SequenceSetIndex

def insertIndex (index : SequenceSetIndex) (entry : InvertIndexEntry) : SequenceSetIndex :=
  let appidField := getIndexAppidField entry
  index.put appidField (((index.get? appidField).getD .empty).insert entry)

/-- The start of the scans: they find the set of the bound, clear the document id of the bound and
position themselves behind it. -/
def scan (index : SequenceSetIndex) (key : InvertIndexEntry)
    (walk : EntrySet → InvertIndexEntry → Nat → Option (List InvertIndexEntry)) :
    Option (List InvertIndexEntry) :=
  let key := { key with docId := [] }
  match index.get? (getIndexAppidField key) with
  | none => some []
  | some set => walk set key (set.upperBound key)

def getRangeIndexGELE (index : SequenceSetIndex) (beginKey endKey : InvertIndexEntry) :
    Option (List InvertIndexEntry) :=
  index.scan beginKey fun set _ pos => some (set.forward pos (·.le endKey) fun _ => false)

def getRangeIndexGE (index : SequenceSetIndex) (beginKey : InvertIndexEntry) :
    Option (List InvertIndexEntry) :=
  index.scan beginKey fun set _ pos => some (set.forward pos (fun _ => true) fun _ => false)

def getRangeIndexLE (index : SequenceSetIndex) (endKey : InvertIndexEntry) :
    Option (List InvertIndexEntry) :=
  index.scan endKey fun set _ pos => set.backwardToBegin pos fun _ => false

def getRangeIndexGTLT (index : SequenceSetIndex) (beginKey endKey : InvertIndexEntry) :
    Option (List InvertIndexEntry) :=
  index.scan beginKey fun set key pos => some (set.forward pos (·.lt endKey) (·.eq key))

def getRangeIndexGTLE (index : SequenceSetIndex) (beginKey endKey : InvertIndexEntry) :
    Option (List InvertIndexEntry) :=
  index.scan beginKey fun set key pos => some (set.forward pos (·.le endKey) (·.eq key))

def getRangeIndexGELT (index : SequenceSetIndex) (beginKey endKey : InvertIndexEntry) :
    Option (List InvertIndexEntry) :=
  index.scan beginKey fun set _ pos => some (set.forward pos (·.lt endKey) fun _ => false)

def getRangeIndexGT (index : SequenceSetIndex) (beginKey : InvertIndexEntry) :
    Option (List InvertIndexEntry) :=
  index.scan beginKey fun set key pos => some (set.forward pos (fun _ => true) (·.eq key))

def getRangeIndexLT (index : SequenceSetIndex) (endKey : InvertIndexEntry) :
    Option (List InvertIndexEntry) :=
  index.scan endKey fun set key pos => set.backwardToBegin pos (·.eq key)

/-- `GetRangeIndex`. The scan for `RANGE_LT` is given the start of the range. -/
def getRangeIndex (index : SequenceSetIndex) (rangeType : RangeType)
    (startEntry endEntry : InvertIndexEntry) : Option (List InvertIndexEntry) :=
  match rangeType with
  | .gele => index.getRangeIndexGELE startEntry endEntry
  | .ge => index.getRangeIndexGE startEntry
  | .le => index.getRangeIndexLE endEntry
  | .gtlt => index.getRangeIndexGTLT startEntry endEntry
  | .gtle => index.getRangeIndexGTLE startEntry endEntry
  | .gelt => index.getRangeIndexGELT startEntry endEntry
  | .gt => index.getRangeIndexGT startEntry
  | .lt => index.getRangeIndexLT startEntry
  | .init => some []

end SequenceSetIndex

end ISearch.IndexSync

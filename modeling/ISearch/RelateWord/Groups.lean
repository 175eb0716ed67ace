import Mathlib.Data.List.Induction
import Mathlib.Data.List.TakeWhile
import ISearch.Lib.Bytes
import ISearch.Lib.Run
import ISearch.Lib.SortedMap

/-!
# Groups of related words (`data_manager.cc`)

Two maps hold one relation, from a word to its group and from a group to its words. A list of words
joins the group of the last word known; with none known a group is made only in an empty map.
-/

namespace ISearch.RelateWord

open List

abbrev Str := List UInt8

/-- `insert` of a multimap, behind the entries of the key. -/
def insertMulti (l : List (UInt32 × Str)) (id : UInt32) (word : Str) : List (UInt32 × Str) :=
  l.takeWhile (·.1 ≤ id) ++ (id, word) :: l.dropWhile (·.1 ≤ id)

structure Maps where
  relate_map : SortedMap Str UInt32
  relate_id_map : List (UInt32 × Str)

def Maps.empty : Maps := ⟨.empty, []⟩

/-- One line of the file of groups. -/
def loadLine (m : Maps) (i : UInt32) (words : List Str) : Maps :=
  words.foldl (fun m w => ⟨m.relate_map.put w i, insertMulti m.relate_id_map i w⟩) m

/-- The loading of the file of groups, from the line behind the `i`-th. -/
def load : Maps → UInt32 → List (List Str) → Maps
  | m, _, [] => m
  | m, i, words :: lines => load (loadLine m (i + 1) words) (i + 1) lines

def Maps.addWord (new_id : UInt32) (m : Maps) (word : Str) : Maps :=
  match m.relate_map.get? word with
  | none => ⟨m.relate_map.put word new_id, insertMulti m.relate_id_map new_id word⟩
  | some _ => m

/-- The last id that is not zero. -/
def lastKnown (id_vec : List UInt32) : Option UInt32 :=
  id_vec.foldl (fun found id => if id ≠ 0 then some id else found) none

/-- The id of the group for a list of words; `none` where `end()` is dereferenced. -/
def Maps.newId (m : Maps) (vec_data : List Str) : Option UInt32 :=
  let id_vec := vec_data.map fun w => (m.relate_map.get? w).getD 0
  match lastKnown id_vec with
  | some new_id => some new_id
  | none => if m.relate_map.entries.length = 0 then some 1 else none

/-- The turn of `UpdateRelateWord` for one list of words. -/
def Maps.updateList (m : Maps) (vec_data : List Str) : Option Maps :=
  if vec_data.length = 1 then some m
  else (m.newId vec_data).map fun new_id => vec_data.foldl (addWord new_id) m

def Maps.updateRelateWord (m : Maps) (relate_vec : List (List Str)) : Option Maps :=
  runOps updateList m relate_vec

/-- The two maps describe one relation. -/
def Maps.Consistent (m : Maps) : Prop :=
  ∀ id w, (id, w) ∈ m.relate_id_map ↔ m.relate_map.get? w = some id

/-- What a list of words is to do: no end iterator is dereferenced, the maps stay consistent, and
two or more entirely new words get one group of a new id. -/
structure Maps.Grouped (m : Maps) (vec_data : List Str) : Prop where
  defined : (m.updateList vec_data).isSome
  consistent : ∀ m', m.updateList vec_data = some m' → m'.Consistent
  fresh : ∀ m', m.updateList vec_data = some m' → 2 ≤ vec_data.length →
    (∀ w ∈ vec_data, m.relate_map.get? w = none) →
      ∃ id, (∀ w ∈ vec_data, m'.relate_map.get? w = some id) ∧ ∀ v, m.relate_map.get? v ≠ some id

/-- The list is skipped, has a known word, or meets an empty map. -/
def Maps.Decided (m : Maps) (vec_data : List Str) : Prop :=
  vec_data.length = 1 ∨ (∃ w ∈ vec_data, ∃ id ≠ 0, m.relate_map.get? w = some id) ∨
    m.relate_map.entries = []

variable {m m' : Maps} {id : UInt32} {word : Str} {vec_data : List Str}

theorem mem_insertMulti {l : List (UInt32 × Str)} {e : UInt32 × Str} :
    e ∈ insertMulti l id word ↔ e = (id, word) ∨ e ∈ l := by
  rw [insertMulti, mem_append, mem_cons, or_left_comm, ← mem_append,
    takeWhile_append_dropWhile]

/-- An entry is added to both maps if the word has no other group. -/
theorem Maps.Consistent.insert (h : m.Consistent)
    (hword : m.relate_map.get? word = none ∨ m.relate_map.get? word = some id) :
    Maps.Consistent ⟨m.relate_map.put word id, insertMulti m.relate_id_map id word⟩ := by
  intro id' w
  dsimp only
  rw [mem_insertMulti, SortedMap.get?_put, h id' w]
  split_ifs with hw
  · subst hw
    obtain hword | hword := hword <;> simp [hword, eq_comm]
  · simp [hw]

theorem Maps.Consistent.addWord (h : m.Consistent) (new_id : UInt32) (word : Str) :
    (m.addWord new_id word).Consistent := by
  rw [Maps.addWord]
  cases hget : m.relate_map.get? word with
  | some _ => exact h
  | none => exact h.insert (.inl hget)

/-- A word keeps its group, or gets the new one if it is the one added. -/
theorem get?_addWord (new_id : UInt32) (word w : Str) :
    (m.addWord new_id word).relate_map.get? w =
      ((m.relate_map.get? w).orElse fun _ => if w = word then some new_id else none) := by
  rw [Maps.addWord]
  cases hget : m.relate_map.get? word with
  | some id =>
    by_cases hw : w = word
    · subst hw; simp [hget]
    · cases m.relate_map.get? w <;> simp [hw]
  | none =>
    dsimp only
    rw [SortedMap.get?_put]
    by_cases hw : w = word
    · subst hw; simp [hget]
    · cases m.relate_map.get? w <;> simp [hw]

theorem Maps.Consistent.loadLine (h : m.Consistent) {i : UInt32} {words : List Str}
    (hwords : ∀ w ∈ words, m.relate_map.get? w = none ∨ m.relate_map.get? w = some i) :
    (loadLine m i words).Consistent := by
  rw [RelateWord.loadLine]
  induction words generalizing m with
  | nil => exact h
  | cons word words ih =>
    obtain ⟨hword, hwords⟩ := forall_mem_cons.mp hwords
    refine ih (h.insert hword) fun w hw => ?_
    rw [SortedMap.get?_put]
    split_ifs
    · exact .inr rfl
    · exact hwords w hw

theorem get?_loadLine {i : UInt32} {words : List Str} {w : Str} (hw : w ∉ words) :
    (loadLine m i words).relate_map.get? w = m.relate_map.get? w := by
  rw [loadLine]
  induction words generalizing m with
  | nil => rfl
  | cons word words ih =>
    rw [mem_cons, not_or] at hw
    rw [foldl_cons, ih hw.2, SortedMap.get?_put, if_neg hw.1]

/-- Loaded maps are consistent if no word stands on two lines. -/
theorem Maps.Consistent.load (h : m.Consistent) {i : UInt32} {lines : List (List Str)}
    (hnew : ∀ words ∈ lines, ∀ w ∈ words, m.relate_map.get? w = none)
    (hlines : lines.Pairwise List.Disjoint) : (load m i lines).Consistent := by
  induction lines generalizing m i with
  | nil => exact h
  | cons words lines ih =>
    obtain ⟨hdisj, hlines⟩ := pairwise_cons.mp hlines
    obtain ⟨hwords, hnew⟩ := forall_mem_cons.mp hnew
    refine ih (h.loadLine fun w hw => .inl (hwords w hw)) (fun words' hwords' w hw => ?_) hlines
    rw [get?_loadLine fun hw' => hdisj words' hwords' hw' hw]
    exact hnew words' hwords' w hw

theorem consistent_empty : Maps.empty.Consistent := by
  intro id w
  simp [Maps.empty, SortedMap.get?, SortedMap.empty]

/-! ## A list of words -/

theorem Maps.Consistent.addWords (h : m.Consistent) (new_id : UInt32) :
    (vec_data.foldl (Maps.addWord new_id) m).Consistent := by
  induction vec_data generalizing m with
  | nil => exact h
  | cons word vec_data ih => exact ih (h.addWord new_id word)

theorem get?_addWords (new_id : UInt32) (w : Str) :
    (vec_data.foldl (Maps.addWord new_id) m).relate_map.get? w =
      ((m.relate_map.get? w).orElse fun _ => if w ∈ vec_data then some new_id else none) := by
  induction vec_data generalizing m with
  | nil => cases h : m.relate_map.get? w <;> simp [h]
  | cons word vec_data ih =>
    rw [foldl_cons, ih, get?_addWord]
    cases m.relate_map.get? w <;> by_cases hw : w = word <;> simp [hw]

theorem lastKnown_eq_none {id_vec : List UInt32} :
    lastKnown id_vec = none ↔ ∀ id ∈ id_vec, id = 0 := by
  induction id_vec using List.reverseRecOn with
  | nil => simp [lastKnown]
  | append_singleton id_vec id ih =>
    rw [lastKnown, foldl_append, foldl_cons, foldl_nil, ← lastKnown]
    by_cases hid : id = 0
    · rw [if_neg (not_not.mpr hid), ih]
      simp [or_imp, hid]
    · simp [hid]

theorem newId_eq_none : m.newId vec_data = none ↔
    (∀ w ∈ vec_data, ∀ id ≠ 0, m.relate_map.get? w ≠ some id) ∧ m.relate_map.entries ≠ [] := by
  have hzero : (∀ id ∈ vec_data.map fun w => (m.relate_map.get? w).getD 0, id = 0) ↔
      ∀ w ∈ vec_data, ∀ id ≠ 0, m.relate_map.get? w ≠ some id := by
    rw [forall_mem_map]
    refine forall₂_congr fun w _ => ?_
    cases m.relate_map.get? w with
    | none => simp
    | some id => simp [not_imp_comm]
  rw [← hzero, ← lastKnown_eq_none, Maps.newId]
  split
  · next heq => simp [heq]
  · next heq => simp [heq]

theorem updateList_isSome_iff : (m.updateList vec_data).isSome ↔ m.Decided vec_data := by
  rw [Maps.updateList, Maps.Decided]
  split_ifs with hone
  · simp [hone]
  · rw [Option.isSome_map, Option.isSome_iff_ne_none, ne_eq, newId_eq_none, or_iff_right hone]
    push Not
    rw [imp_iff_or_not, or_comm]
    simp

/-- A list of words is grouped exactly if it has a known word, meets an empty map or is skipped. -/
theorem Maps.Consistent.grouped_iff (h : m.Consistent) :
    m.Grouped vec_data ↔ m.Decided vec_data := by
  refine ⟨fun hg => updateList_isSome_iff.mp hg.defined, fun hd => ?_⟩
  refine ⟨updateList_isSome_iff.mpr hd, fun m' hm' => ?_, fun m' hm' htwo hnew => ?_⟩
  · rw [Maps.updateList] at hm'
    split_ifs at hm'
    · exact Option.some.inj hm' ▸ h
    · obtain ⟨new_id, -, rfl⟩ := Option.map_eq_some_iff.mp hm'
      exact h.addWords new_id
  · rw [Maps.updateList, if_neg (by omega)] at hm'
    obtain ⟨new_id, -, rfl⟩ := Option.map_eq_some_iff.mp hm'
    refine ⟨new_id, fun w hw => by rw [get?_addWords, hnew w hw]; simp [hw], fun v hv => ?_⟩
    -- no word is known, so that the map is empty
    obtain hone | ⟨w, hw, id, -, hid⟩ | hempty := hd
    · omega
    · simp [hnew w hw] at hid
    · rw [SortedMap.get?_eq_some, hempty] at hv
      exact not_mem_nil hv

theorem Maps.Consistent.updateList (h : m.Consistent) (hm' : m.updateList vec_data = some m') :
    m'.Consistent :=
  have hd := updateList_isSome_iff.mp (hm' ▸ Option.isSome_some)
  (h.grouped_iff.mpr hd).consistent m' hm'

/-- Over all calls, every list of words is grouped exactly if each has a known word, meets an empty
map or is skipped; then no call is cut off. -/
theorem updateRelateWord_grouped_iff (m : Maps) (h : m.Consistent) (calls : List (List (List Str))) :
    ((AlongRun Maps.updateRelateWord (AlongRun Maps.updateList Maps.Grouped) m calls) ↔
      AlongRun Maps.updateRelateWord (AlongRun Maps.updateList Maps.Decided) m calls) ∧
    (AlongRun Maps.updateRelateWord (AlongRun Maps.updateList Maps.Decided) m calls →
      ∃ m', runOps Maps.updateRelateWord m calls = some m' ∧ m'.Consistent) := by
  have hlist (m : Maps) (vec_data : List Str) (m' : Maps) (h : m.Consistent)
      (hm' : m.updateList vec_data = some m') : m'.Consistent := h.updateList hm'
  constructor
  · refine alongRun_congr_of_inv (fun m relate_vec m' h hm' => invariant_run hlist h relate_vec hm')
      (fun m relate_vec h => ?_) h calls
    exact alongRun_congr_of_inv hlist (fun m vec_data h => h.grouped_iff) h relate_vec
  · refine invariant_along (fun m relate_vec h hd => ?_) h calls
    refine invariant_along (fun m vec_data h hd => ?_) h relate_vec hd
    obtain ⟨m', hm'⟩ := Option.isSome_iff_exists.mp (updateList_isSome_iff.mpr hd)
    exact ⟨m', hm', h.updateList hm'⟩

/-- Two new words in empty maps. -/
theorem updateRelateWord_grouped_iff_new :
    AlongRun Maps.updateRelateWord (AlongRun Maps.updateList Maps.Grouped) .empty
      [[[[99], [100]]]] :=
  (updateRelateWord_grouped_iff _ consistent_empty _).1.mpr
    ⟨⟨.inr (.inr rfl), fun _ _ => trivial⟩, fun _ _ => trivial⟩

/-- The words `"pear"` and `"梨"` after the file with the line `"apple"`, `"苹果"`. -/
theorem not_updateRelateWord_pear :
    let m := load .empty 0 [[[97, 112, 112, 108, 101], [232, 139, 185, 230, 158, 156]]]
    m.Consistent ∧ ¬AlongRun Maps.updateRelateWord (AlongRun Maps.updateList Maps.Grouped) m
      [[[[112, 101, 97, 114], [230, 162, 168]]]] := by
  refine ⟨consistent_empty.load (fun _ _ _ _ => rfl) (pairwise_singleton _ _), fun h => ?_⟩
  have hdefined := h.1.1.defined
  revert hdefined
  decide

end ISearch.RelateWord

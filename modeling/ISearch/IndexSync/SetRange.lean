import ISearch.IndexSync.Defs
import ISearch.KeyFormat.Codec
import Mathlib.Data.Finset.Max

/-!
# Range search in the ordered-set index

`rowsOf` says what a sequence of insertions leaves of an application and a field: an entry for each
key and document, the one inserted first. The index holds these rows in a set of their own
(`entriesOf_perm`), since the name of the set determines the application and the field. The scans
forwards return the rows of the range, with one exception: `upper_bound` on a key with an empty
document id skips a row of that key whose document id is empty. The scans backwards start at the row
behind the bound.
-/

namespace ISearch.IndexSync

open List
open InvertIndexEntry (place ofKey)

theorem not_underscore_of_mem_intText {n : Int} {c : UInt8} (h : c ∈ intText n) : c ≠ 95 := by
  have hdec : ∀ c ∈ KeyFormat.decimal n.natAbs, c ≠ 95 := by
    rintro c hc rfl
    exact absurd (KeyFormat.isDigit_of_mem_decimal _ hc) (by decide)
  rw [intText] at h
  split at h
  · rcases mem_cons.mp h with rfl | h
    · decide
    · exact hdec c h
  · exact hdec c h

theorem intText_inj {m n : Int} (h : intText m = intText n) : m = n := by
  have hval : ∀ n : Int, KeyFormat.strtonum (intText n) = (decide (n < 0), n.natAbs) := by
    intro n
    rw [intText]
    split
    · rename_i hn
      rw [KeyFormat.strtonum_minus_decimal, decide_eq_true hn]
    · rename_i hn
      rw [KeyFormat.strtonum_decimal, decide_eq_false hn]
  have hnum := (hval m).symm.trans ((congrArg KeyFormat.strtonum h).trans (hval n))
  obtain ⟨hsign, habs⟩ := Prod.mk.inj hnum
  have hiff : m < 0 ↔ n < 0 := by simpa using hsign
  omega

/-- Two lists are cut alike at a separator that does not occur behind it. -/
theorem append_cons_inj {α : Type} {sep : α} {a b s t : List α} (hs : sep ∉ s) (ht : sep ∉ t)
    (h : a ++ sep :: s = b ++ sep :: t) : a = b ∧ s = t := by
  rcases append_eq_append_iff.mp h with ⟨c, rfl, hc⟩ | ⟨c, rfl, hc⟩
  · cases c with
    | nil => exact ⟨by simp, (List.cons.inj hc).2⟩
    | cons x c =>
      obtain ⟨-, rfl⟩ := List.cons.inj hc
      simp at hs
  · cases c with
    | nil => exact ⟨by simp, (List.cons.inj hc).2.symm⟩
    | cons x c =>
      obtain ⟨-, rfl⟩ := List.cons.inj hc
      simp at ht

/-- The name of a set determines the application and the field. -/
theorem getIndexAppidField_inj {e e' : InvertIndexEntry} :
    getIndexAppidField e = getIndexAppidField e' ↔ e.appid = e'.appid ∧ e.field = e'.field := by
  constructor
  · intro h
    have hcut := append_cons_inj (fun hm => not_underscore_of_mem_intText hm rfl)
      (fun hm => not_underscore_of_mem_intText hm rfl) h
    exact ⟨hcut.1, intText_inj hcut.2⟩
  · rintro ⟨happ, hfield⟩
    rw [getIndexAppidField, getIndexAppidField, happ, hfield]

/-- The first entry inserted for each key and document of an application and a field. -/
def rowsOf (appid : Bytes) (field : Int) (ops : List InvertIndexEntry) : List InvertIndexEntry :=
  ops.foldl (fun rows e =>
    if e.appid = appid ∧ e.field = field ∧ ∀ r ∈ rows, r.place ≠ e.place then rows ++ [e]
    else rows) []

def SequenceSetIndex.insertAll (ops : List InvertIndexEntry) : SequenceSetIndex :=
  ops.foldl SequenceSetIndex.insertIndex .empty

namespace SequenceSetIndex

/-- The set of an application and a field. -/
def setOf (index : SequenceSetIndex) (key : InvertIndexEntry) : EntrySet :=
  (index.get? (getIndexAppidField key)).getD .empty

theorem setOf_insertIndex {index : SequenceSetIndex} {e key : InvertIndexEntry} :
    (index.insertIndex e).setOf key =
      if e.appid = key.appid ∧ e.field = key.field then (index.setOf key).insert e
      else index.setOf key := by
  rw [setOf, insertIndex, SortedMap.get?_put]
  by_cases h : getIndexAppidField key = getIndexAppidField e
  · obtain ⟨happ, hfield⟩ := getIndexAppidField_inj.mp h
    simp [h, happ, hfield, setOf]
  · have hne : ¬ (e.appid = key.appid ∧ e.field = key.field) := fun hk =>
      h (getIndexAppidField_inj.mpr ⟨hk.1.symm, hk.2.symm⟩)
    rw [if_neg h, if_neg hne, setOf]

/-- The scans treat an application and a field without a set as one with an empty set. -/
theorem scan_eq {index : SequenceSetIndex} {key : InvertIndexEntry}
    {walk : EntrySet → InvertIndexEntry → Nat → Option (List InvertIndexEntry)}
    (hwalk : ∀ key, walk .empty key 0 = some []) :
    index.scan key walk =
      walk (index.setOf key) { key with docId := [] }
        ((index.setOf key).upperBound { key with docId := [] }) := by
  have hset : index.get? (getIndexAppidField { key with docId := [] }) =
      index.get? (getIndexAppidField key) := rfl
  rw [scan, setOf, hset]
  cases index.get? (getIndexAppidField key) with
  | none => exact (hwalk _).symm
  | some set => rfl

end SequenceSetIndex

theorem EntrySet.insert_perm (set : EntrySet) (e : InvertIndexEntry) :
    (set.insert e).entries.Perm
      (if ∀ r ∈ set.entries, r.place ≠ e.place then set.entries ++ [e] else set.entries) := by
  change (insertEntry e set.entries).Perm _
  rcases insertEntry_cases set.sorted with ⟨⟨x, hx, hplace⟩, heq⟩ | hsplice
  · rw [if_neg fun hall => hall x hx hplace]
    exact .of_eq heq
  · rw [if_pos fun r hr => hsplice.key_ne hr]
    obtain ⟨a, b, hl, hl', -, -⟩ := hsplice
    rw [hl', hl, append_assoc]
    exact (perm_append_singleton e b).symm.append_left a

/-- The set of an application and a field holds its rows. -/
theorem setOf_perm (ops : List InvertIndexEntry) (key : InvertIndexEntry) :
    ((SequenceSetIndex.insertAll ops).setOf key).entries.Perm (rowsOf key.appid key.field ops) := by
  induction ops using List.reverseRecOn with
  | nil => exact .refl _
  | append_singleton ops e ih =>
    rw [SequenceSetIndex.insertAll, rowsOf, foldl_concat, foldl_concat,
      SequenceSetIndex.setOf_insertIndex]
    by_cases hkey : e.appid = key.appid ∧ e.field = key.field
    · rw [if_pos hkey, ← SequenceSetIndex.insertAll, ← rowsOf]
      refine (EntrySet.insert_perm _ e).trans ?_
      have hiff : (∀ r ∈ ((SequenceSetIndex.insertAll ops).setOf key).entries,
          r.place ≠ e.place) ↔ ∀ r ∈ rowsOf key.appid key.field ops, r.place ≠ e.place :=
        forall_congr' fun r => imp_congr_left ih.mem_iff
      simp only [hkey, true_and]
      by_cases hfree : ∀ r ∈ rowsOf key.appid key.field ops, r.place ≠ e.place
      · rw [if_pos (hiff.mpr hfree), if_pos hfree]
        exact ih.append_right [e]
      · rw [if_neg (mt hiff.mp hfree), if_neg hfree]
        exact ih
    · rw [if_neg hkey, if_neg fun h => hkey ⟨h.1, h.2.1⟩]
      exact ih

/-! ## Walks -/

namespace EntrySet

variable {set : EntrySet} {key e : InvertIndexEntry} {go skip : InvertIndexEntry → Bool} {pos : Nat}

theorem upperBound_eq :
    set.upperBound key = set.entries.findIdx fun e => decide (key.place < e.place) := by
  have hless : (fun e => key.less e) = fun e => decide (key.place < e.place) := by
    funext e
    rw [Bool.eq_iff_iff, InvertIndexEntry.less_iff, decide_eq_true_eq]
  rw [upperBound, hless]

theorem forward_eq (hgo : ∀ a b : InvertIndexEntry, a.place < b.place → go b = true → go a = true) :
    set.forward (set.upperBound key) go skip =
      ((set.entries.filter fun e => decide (key.place < e.place)).filter go).filter (!skip ·) := by
  have hpair : (set.entries.filter fun e => decide (key.place < e.place)).Pairwise
      fun a b => go b = true → go a = true :=
    (set.sorted.filter _).imp fun hlt => hgo _ _ hlt
  rw [forward, upperBound_eq, set.sorted.drop_findIdx, takeWhile_eq_filter_of_pairwise hpair]

theorem nodup_forward
    (hgo : ∀ a b : InvertIndexEntry, a.place < b.place → go b = true → go a = true) :
    (set.forward (set.upperBound key) go skip).Nodup := by
  rw [forward_eq hgo]
  exact ((set.sorted.nodup.filter _).filter _).filter _

theorem mem_forward
    (hgo : ∀ a b : InvertIndexEntry, a.place < b.place → go b = true → go a = true) :
    e ∈ set.forward (set.upperBound key) go skip ↔
      e ∈ set.entries ∧ key.place < e.place ∧ go e = true ∧ skip e = false := by
  rw [forward_eq hgo, mem_filter, mem_filter, mem_filter]
  simp [and_assoc]

/-- A walk backwards collects the entries from its start down to the second one. -/
theorem backward_eq (hpos : pos < set.entries.length) :
    set.backward skip pos =
      some (((set.entries.take (pos + 1)).tail.filter (!skip ·)).reverse) := by
  induction pos with
  | zero =>
    obtain ⟨e, l, hl⟩ := exists_cons_of_length_pos hpos
    simp [backward, hl]
  | succ pos ih =>
    have hne : set.entries.take (pos + 1) ≠ [] := by
      rw [ne_eq, take_eq_nil_iff]
      rintro (h | h)
      · cases h
      · simp [h] at hpos
    rw [backward, List.getElem?_eq_getElem hpos, ih (by omega), take_succ_eq_append_getElem hpos,
      tail_append_of_ne_nil hne]
    cases hskip : skip set.entries[pos + 1] <;> simp [hskip]

theorem backward_end (hpos : pos = set.entries.length) (hne : set.entries ≠ []) :
    set.backward skip pos = none := by
  obtain ⟨n, rfl⟩ : ∃ n, pos = n + 1 :=
    Nat.exists_eq_succ_of_ne_zero (hpos ▸ mt length_eq_zero_iff.mp hne)
  rw [backward, List.getElem?_eq_none (by omega)]
  rfl

/-- Without an entry behind the key the walk starts with reading the end. -/
theorem backwardToBegin_none (hne : set.entries ≠ [])
    (h : ∀ e ∈ set.entries, ¬ key.place < e.place) :
    set.backwardToBegin (set.upperBound key) skip = none := by
  have hend : set.upperBound key = set.entries.length := by
    rw [upperBound_eq, findIdx_eq_length]
    simpa using h
  rw [backwardToBegin, backward_end hend hne]
  rfl

/-- The walk backwards with the first entry: what is not above an entry behind the key and not to be
skipped, and the first entry in any case. -/
theorem backwardToBegin_some (skip : InvertIndexEntry → Bool)
    (h : ∃ e ∈ set.entries, key.place < e.place) :
    ∃ entry, set.backwardToBegin (set.upperBound key) skip = some entry ∧ entry.Nodup ∧
      ∀ e, e ∈ entry ↔ e ∈ set.entries ∧
        ((∀ x ∈ set.entries, e.place ≤ x.place) ∨
          skip e = false ∧ ∀ x ∈ set.entries, key.place < x.place → e.place ≤ x.place) := by
  have hpos : set.upperBound key < set.entries.length := by
    rw [upperBound_eq, findIdx_lt_length]
    simpa using h
  have hbehind : key.place < (set.entries[set.upperBound key]).place := by
    simp only [upperBound_eq] at hpos ⊢
    simpa using findIdx_getElem (w := hpos)
  have hleast : ∀ x ∈ set.entries, key.place < x.place →
      (set.entries[set.upperBound key]).place ≤ x.place := by
    simp only [upperBound_eq] at hpos ⊢
    exact fun x hx hlt => set.sorted.le_of_findIdx hpos hx hlt
  have htake : ∀ x, x ∈ set.entries.take (set.upperBound key + 1) ↔
      x ∈ set.entries ∧ ∀ y ∈ set.entries, key.place < y.place → x.place ≤ y.place := by
    intro x
    rw [set.sorted.mem_take_succ hpos]
    refine and_congr_right fun hx =>
      ⟨fun hle y hy hlt => hle.trans (hleast y hy hlt), fun hall => ?_⟩
    exact hall _ (getElem_mem _) hbehind
  obtain ⟨first, rest, hentries⟩ := exists_cons_of_length_pos (Nat.zero_lt_of_lt hpos)
  have hfirst : set.entries.head? = some first := by rw [hentries, List.head?_cons]
  have hmem : first ∈ set.entries := mem_of_head? hfirst
  have hcut : set.entries.take (set.upperBound key + 1) =
      first :: rest.take (set.upperBound key) := by rw [hentries, take_succ_cons]
  rw [hcut] at htake
  refine ⟨((rest.take (set.upperBound key)).filter (!skip ·)).reverse ++ [first], ?_, ?_, ?_⟩
  · rw [backwardToBegin, backward_eq hpos, hcut, hfirst]
    rfl
  · obtain ⟨hnot, hrest⟩ := nodup_cons.mp (hentries ▸ set.sorted.nodup)
    rw [nodup_append, nodup_reverse]
    refine ⟨(hrest.sublist (take_sublist _ _)).filter _, nodup_singleton first, ?_⟩
    rintro a ha b hb rfl
    rw [mem_singleton.mp hb, mem_reverse, mem_filter] at ha
    exact hnot (mem_of_mem_take ha.1)
  · intro e
    simp only [mem_append, mem_reverse, mem_filter, mem_singleton,
      Bool.not_eq_true']
    constructor
    · rintro (⟨he, hskip⟩ | rfl)
      · obtain ⟨hin, hle⟩ := (htake e).mp (mem_cons_of_mem _ he)
        exact ⟨hin, .inr ⟨hskip, hle⟩⟩
      · exact ⟨hmem, .inl fun x hx => set.sorted.head_le hfirst hx⟩
    · rintro ⟨hin, hleast | ⟨hskip, hle⟩⟩
      · have hplace := le_antisymm (hleast first hmem) (set.sorted.head_le hfirst hin)
        exact .inr (set.sorted.eq_of_key_eq hin hmem hplace)
      · rcases mem_cons.mp ((htake e).mpr ⟨hin, hle⟩) with rfl | he
        · exact .inr rfl
        · exact .inl ⟨he, hskip⟩

end EntrySet

/-! ## Ranges -/

/-- `GetRangeIndex` reads no end iterator and returns the rows of the range, each once. -/
def RangeExact (ops : List InvertIndexEntry) (rangeType : RangeType) (appid : Bytes) (field : Int)
    (keyType : Nat) (start stop : Int) : Prop :=
  ∃ entry, (SequenceSetIndex.insertAll ops).getRangeIndex rangeType
      (.ofKey appid field keyType start) (.ofKey appid field keyType stop) = some entry ∧
    entry.Perm ((rowsOf appid field ops).filter fun e => inRange start stop rangeType e.key)

/-- The entry lies behind the bound that a scan uses for the key `k`, the one with an empty document
id. -/
def Behind (k : Int) (e : InvertIndexEntry) : Prop := k < e.key ∨ e.key = k ∧ e.docId ≠ []

instance (k : Int) (e : InvertIndexEntry) : Decidable (Behind k e) :=
  inferInstanceAs (Decidable (_ ∨ _))

/-- When the scans are right for the rows of an application and a field. -/
def RangeHolds (rows : List InvertIndexEntry) (start stop : Int) : RangeType → Prop
  | .gele => ∀ e ∈ rows, e.key = start → e.docId = [] → stop < start
  | .gelt => ∀ e ∈ rows, e.key = start → e.docId = [] → stop ≤ start
  | .ge => ∀ e ∈ rows, e.key = start → e.docId ≠ []
  -- The walk starts with the row behind the bound, which is to be the only row of that key.
  | .le => rows = [] ∨ ∃ w ∈ rows, (w.key = stop ∧ w.docId ≠ []) ∧
      ∀ e ∈ rows, e.key = stop → e.docId ≠ [] → e = w
  -- The walk is the one for the start of the range, and always ends with the first row.
  | .lt => rows = [] ∨ (∃ x ∈ rows, Behind start x) ∧
      ∀ e ∈ rows, e.key < stop ↔ (∀ x ∈ rows, e.place ≤ x.place) ∨
        e.key ≠ start ∧ ∀ x ∈ rows, Behind start x → e.place ≤ x.place
  | .gtle | .gtlt | .gt | .init => True

theorem place_lt_iff {k : Int} {e : InvertIndexEntry} : toLex (k, []) < e.place ↔ Behind k e := by
  have hnil : [] < e.docId ↔ e.docId ≠ [] := by
    cases e.docId with
    | nil => simp
    | cons c s => simp [nil_lt_cons]
  rw [place, Prod.Lex.toLex_lt_toLex, Behind]
  simp only [hnil, eq_comm]

theorem Behind.mono {k : Int} {a b : InvertIndexEntry} (h : Behind k a) (hle : a.place ≤ b.place) :
    Behind k b :=
  place_lt_iff.mp ((place_lt_iff.mpr h).trans_le hle)

theorem key_le_of_place_le {a b : InvertIndexEntry} (h : a.place ≤ b.place) : a.key ≤ b.key := by
  rw [place, place, Prod.Lex.toLex_le_toLex] at h
  exact h.elim le_of_lt fun h => h.1.le

section

variable {ops : List InvertIndexEntry} {rangeType : RangeType} {appid : Bytes} {field : Int}
  {keyType : Nat} {start stop : Int}

theorem place_ofKey {k : Int} :
    (ofKey appid field keyType k).place = toLex (k, []) := rfl

/-- The set of the requested application and field. -/
def requestedSet (ops : List InvertIndexEntry) (appid : Bytes) (field : Int) (keyType : Nat)
    (k : Int) : EntrySet :=
  (SequenceSetIndex.insertAll ops).setOf (.ofKey appid field keyType k)

theorem requestedSet_perm (keyType : Nat) (k : Int) :
    (requestedSet ops appid field keyType k).entries.Perm (rowsOf appid field ops) :=
  setOf_perm ops (.ofKey appid field keyType k)

theorem nodup_rowsOf : (rowsOf appid field ops).Nodup :=
  (requestedSet_perm 0 0).nodup_iff.mp (EntrySet.sorted _).nodup

/-- The rows of an application and a field differ in their places. -/
theorem eq_of_place_eq {a b : InvertIndexEntry} (ha : a ∈ rowsOf appid field ops)
    (hb : b ∈ rowsOf appid field ops) (h : a.place = b.place) : a = b :=
  (requestedSet ops appid field 0 0).sorted.eq_of_key_eq
    ((requestedSet_perm 0 0).mem_iff.mpr ha) ((requestedSet_perm 0 0).mem_iff.mpr hb) h

theorem rangeExact_iff_mem {entry : List InvertIndexEntry}
    (h : (SequenceSetIndex.insertAll ops).getRangeIndex rangeType
      (.ofKey appid field keyType start) (.ofKey appid field keyType stop) = some entry)
    (hentry : entry.Nodup) :
    RangeExact ops rangeType appid field keyType start stop ↔
      ∀ e, e ∈ entry ↔ e ∈ rowsOf appid field ops ∧ inRange start stop rangeType e.key = true := by
  rw [RangeExact, h]
  simp only [Option.some.injEq, exists_eq_left',
    perm_ext_iff_of_nodup hentry (nodup_rowsOf.filter _), mem_filter]

/-- A scan forwards is exact if its test decides on each row as the range does. -/
theorem rangeExact_forward (go skip : InvertIndexEntry → Bool)
    (hgo : ∀ a b : InvertIndexEntry, a.place < b.place → go b = true → go a = true)
    (h : (SequenceSetIndex.insertAll ops).getRangeIndex rangeType
      (.ofKey appid field keyType start) (.ofKey appid field keyType stop) =
      (SequenceSetIndex.insertAll ops).scan (.ofKey appid field keyType start)
        fun set _ pos => some (set.forward pos go skip)) :
    RangeExact ops rangeType appid field keyType start stop ↔
      ∀ e ∈ rowsOf appid field ops,
        (Behind start e ∧ go e = true ∧ skip e = false ↔
          inRange start stop rangeType e.key = true) := by
  rw [SequenceSetIndex.scan_eq fun _ => rfl] at h
  rw [rangeExact_iff_mem h (EntrySet.nodup_forward hgo)]
  change (∀ e, e ∈ (requestedSet ops appid field keyType start).forward
    ((requestedSet ops appid field keyType start).upperBound (.ofKey appid field keyType start))
    go skip ↔ _) ↔ _
  simp only [EntrySet.mem_forward hgo, (requestedSet_perm keyType start).mem_iff, place_ofKey,
    place_lt_iff, and_congr_right_iff]

theorem le_of_place_lt (stop : InvertIndexEntry) (a b : InvertIndexEntry) (h : a.place < b.place)
    (hb : b.le stop = true) : a.le stop = true := by
  rw [InvertIndexEntry.le_iff] at hb ⊢
  exact (key_le_of_place_le h.le).trans hb

theorem lt_of_place_lt (stop : InvertIndexEntry) (a b : InvertIndexEntry) (h : a.place < b.place)
    (hb : b.lt stop = true) : a.lt stop = true := by
  rw [InvertIndexEntry.lt_iff] at hb ⊢
  exact (key_le_of_place_le h.le).trans_lt hb

theorem rangeExact_gele : RangeExact ops .gele appid field keyType start stop ↔
    RangeHolds (rowsOf appid field ops) start stop .gele := by
  refine (rangeExact_forward (·.le (.ofKey appid field keyType stop)) (fun _ => false)
    (le_of_place_lt _) rfl).trans ?_
  refine forall₂_congr fun e _ => ?_
  by_cases hd : e.docId = []
  · simp [Behind, inRange, ofKey, hd]
    omega
  · simp [Behind, inRange, ofKey, hd]
    omega

theorem rangeExact_gelt : RangeExact ops .gelt appid field keyType start stop ↔
    RangeHolds (rowsOf appid field ops) start stop .gelt := by
  refine (rangeExact_forward (·.lt (.ofKey appid field keyType stop)) (fun _ => false)
    (lt_of_place_lt _) rfl).trans ?_
  refine forall₂_congr fun e _ => ?_
  by_cases hd : e.docId = []
  · simp [Behind, inRange, ofKey, hd]
    omega
  · simp [Behind, inRange, ofKey, hd]
    omega

theorem rangeExact_ge : RangeExact ops .ge appid field keyType start stop ↔
    RangeHolds (rowsOf appid field ops) start stop .ge := by
  refine (rangeExact_forward (fun _ => true) (fun _ => false)
    (fun _ _ _ _ => rfl) rfl).trans ?_
  refine forall₂_congr fun e _ => ?_
  by_cases hd : e.docId = []
  · simp [Behind, inRange, hd]
    omega
  · simp [Behind, inRange, hd]
    omega

theorem rangeExact_gtle : RangeExact ops .gtle appid field keyType start stop ↔
    RangeHolds (rowsOf appid field ops) start stop .gtle := by
  refine (rangeExact_forward (·.le (.ofKey appid field keyType stop))
    (·.eq (.ofKey appid field keyType start))
    (le_of_place_lt _) rfl).trans ?_
  refine iff_true_intro fun e _ => ?_
  simp [Behind, inRange, ofKey]
  omega

theorem rangeExact_gtlt : RangeExact ops .gtlt appid field keyType start stop ↔
    RangeHolds (rowsOf appid field ops) start stop .gtlt := by
  refine (rangeExact_forward (·.lt (.ofKey appid field keyType stop))
    (·.eq (.ofKey appid field keyType start))
    (lt_of_place_lt _) rfl).trans ?_
  refine iff_true_intro fun e _ => ?_
  simp [Behind, inRange, ofKey]
  omega

theorem rangeExact_gt : RangeExact ops .gt appid field keyType start stop ↔
    RangeHolds (rowsOf appid field ops) start stop .gt := by
  refine (rangeExact_forward (fun _ => true) (·.eq (.ofKey appid field keyType start))
    (fun _ _ _ _ => rfl) rfl).trans ?_
  refine iff_true_intro fun e _ => ?_
  simp [Behind, inRange, ofKey]
  omega

/-- A scan backwards is exact if there is nothing to scan, or something lies behind the bound and
the rows up to it are, but for those to be skipped and with the first row, the rows of the range. -/
theorem rangeExact_backward (k : Int) (skip : InvertIndexEntry → Bool)
    (h : (SequenceSetIndex.insertAll ops).getRangeIndex rangeType
      (.ofKey appid field keyType start) (.ofKey appid field keyType stop) =
      (SequenceSetIndex.insertAll ops).scan (.ofKey appid field keyType k)
        fun set _ pos => set.backwardToBegin pos skip) :
    RangeExact ops rangeType appid field keyType start stop ↔
      rowsOf appid field ops = [] ∨ (∃ x ∈ rowsOf appid field ops, Behind k x) ∧
        ∀ e ∈ rowsOf appid field ops, inRange start stop rangeType e.key = true ↔
          (∀ x ∈ rowsOf appid field ops, e.place ≤ x.place) ∨
            skip e = false ∧ ∀ x ∈ rowsOf appid field ops, Behind k x → e.place ≤ x.place := by
  have hperm : (requestedSet ops appid field keyType k).entries.Perm (rowsOf appid field ops) :=
    requestedSet_perm keyType k
  have hscan : (SequenceSetIndex.insertAll ops).getRangeIndex rangeType
      (.ofKey appid field keyType start) (.ofKey appid field keyType stop) =
      (requestedSet ops appid field keyType k).backwardToBegin
        ((requestedSet ops appid field keyType k).upperBound (.ofKey appid field keyType k))
          skip := by
    rw [h, SequenceSetIndex.scan_eq fun _ => rfl]
    rfl
  by_cases hnil : rowsOf appid field ops = []
  · have hempty : (requestedSet ops appid field keyType k).entries = [] := by
      rw [hnil] at hperm
      exact hperm.eq_nil
    have hsome := hscan
    rw [EntrySet.backwardToBegin, EntrySet.upperBound, hempty] at hsome
    rw [rangeExact_iff_mem hsome nodup_nil, hnil]
    simp
  · have hne : (requestedSet ops appid field keyType k).entries ≠ [] := by
      intro hempty
      rw [hempty] at hperm
      exact hnil hperm.nil_eq.symm
    simp only [hnil, false_or]
    by_cases hbehind : ∃ x ∈ rowsOf appid field ops, Behind k x
    · obtain ⟨x, hx, hlt⟩ := hbehind
      have hex : ∃ x ∈ (requestedSet ops appid field keyType k).entries,
          (ofKey appid field keyType k).place < x.place :=
        ⟨x, hperm.mem_iff.mpr hx, place_lt_iff.mpr hlt⟩
      obtain ⟨entry, hentry, hnodup, hmem⟩ := EntrySet.backwardToBegin_some skip hex
      rw [rangeExact_iff_mem (hscan.trans hentry) hnodup]
      simp only [hmem, hperm.mem_iff, place_ofKey, place_lt_iff, and_congr_right_iff]
      constructor
      · intro hexact
        exact ⟨⟨x, hx, hlt⟩, fun e he => (hexact e he).symm⟩
      · intro hexact e he
        exact (hexact.2 e he).symm
    · have hnone : ∀ x ∈ (requestedSet ops appid field keyType k).entries,
          ¬ (ofKey appid field keyType k).place < x.place :=
        fun x hx hlt => hbehind ⟨x, hperm.mem_iff.mp hx, place_lt_iff.mp hlt⟩
      rw [RangeExact, hscan, EntrySet.backwardToBegin_none hne hnone]
      simp [hbehind]

theorem rangeExact_lt : RangeExact ops .lt appid field keyType start stop ↔
    RangeHolds (rowsOf appid field ops) start stop .lt := by
  refine (rangeExact_backward start (·.eq (.ofKey appid field keyType start)) rfl).trans ?_
  simp [RangeHolds, inRange, ofKey]

/-- The row behind the bound is the only one that the scan for `RANGE_LE` takes of those with the
key of the bound and a document id. -/
theorem rangeExact_le : RangeExact ops .le appid field keyType start stop ↔
    RangeHolds (rowsOf appid field ops) start stop .le := by
  refine (rangeExact_backward stop (fun _ => false) rfl).trans (or_congr_right ?_)
  constructor
  · rintro ⟨⟨x, hx, hbehind⟩, hiff⟩
    obtain ⟨w, hw, hleast⟩ := Finset.exists_min_image
      ((rowsOf appid field ops).filter fun e => decide (Behind stop e)).toFinset
      place ⟨x, by simpa using ⟨hx, hbehind⟩⟩
    simp only [mem_toFinset, mem_filter, decide_eq_true_eq, and_imp] at hw hleast
    have hends : w.key = stop ∧ w.docId ≠ [] := by
      have hle : w.key ≤ stop := by
        simpa [inRange] using (hiff w hw.1).mpr (.inr ⟨rfl, hleast⟩)
      exact hw.2.resolve_left (not_lt_of_ge hle)
    refine ⟨w, hw.1, hends, ?_⟩
    intro e he hkey hdoc
    have hbe : Behind stop e := .inr ⟨hkey, hdoc⟩
    have hle : e.place ≤ w.place := by
      rcases (hiff e he).mp (by simp [inRange, hkey]) with hfirst | ⟨-, hup⟩
      · exact hfirst w hw.1
      · exact hup w hw.1 hw.2
    exact eq_of_place_eq he hw.1 (le_antisymm hle (hleast e he hbe))
  · rintro ⟨w, hw, hends, hunique⟩
    have hbw : Behind stop w := .inr hends
    -- A row behind the bound with a key up to it is the only one.
    have hat : ∀ x ∈ rowsOf appid field ops, Behind stop x → x.key ≤ stop → x = w := by
      intro x hx hbx hle
      obtain ⟨hkey, hdoc⟩ := hbx.resolve_left (not_lt_of_ge hle)
      exact hunique x hx hkey hdoc
    refine ⟨⟨w, hw, hbw⟩, fun e he => ?_⟩
    constructor
    · intro hrange
      have hle : e.key ≤ stop := by simpa [inRange] using hrange
      refine .inr ⟨rfl, fun x hx hbx => ?_⟩
      by_contra hgt
      have hlt : x.place < e.place := not_le.mp hgt
      have hxw := hat x hx hbx ((key_le_of_place_le hlt.le).trans hle)
      have hew := hat e he (hbx.mono hlt.le) hle
      rw [hxw, hew] at hlt
      exact lt_irrefl _ hlt
    · intro h
      have hle : e.place ≤ w.place := h.elim (fun hfirst => hfirst w hw) fun hup => hup.2 w hw hbw
      have hkey := key_le_of_place_le hle
      rw [hends.1] at hkey
      simpa [inRange] using hkey

/-- `GetRangeIndex` is exact for a sequence of insertions and a range precisely if `RangeHolds` of
the rows. -/
theorem rangeExact_iff (ops : List InvertIndexEntry) (rangeType : RangeType) (appid : Bytes)
    (field : Int) (keyType : Nat) (start stop : Int) :
    RangeExact ops rangeType appid field keyType start stop ↔
      RangeHolds (rowsOf appid field ops) start stop rangeType := by
  cases rangeType with
  | gele => exact rangeExact_gele
  | gelt => exact rangeExact_gelt
  | gtle => exact rangeExact_gtle
  | gtlt => exact rangeExact_gtlt
  | lt => exact rangeExact_lt
  | gt => exact rangeExact_gt
  | le => exact rangeExact_le
  | ge => exact rangeExact_ge
  | init =>
    rw [rangeExact_iff_mem rfl nodup_nil]
    simp [inRange, RangeHolds]

end

/-- An entry of the application `1` and the field 2. -/
def sampleEntry (key : Int) (docId : Bytes) : InvertIndexEntry :=
  { ofKey [49] 2 0 key with docId := docId }

/-- A row below the bound: the scan for `RANGE_LE` reads the end iterator. Rows behind 0: the scan
for `RANGE_LT` with the end 3 and no start returns the first one only. -/
theorem not_rangeExact_le_lt :
    ¬ RangeExact [sampleEntry 1 [97]] .le [49] 2 0 0 5 ∧
      ¬ RangeExact [sampleEntry 1 [97], sampleEntry 2 [98]] .lt [49] 2 0 0 3 := by
  rw [rangeExact_le, rangeExact_lt]
  constructor
  · simp [RangeHolds, rowsOf, sampleEntry, ofKey]
  · intro h
    have hrows : rowsOf [49] 2 [sampleEntry 1 [97], sampleEntry 2 [98]] =
        [sampleEntry 1 [97], sampleEntry 2 [98]] := by decide
    rw [hrows] at h
    rcases h with h | ⟨-, h⟩
    · cases h
    · have hsecond := (h (sampleEntry 2 [98]) (by simp)).mp (by decide)
      exact absurd hsecond (by decide)

end ISearch.IndexSync

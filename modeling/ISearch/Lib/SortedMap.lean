import ISearch.Lib.SortedList
import Mathlib.Data.List.Lex

/-!
# Ordered key-value stores

A store is the list of its entries in the order of the keys, which is what an iterator over it
visits: `seek` is the part from a key on, `seekForPrev` the part up to a key backwards. `put` and
`erase` are described by `get?`.
-/

namespace ISearch

open List

structure SortedMap (K V : Type) [LinearOrder K] where
  entries : List (K × V)
  sorted : entries.Pairwise fun e e' => e.1 < e'.1

namespace SortedMap

variable {K V : Type} [LinearOrder K] {m m' : SortedMap K V} {k k' : K} {v v' : V}

def empty : SortedMap K V := ⟨[], List.Pairwise.nil⟩

def get? (m : SortedMap K V) (k : K) : Option V :=
  (m.entries.find? fun e => e.1 = k).map (·.2)

def put (m : SortedMap K V) (k : K) (v : V) : SortedMap K V where
  entries := m.entries.filter (fun e => e.1 < k) ++ (k, v) :: m.entries.filter fun e => k < e.1
  sorted := by
    rw [pairwise_append, pairwise_cons]
    refine ⟨m.sorted.filter _, ⟨?_, m.sorted.filter _⟩, ?_⟩
    · intro e he
      exact of_decide_eq_true (mem_filter.mp he).2
    · intro e he e' he'
      have hlt : e.1 < k := of_decide_eq_true (mem_filter.mp he).2
      rcases mem_cons.mp he' with rfl | he'
      · exact hlt
      · exact hlt.trans (of_decide_eq_true (mem_filter.mp he').2)

def erase (m : SortedMap K V) (k : K) : SortedMap K V where
  entries := m.entries.filter fun e => e.1 ≠ k
  sorted := m.sorted.filter _

/-- The puts of a batch, one after the other. -/
def putAll (m : SortedMap K V) (es : List (K × V)) : SortedMap K V :=
  es.foldl (fun m e => m.put e.1 e.2) m

/-- The entries from the first key that is not below `k`. -/
def seek (m : SortedMap K V) (k : K) : List (K × V) := m.entries.filter fun e => k ≤ e.1

/-- The entries from the last key that is not above `k`, backwards. -/
def seekForPrev (m : SortedMap K V) (k : K) : List (K × V) :=
  (m.entries.filter fun e => e.1 ≤ k).reverse

/-! ## Entries -/

theorem eq_of_mem (h : (k, v) ∈ m.entries) (h' : (k, v') ∈ m.entries) : v = v' := by
  obtain ⟨entries, sorted⟩ := m
  dsimp only at h h'
  induction entries with
  | nil => cases h
  | cons e entries ih =>
    obtain ⟨hlt, hrest⟩ := pairwise_cons.mp sorted
    rcases mem_cons.mp h with rfl | hmem
    · rcases mem_cons.mp h' with h' | h'
      · cases h'
        rfl
      · exact absurd (hlt (k, v') h') (lt_irrefl k)
    · rcases mem_cons.mp h' with rfl | h'
      · exact absurd (hlt (k, v) hmem) (lt_irrefl k)
      · exact ih hrest hmem h'

theorem get?_eq_some : m.get? k = some v ↔ (k, v) ∈ m.entries := by
  rw [get?, Option.map_eq_some_iff]
  constructor
  · rintro ⟨⟨k', v'⟩, hfind, rfl⟩
    have hk : k' = k := by simpa using List.find?_some hfind
    exact hk ▸ mem_of_find?_eq_some hfind
  · intro h
    obtain ⟨e, he⟩ : ∃ e, m.entries.find? (fun e => e.1 = k) = some e := by
      apply Option.isSome_iff_exists.mp
      exact List.find?_isSome.mpr ⟨(k, v), h, by simp⟩
    have hk : e.1 = k := by simpa using List.find?_some he
    obtain ⟨k', v'⟩ := e
    dsimp only at hk
    subst hk
    exact ⟨(k', v'), he, eq_of_mem (mem_of_find?_eq_some he) h⟩

theorem get?_eq_none : m.get? k = none ↔ ∀ v, (k, v) ∉ m.entries := by
  rw [Option.eq_none_iff_forall_ne_some]
  exact forall_congr' fun v => not_congr get?_eq_some

theorem mem_put {e : K × V} : e ∈ (m.put k v).entries ↔
    e = (k, v) ∨ e.1 ≠ k ∧ e ∈ m.entries := by
  simp only [put, mem_append, mem_cons, mem_filter, decide_eq_true_eq, ne_iff_lt_or_gt]
  tauto

@[simp] theorem get?_put : (m.put k v).get? k' = if k' = k then some v else m.get? k' := by
  ext w
  rw [get?_eq_some, mem_put]
  by_cases h : k' = k
  · subst h
    simp [eq_comm]
  · simp [h, get?_eq_some]

/-- The first entry whose key has a property. -/
theorem head?_filter_eq_some {p : K → Bool} :
    (m.entries.filter fun e => p e.1).head? = some (k, v) ↔
      m.get? k = some v ∧ p k = true ∧ ∀ k', (m.get? k').isSome = true → p k' = true → k ≤ k' := by
  have hsorted := m.sorted.filter fun e => p e.1
  rw [get?_eq_some]
  constructor
  · intro h
    obtain ⟨rest, hrest⟩ := List.head?_eq_some_iff.mp h
    have hmem : (k, v) ∈ m.entries.filter fun e => p e.1 := by
      rw [hrest]
      exact mem_cons_self
    obtain ⟨hentry, hp⟩ := mem_filter.mp hmem
    refine ⟨hentry, hp, fun k' hk' hp' => ?_⟩
    obtain ⟨v', hv'⟩ := Option.isSome_iff_exists.mp hk'
    have hmem' : (k', v') ∈ m.entries.filter fun e => p e.1 :=
      mem_filter.mpr ⟨get?_eq_some.mp hv', hp'⟩
    rw [hrest] at hsorted hmem'
    rcases mem_cons.mp hmem' with heq | hlater
    · cases heq
      exact le_rfl
    · exact (rel_of_pairwise_cons hsorted hlater).le
  · rintro ⟨hentry, hp, hfirst⟩
    have hmem : (k, v) ∈ m.entries.filter fun e => p e.1 := mem_filter.mpr ⟨hentry, hp⟩
    cases hlist : m.entries.filter fun e => p e.1 with
    | nil =>
      rw [hlist] at hmem
      cases hmem
    | cons e rest =>
      obtain ⟨k', v'⟩ := e
      have he : (k', v') ∈ m.entries.filter fun e => p e.1 := by
        rw [hlist]
        exact mem_cons_self
      obtain ⟨hentry', hp'⟩ := mem_filter.mp he
      have hle := hfirst k' (by rw [get?_eq_some.mpr hentry']; rfl) hp'
      rw [hlist] at hmem hsorted
      rcases mem_cons.mp hmem with heq | hlater
      · rw [heq, List.head?_cons]
      · exact absurd (rel_of_pairwise_cons hsorted hlater) hle.not_gt

theorem head?_filter_eq_none {p : K → Bool} :
    (m.entries.filter fun e => p e.1).head? = none ↔
      ∀ k', (m.get? k').isSome = true → p k' = false := by
  rw [List.head?_eq_none_iff, filter_eq_nil_iff]
  constructor
  · intro h k' hk'
    obtain ⟨v', hv'⟩ := Option.isSome_iff_exists.mp hk'
    exact Bool.eq_false_iff.mpr (h (k', v') (get?_eq_some.mp hv'))
  · rintro h ⟨k', v'⟩ he hp
    rw [h k' (by rw [get?_eq_some.mpr he]; rfl)] at hp
    cases hp

theorem putAll_cons (e : K × V) (es : List (K × V)) :
    m.putAll (e :: es) = (m.put e.1 e.2).putAll es := rfl

/-- A batch does not touch other keys. -/
theorem get?_putAll_of_notMem {es : List (K × V)} (h : ∀ e ∈ es, e.1 ≠ k) :
    (m.putAll es).get? k = m.get? k := by
  induction es generalizing m with
  | nil => rfl
  | cons e es ih =>
    have hne := h e mem_cons_self
    rw [putAll_cons, ih fun e' he' => h e' (mem_cons_of_mem e he'), get?_put,
      if_neg (Ne.symm hne)]

theorem get?_putAll_of_mem {es : List (K × V)} (h : (k, v) ∈ es)
    (hval : ∀ e ∈ es, e.1 = k → e.2 = v) : (m.putAll es).get? k = some v := by
  induction es generalizing m with
  | nil => cases h
  | cons e es ih =>
    rw [putAll_cons]
    by_cases hmem : (k, v) ∈ es
    · exact ih hmem fun e' he' => hval e' (mem_cons_of_mem e he')
    · obtain rfl : (k, v) = e := (mem_cons.mp h).resolve_right hmem
      rw [get?_putAll_of_notMem, get?_put, if_pos rfl]
      rintro ⟨k', v'⟩ he' rfl
      obtain rfl : v' = v := hval (k', v') (mem_cons_of_mem _ he') rfl
      exact hmem he'

/-- On a list that is sorted by keys a scan stops behind the elements with a property of the keys
that, once lost, does not come back. -/
theorem takeWhile_eq_filter {β : Type} {key : β → K} {l : List β}
    (hl : l.Pairwise fun b b' => key b < key b') {p : K → Bool}
    (hp : ∀ b ∈ l, ∀ k, key b < k → p k = true → p (key b) = true) :
    l.takeWhile (fun b => p (key b)) = l.filter fun b => p (key b) := by
  apply takeWhile_eq_filter_of_pairwise
  exact hl.imp_of_mem fun hb _ hlt => hp _ hb _ hlt

end SortedMap

section Prefix

variable {α V : Type} [LinearOrder α]

theorem isPrefix_of_not_lt_of_lt {p k k' : List α} (hp : p <+: k') (hle : ¬ k < p)
    (hlt : k < k') : p <+: k := by
  induction p generalizing k k' with
  | nil => exact nil_prefix
  | cons x p ih =>
    obtain ⟨r, rfl⟩ := hp
    cases k with
    | nil => exact absurd (nil_lt_cons x p) hle
    | cons y k =>
      rw [cons_append, cons_lt_cons_iff] at hlt
      rw [cons_lt_cons_iff, not_or] at hle
      obtain ⟨rfl, htail⟩ := hlt.resolve_left hle.1
      rw [prefix_cons_inj]
      exact ih (prefix_append p r) (fun h => hle.2 ⟨rfl, h⟩) htail

theorem not_lt_of_isPrefix {p k : List α} (h : p <+: k) : ¬ k < p := by
  obtain ⟨r, rfl⟩ := h
  induction p with
  | nil => exact not_lt_nil r
  | cons x p ih =>
    rw [cons_append, cons_lt_cons_iff, not_or]
    exact ⟨lt_irrefl x, fun h => ih h.2⟩

/-- A scan from a key on that stops at the first key that does not begin with it visits the keys
that do. -/
theorem takeWhile_filter_le {β : Type} {key : β → List α} {l : List β}
    (hl : l.Pairwise fun b b' => key b < key b') (p : List α) :
    (l.filter fun b => p ≤ key b).takeWhile (fun b => p.isPrefixOf (key b)) =
      l.filter fun b => p.isPrefixOf (key b) := by
  rw [SortedMap.takeWhile_eq_filter (hl.filter _), filter_filter]
  · apply filter_congr
    intro b _
    cases h : p.isPrefixOf (key b) with
    | true => simpa using not_lt_of_isPrefix (List.isPrefixOf_iff_prefix.mp h)
    | false => rfl
  · intro b hb k hlt hk
    exact isPrefixOf_iff_prefix.mpr (isPrefix_of_not_lt_of_lt
      (List.isPrefixOf_iff_prefix.mp hk) (not_lt_of_ge (by simpa using (mem_filter.mp hb).2)) hlt)

end Prefix

end ISearch

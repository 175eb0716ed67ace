import Mathlib.Data.List.Pairwise
import Mathlib.Tactic.Common
import Mathlib.Order.Lattice

/-!
# Lists sorted strictly by a key

`SortedBy key l` is the content of an ordered container in key order. `Spliced key x l l'` says
that `l'` is `l` with `x` put at the place its key belongs: read from `l` to `l'` it is an
insertion, from `l'` to `l` a removal. Both relations are local, so that the effect of an
operation on a part of a container is the effect on the whole (`Spliced.context`).
-/

namespace ISearch

open List

variable {α κ : Type} [LinearOrder κ] {key : α → κ}

/-- The keys of `l` are strictly increasing. -/
def SortedBy (key : α → κ) (l : List α) : Prop := l.Pairwise fun a b => key a < key b

/-- `l'` is `l` with `x` at its place. -/
def Spliced (key : α → κ) (x : α) (l l' : List α) : Prop :=
  ∃ a b, l = a ++ b ∧ l' = a ++ x :: b ∧ (∀ y ∈ a, key y < key x) ∧ ∀ y ∈ b, key x < key y

/-- A walk along a list stops behind the items with a property that, once lost, does not come
back. -/
theorem takeWhile_eq_filter_of_pairwise {l : List α} {p : α → Bool}
    (h : l.Pairwise fun a b => p b = true → p a = true) : l.takeWhile p = l.filter p := by
  induction l with
  | nil => rfl
  | cons a l ih =>
    obtain ⟨ha, hl⟩ := pairwise_cons.mp h
    cases hpa : p a with
    | true => rw [takeWhile_cons_of_pos hpa, filter_cons_of_pos hpa, ih hl]
    | false =>
      rw [takeWhile_cons_of_neg (by simp [hpa]), filter_cons_of_neg (by simp [hpa]),
        eq_comm, filter_eq_nil_iff]
      intro b hb hpb
      rw [ha b hb hpb] at hpa
      cases hpa

/-- A list that is sorted by a key is known by the items of each key. -/
theorem eq_of_filter_key_eq {l l' : List α} (h : l.Pairwise fun a b => key a ≤ key b)
    (h' : l'.Pairwise fun a b => key a ≤ key b)
    (hf : ∀ k, (l.filter fun a => key a = k) = l'.filter fun a => key a = k) : l = l' := by
  have hmem (a : α) : a ∈ l ↔ a ∈ l' := by
    have hiff : a ∈ (l.filter fun b => key b = key a) ↔ a ∈ l'.filter fun b => key b = key a := by
      rw [hf]
    simpa using hiff
  induction l generalizing l' with
  | nil => exact (eq_nil_iff_forall_not_mem.mpr fun a ha => by simpa using (hmem a).mpr ha).symm
  | cons a l ih =>
    cases l' with
    | nil => simpa using (hmem a).mp mem_cons_self
    | cons b l' =>
      obtain ⟨ha, hl⟩ := pairwise_cons.mp h
      obtain ⟨hb, hl'⟩ := pairwise_cons.mp h'
      have hab : key a ≤ key b := by
        rcases mem_cons.mp ((hmem b).mpr mem_cons_self) with heq | hin
        · rw [heq]
        · exact ha b hin
      have hba : key b ≤ key a := by
        rcases mem_cons.mp ((hmem a).mp mem_cons_self) with heq | hin
        · rw [heq]
        · exact hb a hin
      have hkey : key b = key a := le_antisymm hba hab
      have hhead := hf (key a)
      rw [filter_cons_of_pos (by simp), filter_cons_of_pos (by simp [hkey])] at hhead
      obtain ⟨rfl, -⟩ := List.cons.inj hhead
      have htail (k : κ) : (l.filter fun c => key c = k) = l'.filter fun c => key c = k := by
        have hk := hf k
        rw [filter_cons, filter_cons] at hk
        split at hk
        · exact (List.cons.inj hk).2
        · exact hk
      rw [ih hl hl' htail fun c => by
        have hiff : c ∈ (l.filter fun d => key d = key c) ↔
            c ∈ l'.filter fun d => key d = key c := by rw [htail]
        simpa using hiff]

theorem dropWhile_eq_filter_of_pairwise {l : List α} {p : α → Bool}
    (h : l.Pairwise fun a b => p b = true → p a = true) :
    l.dropWhile p = l.filter fun a => !p a := by
  induction l with
  | nil => rfl
  | cons a l ih =>
    obtain ⟨ha, hl⟩ := pairwise_cons.mp h
    cases hpa : p a with
    | true =>
      rw [dropWhile_cons_of_pos hpa, filter_cons_of_neg (by simp [hpa]), ih hl]
    | false =>
      rw [dropWhile_cons_of_neg (by simp [hpa]), eq_comm, filter_eq_self]
      intro b hb
      rcases mem_cons.mp hb with rfl | hb
      · rw [hpa, Bool.not_false]
      · cases hpb : p b with
        | true => rw [ha b hb hpb] at hpa; cases hpa
        | false => rfl

namespace SortedBy

theorem nil : SortedBy key [] := List.Pairwise.nil

theorem singleton (x : α) : SortedBy key [x] := pairwise_singleton _ x

theorem append_iff {a b : List α} :
    SortedBy key (a ++ b) ↔
      SortedBy key a ∧ SortedBy key b ∧ ∀ x ∈ a, ∀ y ∈ b, key x < key y :=
  pairwise_append

theorem cons_iff {x : α} {l : List α} :
    SortedBy key (x :: l) ↔ (∀ y ∈ l, key x < key y) ∧ SortedBy key l :=
  pairwise_cons

theorem nodup {l : List α} (h : SortedBy key l) : l.Nodup :=
  h.imp fun hlt heq => absurd (heq ▸ hlt) (lt_irrefl _)

/-- A sorted list holds a key once. -/
theorem eq_of_key_eq {l : List α} (h : SortedBy key l) {x y : α} (hx : x ∈ l) (hy : y ∈ l)
    (hk : key x = key y) : x = y := by
  induction l with
  | nil => cases hx
  | cons z l ih =>
    obtain ⟨hz, hl⟩ := cons_iff.mp h
    rcases mem_cons.mp hx with hxz | hxl <;> rcases mem_cons.mp hy with hyz | hyl
    · exact hxz.trans hyz.symm
    · exact absurd (hxz ▸ hk) (hz y hyl).ne
    · exact absurd (hyz ▸ hk) (hz x hxl).ne'
    · exact ih hl hxl hyl

theorem getElem_lt {l : List α} (h : SortedBy key l) {i j : Nat} (hij : i < j)
    (hj : j < l.length) : key l[i] < key l[j] :=
  pairwise_iff_getElem.mp h i j _ hj hij

theorem getElem_le {l : List α} (h : SortedBy key l) {i j : Nat} (hij : i ≤ j)
    (hj : j < l.length) : key l[i] ≤ key l[j] := by
  rcases Nat.eq_or_lt_of_le hij with rfl | hij
  · exact le_refl _
  · exact (h.getElem_lt hij hj).le

theorem head_le {l : List α} (h : SortedBy key l) {first x : α} (hf : l.head? = some first)
    (hx : x ∈ l) : key first ≤ key x := by
  obtain ⟨i, hi, rfl⟩ := mem_iff_getElem.mp hx
  have h0 : 0 < l.length := Nat.zero_lt_of_lt hi
  obtain rfl : l[0] = first := by simpa [List.head?_eq_getElem?, h0] using hf
  exact h.getElem_le (Nat.zero_le i) hi

theorem le_getLast {l : List α} (h : SortedBy key l) {last x : α} (hl : l.getLast? = some last)
    (hx : x ∈ l) : key x ≤ key last := by
  obtain ⟨i, hi, rfl⟩ := mem_iff_getElem.mp hx
  obtain rfl : l[l.length - 1] = last := by
    simpa [List.getLast?_eq_getElem?, Nat.sub_lt (Nat.zero_lt_of_lt hi)] using hl
  exact h.getElem_le (by omega) (by omega)

/-- The items up to a position are those up to the key there. -/
theorem mem_take_succ {l : List α} (h : SortedBy key l) {i : Nat} (hi : i < l.length) {x : α} :
    x ∈ l.take (i + 1) ↔ x ∈ l ∧ key x ≤ key l[i] := by
  rw [mem_take_iff_getElem]
  constructor
  · rintro ⟨j, hj, rfl⟩
    exact ⟨getElem_mem _, h.getElem_le (by omega) hi⟩
  · rintro ⟨hx, hle⟩
    obtain ⟨j, hj, rfl⟩ := mem_iff_getElem.mp hx
    refine ⟨j, ?_, rfl⟩
    by_contra hlt
    exact absurd (h.getElem_lt (by omega : i < j) hj) (not_lt_of_ge hle)

/-- The items from the first one above a key on are those above it. -/
theorem drop_findIdx {l : List α} (h : SortedBy key l) (k : κ) :
    l.drop (l.findIdx fun x => k < key x) = l.filter fun x => k < key x := by
  induction l with
  | nil => rfl
  | cons x l ih =>
    obtain ⟨hx, hl⟩ := cons_iff.mp h
    by_cases hlt : k < key x
    · have hall : ∀ y ∈ l, k < key y := fun y hy => hlt.trans (hx y hy)
      have hkeep : (l.filter fun y => k < key y) = l :=
        filter_eq_self.mpr fun y hy => decide_eq_true (hall y hy)
      simp [findIdx_cons, hlt, hkeep]
    · simpa [findIdx_cons, hlt] using ih hl

theorem le_of_findIdx {l : List α} (h : SortedBy key l) {k : κ}
    (hi : (l.findIdx fun x => k < key x) < l.length) {x : α} (hx : x ∈ l) (hlt : k < key x) :
    key l[l.findIdx fun x => k < key x] ≤ key x := by
  obtain ⟨j, hj, rfl⟩ := mem_iff_getElem.mp hx
  refine h.getElem_le ?_ hj
  by_contra hji
  exact absurd hlt (by simpa using not_of_lt_findIdx (Nat.lt_of_not_le hji))

end SortedBy

namespace Spliced

variable {x : α} {l l' : List α}

theorem cons (h : ∀ y ∈ l, key x < key y) : Spliced key x l (x :: l) :=
  ⟨[], l, rfl, rfl, by simp, h⟩

theorem snoc (h : ∀ y ∈ l, key y < key x) : Spliced key x l (l ++ [x]) :=
  ⟨l, [], by simp, rfl, h, by simp⟩

theorem nil : Spliced key x [] [x] := cons (by simp)

/-- A splice inside a list whose other parts lie on the right sides of `x`. -/
theorem context (h : Spliced key x l l') {a b : List α} (ha : ∀ y ∈ a, key y < key x)
    (hb : ∀ y ∈ b, key x < key y) : Spliced key x (a ++ l ++ b) (a ++ l' ++ b) := by
  obtain ⟨c, d, rfl, rfl, hc, hd⟩ := h
  refine ⟨a ++ c, d ++ b, by simp, by simp, fun y hy => ?_, fun y hy => ?_⟩
  · rcases mem_append.mp hy with hy | hy
    · exact ha y hy
    · exact hc y hy
  · rcases mem_append.mp hy with hy | hy
    · exact hd y hy
    · exact hb y hy

theorem mem_iff (h : Spliced key x l l') {y : α} : y ∈ l' ↔ y = x ∨ y ∈ l := by
  obtain ⟨a, b, rfl, rfl, _, _⟩ := h
  simp only [mem_append, mem_cons]
  tauto

theorem length_eq (h : Spliced key x l l') : l'.length = l.length + 1 := by
  obtain ⟨a, b, rfl, rfl, _, _⟩ := h
  simp; omega

theorem sorted (h : Spliced key x l l') (hl : SortedBy key l) : SortedBy key l' := by
  obtain ⟨a, b, rfl, rfl, ha, hb⟩ := h
  obtain ⟨h1, h2, h3⟩ := SortedBy.append_iff.mp hl
  refine SortedBy.append_iff.mpr ⟨h1, SortedBy.cons_iff.mpr ⟨hb, h2⟩, fun y hy z hz => ?_⟩
  rcases mem_cons.mp hz with rfl | hz
  · exact ha y hy
  · exact h3 y hy z hz

theorem sorted_of (h : Spliced key x l l') (hl : SortedBy key l') : SortedBy key l := by
  obtain ⟨a, b, rfl, rfl, ha, hb⟩ := h
  obtain ⟨h1, h2, h3⟩ := SortedBy.append_iff.mp hl
  exact SortedBy.append_iff.mpr ⟨h1, (SortedBy.cons_iff.mp h2).2,
    fun y hy z hz => h3 y hy z (mem_cons_of_mem _ hz)⟩

theorem key_ne (h : Spliced key x l l') {y : α} (hy : y ∈ l) : key y ≠ key x := by
  obtain ⟨a, b, rfl, rfl, ha, hb⟩ := h
  rcases mem_append.mp hy with hy | hy
  · exact (ha y hy).ne
  · exact (hb y hy).ne'

/-- The place of `x` is determined: the prefix below it ends there. -/
theorem eq_of_split (h : Spliced key x l l') {a b : List α} (hl : l = a ++ b)
    (ha : ∀ y ∈ a, key y < key x) (hb : ∀ y ∈ b, key x < key y) : l' = a ++ x :: b := by
  obtain ⟨c, d, rfl, rfl, hc, hd⟩ := h
  have hca : c = a := by
    rcases append_eq_append_iff.mp hl with ⟨e, rfl, hde⟩ | ⟨e, rfl, hde⟩
    · cases e with
      | nil => simp
      | cons y e =>
        have h1 := ha y (by simp)
        have h2 := hd y (by simp [hde])
        exact absurd h1 h2.not_gt
    · cases e with
      | nil => simp
      | cons y e =>
        have h1 := hc y (by simp)
        have h2 := hb y (by simp [hde])
        exact absurd h1 h2.not_gt
  subst hca
  rw [append_cancel_left hl]

theorem unique (h : Spliced key x l l') {l'' : List α} (h' : Spliced key x l l'') : l' = l'' := by
  obtain ⟨a, b, hl, rfl, ha, hb⟩ := h'
  exact h.eq_of_split hl ha hb

/-- What a removal leaves is determined. -/
theorem eq_of_removed (h : Spliced key x l l') {a b : List α} (hl : l' = a ++ x :: b)
    (hs : SortedBy key l') : l = a ++ b := by
  obtain ⟨c, d, rfl, rfl, hc, hd⟩ := h
  have hx : x ∉ a ∧ x ∉ c := by
    refine ⟨fun hx => ?_, fun hx => absurd (hc x hx) (lt_irrefl _)⟩
    rw [hl, SortedBy.append_iff] at hs
    exact absurd (hs.2.2 x hx x (by simp)) (lt_irrefl _)
  obtain ⟨rfl, rfl⟩ : c = a ∧ d = b := by
    rcases append_eq_append_iff.mp hl with ⟨e, rfl, hde⟩ | ⟨e, rfl, hde⟩
    · cases e with
      | nil => simpa using hde
      | cons y e =>
        obtain ⟨rfl, -⟩ := List.cons.inj hde
        exact absurd (by simp) hx.1
    · cases e with
      | nil => simpa [eq_comm] using hde
      | cons y e =>
        obtain ⟨rfl, -⟩ := List.cons.inj hde
        exact absurd (by simp) hx.2
  rfl

/-- Removing the item at a position of a sorted list. -/
theorem eraseIdx {l : List α} (h : SortedBy key l) {i : Nat} (hi : i < l.length) :
    Spliced key l[i] (l.eraseIdx i) l := by
  refine ⟨l.take i, l.drop (i + 1), eraseIdx_eq_take_drop_succ .., ?_, ?_, ?_⟩
  · simp
  · intro y hy
    obtain ⟨j, hj, rfl⟩ := mem_iff_getElem.mp hy
    simp only [length_take] at hj
    simpa using h.getElem_lt (by omega : j < i) hi
  · intro y hy
    obtain ⟨j, hj, rfl⟩ := mem_iff_getElem.mp hy
    simp only [length_drop] at hj
    simpa using h.getElem_lt (by omega : i < i + 1 + j) (by omega)

theorem insertIdx_eq_take_drop {l : List α} {i : Nat} (hi : i ≤ l.length) :
    l.insertIdx i x = l.take i ++ x :: l.drop i := by
  induction l generalizing i with
  | nil => obtain rfl : i = 0 := by simpa using hi
           simp
  | cons y l ih =>
    cases i with
    | zero => simp
    | succ i => simp [ih (Nat.le_of_succ_le_succ hi)]

/-- Putting an item at a position that splits a list by its key. -/
theorem insertIdx {l : List α} {i : Nat} (hi : i ≤ l.length)
    (hlo : ∀ y ∈ l.take i, key y < key x) (hhi : ∀ y ∈ l.drop i, key x < key y) :
    Spliced key x l (l.insertIdx i x) :=
  ⟨l.take i, l.drop i, by simp, insertIdx_eq_take_drop hi, hlo, hhi⟩

end Spliced

end ISearch

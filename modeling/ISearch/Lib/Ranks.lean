import Mathlib.Data.List.Induction
import Mathlib.Data.List.Perm.Subperm
import Mathlib.Order.Basic

/-!
# Slices of the sorted arrangements of a list

A list has as many sorted arrangements as ties can be broken. An element belongs at a position if it
may stand there in one of them; a list is a slice of an arrangement if its elements belong at the
positions of the slice (`exists_slice_iff`).
-/

namespace ISearch

open List
open Std.TransCmp (isLE_trans)

variable {α : Type} {cmp : α → α → Ordering}

/-- No element comes before a smaller one. -/
def SortedFor (cmp : α → α → Ordering) (l : List α) : Prop :=
  l.Pairwise fun a b => (cmp a b).isLE

/-- The number of elements below `a`. -/
def below (cmp : α → α → Ordering) (l : List α) (a : α) : Nat := l.countP fun b => cmp b a = .lt

/-- The number of elements up to `a`, with those that tie with it. -/
def upTo (cmp : α → α → Ordering) (l : List α) (a : α) : Nat := l.countP fun b => (cmp b a).isLE

/-- `a` may stand at the position `j` of a sorted arrangement. -/
def Belongs (cmp : α → α → Ordering) (l : List α) (a : α) (j : Nat) : Prop :=
  below cmp l a ≤ j ∧ j < upTo cmp l a

instance (l : List α) (a : α) (j : Nat) : Decidable (Belongs cmp l a j) :=
  inferInstanceAs (Decidable (_ ∧ _))

/-- The order by several fields of a record, each ascending or descending. -/
def lexBy {ι : Type} (cmp : ι → α → α → Ordering) :
    List (ι × Bool) → α → α → Ordering
  | [], _, _ => .eq
  | (i, asc) :: fields, a, b => (if asc then cmp i a b else cmp i b a).then (lexBy cmp fields a b)

theorem transCmp_lexBy {ι : Type} {cmp : ι → α → α → Ordering}
    (hcmp : ∀ i, Std.TransCmp (cmp i)) (fields : List (ι × Bool)) :
    Std.TransCmp (lexBy cmp fields) := by
  induction fields with
  | nil => exact { eq_swap := rfl, isLE_trans := fun _ _ => rfl }
  | cons f fields ih =>
    obtain ⟨i, asc⟩ := f
    have := hcmp i
    cases asc with
    | true => exact inferInstanceAs (Std.TransCmp (compareLex (cmp i) (lexBy cmp fields)))
    | false =>
      exact inferInstanceAs (Std.TransCmp (compareLex (fun a b => cmp i b a) (lexBy cmp fields)))

section

variable {l l' : List α} {a : α} {j : Nat}

theorem below_perm (h : l.Perm l') : below cmp l a = below cmp l' a := h.countP_eq _

theorem upTo_perm (h : l.Perm l') : upTo cmp l a = upTo cmp l' a := h.countP_eq _

theorem Belongs.perm (h : l.Perm l') (ha : Belongs cmp l a j) : Belongs cmp l' a j := by
  rwa [Belongs, ← below_perm h, ← upTo_perm h]

theorem upTo_append : upTo cmp (l ++ l') a = upTo cmp l a + upTo cmp l' a := countP_append ..

theorem below_append : below cmp (l ++ l') a = below cmp l a + below cmp l' a :=
  countP_append ..

theorem upTo_le_length : upTo cmp l a ≤ l.length := countP_le_length

end

/-- A property of smaller elements holds for a prefix of a sorted list. -/
theorem getElem_iff_countP {p : α → Bool} {l : List α}
    (hl : l.Pairwise fun a b => p b = true → p a = true) {i : Nat} (hi : i < l.length) :
    p l[i] = true ↔ i < l.countP p := by
  induction l generalizing i with
  | nil => cases hi
  | cons a l ih =>
    obtain ⟨ha, hl⟩ := pairwise_cons.mp hl
    by_cases hpa : p a = true
    · rw [countP_cons_of_pos hpa]
      cases i with
      | zero => simp [hpa]
      | succ i =>
        rw [getElem_cons_succ, ih hl (by simpa using hi)]
        omega
    · have hnone : ∀ b ∈ l, ¬ p b = true := fun b hb hpb => hpa (ha b hb hpb)
      rw [countP_cons_of_neg hpa, countP_eq_zero.mpr hnone]
      cases i with
      | zero => simp [hpa]
      | succ i => simp [hnone _ (getElem_mem (by simpa using hi))]

section Sorted

variable [Std.TransCmp cmp] {l l' : List α} {a b : α} {i j : Nat}

theorem isLE_or_lt (cmp : α → α → Ordering) [Std.TransCmp cmp] (a b : α) :
    (cmp a b).isLE ∨ cmp b a = .lt := by
  rw [← Std.OrientedCmp.gt_iff_lt]
  cases cmp a b <;> simp

theorem not_lt_iff_isLE : ¬ cmp a b = .lt ↔ (cmp b a).isLE := by
  constructor
  · exact fun h => (isLE_or_lt cmp b a).resolve_right h
  · exact fun h hlt => Std.OrientedCmp.not_isLE_of_lt hlt h

theorem SortedFor.getElem_isLE_iff (h : SortedFor cmp l) (hi : i < l.length) :
    (cmp l[i] a).isLE ↔ i < upTo cmp l a :=
  getElem_iff_countP (h.imp fun hab hb => isLE_trans hab hb) hi

theorem SortedFor.getElem_lt_iff (h : SortedFor cmp l) (hi : i < l.length) :
    cmp l[i] a = .lt ↔ i < below cmp l a := by
  rw [below, ← getElem_iff_countP _ hi, decide_eq_true_iff]
  refine h.imp fun hab hb => ?_
  rw [decide_eq_true_iff] at hb ⊢
  exact Std.TransCmp.lt_of_isLE_of_lt hab hb

theorem SortedFor.belongs_getElem (h : SortedFor cmp l) (hi : i < l.length) :
    Belongs cmp l l[i] i := by
  constructor
  · rw [← Nat.not_lt, ← h.getElem_lt_iff hi, not_lt_iff_isLE]
    exact Std.ReflCmp.isLE_rfl
  · rw [← h.getElem_isLE_iff hi]
    exact Std.ReflCmp.isLE_rfl

theorem upTo_mono (h : (cmp a b).isLE) : upTo cmp l a ≤ upTo cmp l b :=
  countP_mono_left fun _ _ hc => isLE_trans hc h

theorem below_mono (h : (cmp a b).isLE) : below cmp l a ≤ below cmp l b := by
  refine countP_mono_left fun c _ hc => ?_
  rw [decide_eq_true_iff] at hc ⊢
  exact Std.TransCmp.lt_of_lt_of_isLE hc h

theorem upTo_le_below (h : cmp a b = .lt) : upTo cmp l a ≤ below cmp l b := by
  refine countP_mono_left fun c _ hc => ?_
  rw [decide_eq_true_iff]
  exact Std.TransCmp.lt_of_isLE_of_lt hc h

/-- A list whose elements belong at successive positions is sorted. -/
theorem sortedFor_of_belongs {P : List α} {s : Nat}
    (hP : ∀ (j : Nat) (hj : j < P.length), Belongs cmp l P[j] (s + j)) : SortedFor cmp P := by
  rw [SortedFor, pairwise_iff_getElem]
  intro i j hi hj hij
  rcases isLE_or_lt cmp P[i] P[j] with hle | hlt
  · exact hle
  · have hcount : upTo cmp l P[j] ≤ below cmp l P[i] := upTo_le_below hlt
    have hi := (hP i hi).1
    have hj := (hP j hj).2
    omega

/-- The elements of `T` that come before a slice `P` of `P ++ T` are not above it. -/
theorem isLE_of_take {P T : List α} {s : Nat} (hT : SortedFor cmp T)
    (hP : ∀ (j : Nat) (hj : j < P.length), Belongs cmp (P ++ T) P[j] (s + j))
    (hi : i < T.length) (his : i < s) (hj : j < P.length) : (cmp T[i] P[j]).isLE := by
  have hsorted := sortedFor_of_belongs hP
  -- the last element of the slice that is not above `P[j]`
  have hcount : j < upTo cmp P P[j] := (hsorted.belongs_getElem hj).2
  have hlen : upTo cmp P P[j] ≤ P.length := upTo_le_length
  have hlast : upTo cmp P P[j] - 1 < P.length := by omega
  have hle : (cmp P[upTo cmp P P[j] - 1] P[j]).isLE :=
    (hsorted.getElem_isLE_iff hlast).mpr (by omega)
  have hbelongs := (hP _ hlast).2
  have hmono : upTo cmp (P ++ T) P[upTo cmp P P[j] - 1] ≤ upTo cmp (P ++ T) P[j] := upTo_mono hle
  rw [upTo_append (a := P[j])] at hmono
  exact (hT.getElem_isLE_iff hi).mpr (by omega)

/-- The elements of `T` that come behind a slice `P` of `P ++ T` are not below it. -/
theorem isLE_of_drop {P T : List α} {s : Nat} (hT : SortedFor cmp T)
    (hP : ∀ (j : Nat) (hj : j < P.length), Belongs cmp (P ++ T) P[j] (s + j))
    (hi : i < T.length) (his : s ≤ i) (hj : j < P.length) : (cmp P[j] T[i]).isLE := by
  have hsorted := sortedFor_of_belongs hP
  rcases isLE_or_lt cmp P[j] T[i] with hle | hlt
  · exact hle
  · -- the first element of the slice that is not below `P[j]`
    have hcount : below cmp P P[j] ≤ j := (hsorted.belongs_getElem hj).1
    have hfirst : below cmp P P[j] < P.length := by omega
    have hle : (cmp P[j] P[below cmp P P[j]]).isLE := by
      rw [← not_lt_iff_isLE, hsorted.getElem_lt_iff hfirst]
      exact Nat.lt_irrefl _
    have hbelongs := (hP _ hfirst).1
    have hmono : below cmp (P ++ T) P[j] ≤ below cmp (P ++ T) P[below cmp P P[j]] := below_mono hle
    rw [below_append (a := P[j])] at hmono
    have hT' := (hT.getElem_lt_iff hi).mp hlt
    omega

theorem sortedFor_mergeSort (cmp : α → α → Ordering) [Std.TransCmp cmp] (l : List α) :
    SortedFor cmp (l.mergeSort fun a b => (cmp a b).isLE) := by
  have htotal : ∀ a b : α, ((cmp a b).isLE || (cmp b a).isLE) = true := by
    intro a b
    rw [Bool.or_eq_true]
    exact (isLE_or_lt cmp a b).imp_right fun hlt => by rw [hlt]; rfl
  have htrans : ∀ a b c : α, (cmp a b).isLE → (cmp b c).isLE → (cmp a c).isLE :=
    fun _ _ _ hab hbc => isLE_trans hab hbc
  exact pairwise_mergeSort htrans htotal l

theorem exists_sortedFor (cmp : α → α → Ordering) [Std.TransCmp cmp] (l : List α) :
    ∃ T : List α, T.Perm l ∧ SortedFor cmp T :=
  ⟨_, mergeSort_perm .., sortedFor_mergeSort cmp l⟩

theorem exists_slice {P : List α} {s : Nat} (hsub : P.Subperm l)
    (hP : ∀ (j : Nat) (hj : j < P.length), Belongs cmp l P[j] (s + j)) :
    ∃ L : List α, L.Perm l ∧ SortedFor cmp L ∧ (L.drop s).take P.length = P := by
  obtain ⟨P', hperm', hsub⟩ := hsub
  obtain ⟨rest, hrest⟩ := hsub.exists_perm_append
  obtain ⟨T, hperm, hT⟩ := exists_sortedFor cmp rest
  have hl : l.Perm (P ++ T) := hrest.trans (hperm'.append hperm.symm)
  replace hP : ∀ (j : Nat) (hj : j < P.length), Belongs cmp (P ++ T) P[j] (s + j) :=
    fun j hj => (hP j hj).perm hl
  by_cases hnil : P = []
  · subst hnil
    exact ⟨T, hl.symm, hT, by simp⟩
  have hs : s ≤ T.length := by
    have hpos := length_pos_of_ne_nil hnil
    have hlast := (hP (P.length - 1) (by omega)).2
    have hlen : upTo cmp (P ++ T) P[P.length - 1] ≤ (P ++ T).length := upTo_le_length
    rw [length_append] at hlen
    omega
  have htake : (T.take s).length = s := length_take_of_le hs
  refine ⟨T.take s ++ (P ++ T.drop s), ?_, ?_, ?_⟩
  · refine List.Perm.trans ?_ hl.symm
    have hswap : (T.take s ++ P ++ T.drop s).Perm (P ++ T.take s ++ T.drop s) :=
      perm_append_comm.append_right _
    rwa [append_assoc, append_assoc, take_append_drop] at hswap
  · have hdrop : ∀ a ∈ P, ∀ b ∈ T.drop s, (cmp a b).isLE := by
      intro a ha b hb
      obtain ⟨j, hj, rfl⟩ := getElem_of_mem ha
      obtain ⟨i, hi, rfl⟩ := getElem_of_mem hb
      rw [getElem_drop]
      exact isLE_of_drop hT hP _ (Nat.le_add_right s i) hj
    have htake : ∀ a ∈ T.take s, ∀ b ∈ P, (cmp a b).isLE := by
      intro a ha b hb
      obtain ⟨i, hi, rfl⟩ := getElem_of_mem ha
      obtain ⟨j, hj, rfl⟩ := getElem_of_mem hb
      rw [getElem_take]
      exact isLE_of_take hT hP _ (by rw [length_take] at hi; omega) hj
    have hsplit := hT
    rw [SortedFor, ← take_append_drop s T, pairwise_append] at hsplit
    obtain ⟨hbefore, hbehind, hcross⟩ := hsplit
    rw [SortedFor, pairwise_append, pairwise_append]
    refine ⟨hbefore, ⟨sortedFor_of_belongs hP, hbehind, hdrop⟩, fun a ha b hb => ?_⟩
    rcases mem_append.mp hb with hb | hb
    · exact htake a ha b hb
    · exact hcross a ha b hb
  · rw [drop_left' htake, take_left' rfl]

/-- The lists that are the slice from `s` on of a sorted arrangement, of at most `m` elements. -/
theorem exists_slice_iff {P : List α} {s m : Nat} :
    (∃ L : List α, L.Perm l ∧ SortedFor cmp L ∧ (L.drop s).take m = P) ↔
      P.Subperm l ∧ P.length = min m (l.length - s) ∧
        ∀ (j : Nat) (hj : j < P.length), Belongs cmp l P[j] (s + j) := by
  constructor
  · rintro ⟨L, hperm, hL, rfl⟩
    refine ⟨?_, by rw [length_take, length_drop, hperm.length_eq], fun j hj => ?_⟩
    · exact ((take_sublist _ _).trans (drop_sublist _ _)).subperm.trans hperm.subperm
    · rw [getElem_take, getElem_drop]
      exact (hL.belongs_getElem _).perm hperm
  · rintro ⟨hsub, hlen, hP⟩
    obtain ⟨L, hperm, hL, hslice⟩ := exists_slice hsub hP
    refine ⟨L, hperm, hL, ?_⟩
    rw [← hslice, hlen, ← hperm.length_eq, ← length_drop, take_eq_take_iff]
    omega

/-- The first `n` elements tie with the least. -/
def FirstTie (cmp : α → α → Ordering) (l : List α) (n : Nat) : Prop :=
  ∃ a ∈ l, below cmp l a = 0 ∧ n ≤ upTo cmp l a

omit [Std.TransCmp cmp] in
theorem FirstTie.perm {n : Nat} (hperm : l.Perm l') (h : FirstTie cmp l n) : FirstTie cmp l' n := by
  obtain ⟨a, ha, hnone, hcount⟩ := h
  refine ⟨a, hperm.mem_iff.mp ha, ?_, ?_⟩
  · rwa [← below_perm hperm]
  · rwa [← upTo_perm hperm]

/-- The elements at the first positions of a sorted list belong `s` positions later. -/
theorem SortedFor.belongs_shift_iff (h : SortedFor cmp l) {s m : Nat} (hm : s + m ≤ l.length) :
    (∀ (j : Nat) (hj : j < m), Belongs cmp l (l.get ⟨j, by omega⟩) (s + j)) ↔
      s = 0 ∨ m = 0 ∨ FirstTie cmp l (s + m) := by
  constructor
  · intro hshift
    rw [or_iff_not_imp_left, or_iff_not_imp_left]
    intro hs hm₀
    have hfirst := h.belongs_getElem (i := 0) (by omega)
    have hnone : below cmp l l[0] = 0 := Nat.le_zero.mp hfirst.1
    -- by induction on the position: the element `s` positions before ties with the least one
    have htie : ∀ (n i : Nat) (hi : i < s + m), i < n → (cmp (l.get ⟨i, by omega⟩) l[0]).isLE := by
      intro n
      induction n with
      | zero => exact fun _ _ hn => absurd hn (Nat.not_lt_zero _)
      | succ n ih =>
        intro i hi _
        by_cases his : i < s
        · have hzero := (hshift 0 (by omega)).2
          exact (h.getElem_isLE_iff _).mpr (by simpa using Nat.lt_trans his hzero)
        · have hback := ih (i - s) (by omega) (by omega)
          have hbelongs := (hshift (i - s) (by omega)).2
          rw [Nat.add_sub_cancel' (Nat.le_of_not_lt his)] at hbelongs
          exact isLE_trans ((h.getElem_isLE_iff _).mpr hbelongs) hback
    refine ⟨l[0], getElem_mem _, hnone, ?_⟩
    have hlast := htie (s + m) (s + m - 1) (by omega) (by omega)
    have hcount := (h.getElem_isLE_iff _).mp hlast
    omega
  · rintro (rfl | rfl | ⟨a, -, hnone, hcount⟩) j hj
    · rw [Nat.zero_add]
      exact h.belongs_getElem _
    · cases hj
    · have hle : (cmp (l.get ⟨j, by omega⟩) a).isLE := (h.getElem_isLE_iff _).mpr (by omega)
      have hge : (cmp a (l.get ⟨j, by omega⟩)).isLE := by
        rw [← not_lt_iff_isLE]
        intro hlt
        have := (h.getElem_lt_iff _).mp hlt
        omega
      have hbelow : below cmp l (l.get ⟨j, by omega⟩) ≤ below cmp l a := below_mono hle
      have hupTo : upTo cmp l a ≤ upTo cmp l (l.get ⟨j, by omega⟩) := upTo_mono hge
      exact ⟨by omega, by omega⟩

end Sorted

/-! ## A queue of the least elements -/

/-- What a comparator says that leaves ties open. -/
def lessOr (tie : Bool) : Ordering → Bool
  | .lt => true
  | .eq => tie
  | .gt => false

/-- An element is put behind the greater ones. -/
def pushBy (less : α → α → Bool) (l : List α) (e : α) : List α :=
  l.takeWhile (fun x => less e x) ++ e :: l.dropWhile fun x => less e x

/-- The greatest element is dropped from a queue that is full. -/
def pushBounded (less : α → α → Bool) (n : Nat) (l : List α) (e : α) : List α :=
  if (pushBy less l e).length > n then (pushBy less l e).tail else pushBy less l e

theorem perm_pushBy (less : α → α → Bool) (l : List α) (e : α) : (pushBy less l e).Perm (e :: l) := by
  rw [pushBy]
  refine perm_middle.trans (List.Perm.cons e ?_)
  rw [takeWhile_append_dropWhile]

theorem pushBy_append {less : α → α → Bool} {e : α} {l l' : List α} (hl : ∀ x ∈ l, less e x = true)
    (hl' : ∀ x ∈ l', less e x = false) : pushBy less (l ++ l') e = l ++ e :: l' := by
  have hstop : l'.takeWhile (fun x => less e x) = [] ∧ l'.dropWhile (fun x => less e x) = l' := by
    cases l' with
    | nil => exact ⟨rfl, rfl⟩
    | cons x l' =>
      have hx := hl' x mem_cons_self
      simp [hx]
  rw [pushBy, takeWhile_append_of_pos hl, dropWhile_append_of_pos hl, hstop.1, hstop.2,
    append_nil]

section Queue

variable [Std.TransCmp cmp] {tie : Bool} {l : List α}

/-- The elements of a queue, the greatest first. -/
def Descending (cmp : α → α → Ordering) (l : List α) : Prop :=
  l.Pairwise fun a b => (cmp b a).isLE

theorem Descending.split (h : Descending cmp l) (tie : Bool) (e : α) :
    ∃ l₁ l₂, l = l₁ ++ l₂ ∧ (∀ x ∈ l₁, lessOr tie (cmp e x) = true) ∧
      ∀ x ∈ l₂, lessOr tie (cmp e x) = false := by
  induction l with
  | nil => exact ⟨[], [], rfl, forall_mem_nil _, forall_mem_nil _⟩
  | cons a l ih =>
    obtain ⟨ha, hl⟩ := pairwise_cons.mp h
    by_cases hless : lessOr tie (cmp e a) = true
    · obtain ⟨l₁, l₂, rfl, h₁, h₂⟩ := ih hl
      exact ⟨a :: l₁, l₂, rfl, forall_mem_cons.mpr ⟨hless, h₁⟩, h₂⟩
    · rw [Bool.not_eq_true] at hless
      refine ⟨[], a :: l, rfl, forall_mem_nil _,
        forall_mem_cons.mpr ⟨hless, fun x hx => ?_⟩⟩
      have hxa := ha x hx
      cases hcmp : cmp e x with
      | gt => rfl
      | lt =>
        rw [Std.TransCmp.lt_of_lt_of_isLE hcmp hxa] at hless
        cases hless
      | eq =>
        cases tie with
        | false => rfl
        | true =>
          have hle : (cmp e a).isLE := isLE_trans (by rw [hcmp]; rfl) hxa
          revert hless hle
          cases cmp e a <;> simp [lessOr]

theorem Descending.pushBy (h : Descending cmp l) (e : α) :
    Descending cmp (pushBy (fun a b => lessOr tie (cmp a b)) l e) := by
  obtain ⟨l₁, l₂, rfl, h₁, h₂⟩ := h.split tie e
  rw [pushBy_append h₁ h₂]
  obtain ⟨hl₁, hl₂, hcross⟩ := pairwise_append.mp h
  refine pairwise_append.mpr ⟨hl₁, pairwise_cons.mpr ⟨fun x hx => ?_, hl₂⟩, ?_⟩
  · rw [← not_lt_iff_isLE]
    intro hlt
    have := h₂ x hx
    rw [hlt] at this
    cases this
  · intro x hx y hy
    rcases mem_cons.mp hy with rfl | hy
    · have := h₁ x hx
      revert this
      cases cmp y x <;> simp [lessOr]
    · exact hcross x hx y hy

/-- Without its greatest elements, a queue takes an element as the whole queue does. -/
theorem pushBounded_drop (h : Descending cmp l) (n : Nat) (e : α) :
    pushBounded (fun a b => lessOr tie (cmp a b)) n (l.drop (l.length - n)) e =
      (pushBy (fun a b => lessOr tie (cmp a b)) l e).drop (l.length + 1 - n) := by
  obtain ⟨l₁, l₂, rfl, h₁, h₂⟩ := h.split tie e
  have hpush : pushBy (fun a b => lessOr tie (cmp a b))
      ((l₁ ++ l₂).drop ((l₁ ++ l₂).length - n)) e =
        l₁.drop ((l₁ ++ l₂).length - n) ++ e :: l₂.drop ((l₁ ++ l₂).length - n - l₁.length) := by
    rw [drop_append]
    exact pushBy_append (fun x hx => h₁ x (mem_of_mem_drop hx))
      fun x hx => h₂ x (mem_of_mem_drop hx)
  rw [pushBounded, hpush, pushBy_append h₁ h₂]
  have hlen : (l₁ ++ l₂).length = l₁.length + l₂.length := length_append
  split_ifs with hfull
  · rw [length_append, length_drop, length_cons, length_drop] at hfull
    have hk : (l₁ ++ l₂).length + 1 - n = (l₁ ++ l₂).length - n + 1 := by omega
    rw [hk]
    generalize (l₁ ++ l₂).length - n = k
    rcases Nat.lt_or_ge k l₁.length with hlt | hge
    · rw [drop_append_of_le_length hlt, Nat.sub_eq_zero_of_le (Nat.le_of_lt hlt), drop_zero,
        tail_append_of_ne_nil (by simpa using hlt), tail_drop]
    · have hnil : l₁.drop (k + 1) = [] := drop_eq_nil_of_le (by omega)
      rw [drop_eq_nil_of_le hge, nil_append, tail_cons, drop_append, hnil,
        nil_append, Nat.succ_sub hge, drop_succ_cons]
  · rw [length_append, length_drop, length_cons, length_drop] at hfull
    have hk : (l₁ ++ l₂).length + 1 - n = 0 ∧ (l₁ ++ l₂).length - n = 0 := by omega
    rw [hk.1, hk.2]
    simp

/-- A bounded queue holds the least of the elements that it was given. -/
theorem foldl_pushBounded (cmp : α → α → Ordering) [Std.TransCmp cmp] (tie : Bool) (n : Nat)
    (es : List α) :
    Descending cmp (es.foldl (pushBy fun a b => lessOr tie (cmp a b)) []) ∧
      (es.foldl (pushBy fun a b => lessOr tie (cmp a b)) []).Perm es ∧
      es.foldl (pushBounded (fun a b => lessOr tie (cmp a b)) n) [] =
        (es.foldl (pushBy fun a b => lessOr tie (cmp a b)) []).drop (es.length - n) := by
  induction es using List.reverseRecOn with
  | nil => exact ⟨List.Pairwise.nil, List.Perm.nil, by simp⟩
  | append_singleton es e ih =>
    obtain ⟨hdesc, hperm, hbounded⟩ := ih
    simp only [foldl_append, foldl_cons, foldl_nil]
    refine ⟨hdesc.pushBy e, ?_, ?_⟩
    · exact (perm_pushBy _ _ e).trans ((hperm.cons e).trans (perm_append_singleton e es).symm)
    · rw [hbounded, ← hperm.length_eq, pushBounded_drop hdesc, hperm.length_eq, length_append,
        length_singleton]

end Queue

end ISearch

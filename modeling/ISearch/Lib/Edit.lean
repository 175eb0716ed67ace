import Mathlib.Data.List.Basic

/-!
# Words one edit away

A word with one letter deleted, two adjacent letters exchanged, one letter replaced or one letter
inserted. `edits` lists them position by position: in front of each letter of the word, so that
nothing is inserted behind the last one.
-/

namespace OneEdit

open List

variable {σ : Type*} (letters : List σ)

/-- `w` is one edit away from the word. -/
inductive Edit : List σ → List σ → Prop
  | delete (l x r) : Edit (l ++ x :: r) (l ++ r)
  | transpose (l x y r) : Edit (l ++ x :: y :: r) (l ++ y :: x :: r)
  | replace (l x r) {c} (hc : c ∈ letters) : Edit (l ++ x :: r) (l ++ c :: r)
  | insert (l r) {c} (hc : c ∈ letters) : Edit (l ++ r) (l ++ c :: r)

/-- The edits at the letter `x`: an insertion is in front of it. -/
inductive EditAt : List σ → σ → List σ → List σ → Prop
  | delete (l x r) : EditAt l x r (l ++ r)
  | transpose (l x y r) : EditAt l x (y :: r) (l ++ y :: x :: r)
  | replace (l x r) {c} (hc : c ∈ letters) : EditAt l x r (l ++ c :: r)
  | insert (l x r) {c} (hc : c ∈ letters) : EditAt l x r (l ++ c :: x :: r)

/-- `w` comes from an edit at some letter of the word. -/
def Inner (word w : List σ) : Prop := ∃ l x r, word = l ++ x :: r ∧ EditAt letters l x r w

variable {letters} {word w : List σ} {c : σ}

theorem EditAt.edit {l r : List σ} {x : σ} (h : EditAt letters l x r w) :
    Edit letters (l ++ x :: r) w := by
  cases h with
  | delete => exact .delete ..
  | transpose => exact .transpose ..
  | replace _ hc => exact .replace _ _ _ hc
  | insert _ hc => exact .insert _ _ hc

theorem Inner.edit (h : Inner letters word w) : Edit letters word w := by
  obtain ⟨l, x, r, rfl, h⟩ := h
  exact h.edit

/-- Only the insertion behind the last letter is not an edit at a letter. -/
theorem edit_iff :
    Edit letters word w ↔ Inner letters word w ∨ ∃ c ∈ letters, w = word ++ [c] := by
  constructor
  · intro h
    cases h with
    | delete l x r => exact .inl ⟨l, x, r, rfl, .delete ..⟩
    | transpose l x y r => exact .inl ⟨l, x, y :: r, rfl, .transpose ..⟩
    | replace l x r hc => exact .inl ⟨l, x, r, rfl, .replace _ _ _ hc⟩
    | insert l r hc =>
      cases r with
      | nil => exact .inr ⟨_, hc, by rw [append_nil]⟩
      | cons x r => exact .inl ⟨l, x, r, rfl, .insert _ _ _ hc⟩
  · rintro (h | ⟨c, hc, rfl⟩)
    · exact h.edit
    · simpa using Edit.insert word [] hc

theorem getLast?_of_append_eq_cons {d : σ} {r : List σ} (hr : r ≠ []) (h : r ++ [c] = d :: r) :
    r.getLast? = some c := by
  induction r generalizing d with
  | nil => exact absurd rfl hr
  | cons x r ih =>
    obtain ⟨rfl, htail⟩ := List.cons.inj h
    clear h
    cases r with
    | nil => rw [singleton_inj.mp htail]; rfl
    | cons y r => rw [List.getLast?_cons_cons, ih (cons_ne_nil _ _) htail]

/-- An edit at a letter gives the word with a letter appended only if the last letter is doubled. -/
theorem inner_append_iff (hc : c ∈ letters) :
    Inner letters word (word ++ [c]) ↔ word.getLast? = some c := by
  constructor
  · rintro ⟨l, x, r, rfl, h⟩
    generalize hw : l ++ x :: r ++ [c] = w at h
    have hlength := congrArg List.length hw
    cases h with
    | delete => simp at hlength; omega
    | transpose => simp at hlength
    | replace => simp at hlength
    | insert =>
      rw [append_assoc, append_cancel_left_eq] at hw
      rw [List.getLast?_append_of_ne_nil _ (cons_ne_nil _ _),
        getLast?_of_append_eq_cons (cons_ne_nil _ _) hw]
  · intro h
    obtain ⟨l, rfl⟩ := List.getLast?_eq_some_iff.mp h
    exact ⟨l, c, [], rfl, by simpa using EditAt.insert l c [] hc⟩

/-- The edits at letters are all edits exactly if every letter is the last one. -/
theorem inner_complete_iff :
    (∀ w, Edit letters word w → Inner letters word w) ↔
      ∀ c ∈ letters, word.getLast? = some c := by
  constructor
  · intro h c hc
    exact (inner_append_iff hc).mp (h _ (edit_iff.mpr (.inr ⟨c, hc, rfl⟩)))
  · intro h w hw
    obtain hw | ⟨c, hc, rfl⟩ := edit_iff.mp hw
    · exact hw
    · exact (inner_append_iff hc).mpr (h c hc)

theorem Edit.length_le (h : Edit letters word w) : word.length ≤ w.length + 1 := by
  cases h <;> simp <;> omega

variable (letters)

def editsAt (left : List σ) : List σ → List (List σ)
  | [] => []
  | x :: r =>
    (left ++ r) :: (match r with
      | y :: r' => [left ++ y :: x :: r']
      | [] => []) ++
    letters.map (fun c => left ++ c :: r) ++ letters.map (fun c => left ++ c :: x :: r)

def edits (word : List σ) : List (List σ) :=
  (List.range word.length).flatMap fun i => editsAt letters (word.take i) (word.drop i)

variable {letters}

theorem mem_editsAt {l r : List σ} {x : σ} :
    w ∈ editsAt letters l (x :: r) ↔ EditAt letters l x r w := by
  constructor
  · intro h
    simp only [editsAt, cons_append, mem_cons, mem_append, mem_map] at h
    obtain rfl | (h | ⟨c, hc, rfl⟩) | ⟨c, hc, rfl⟩ := h
    · exact .delete ..
    · cases r with
      | nil => exact absurd h not_mem_nil
      | cons y r => rw [mem_singleton.mp h]; exact .transpose ..
    · exact .replace _ _ _ hc
    · exact .insert _ _ _ hc
  · intro h
    cases h with
    | delete => simp [editsAt]
    | transpose => simp [editsAt]
    | replace _ hc => simp [editsAt, hc]
    | insert _ hc => simp [editsAt, hc]

theorem mem_edits : w ∈ edits letters word ↔ Inner letters word w := by
  simp only [edits, mem_flatMap, mem_range]
  constructor
  · rintro ⟨i, hi, h⟩
    rw [drop_eq_getElem_cons hi, mem_editsAt] at h
    refine ⟨_, _, _, ?_, h⟩
    rw [← drop_eq_getElem_cons hi, take_append_drop]
  · rintro ⟨l, x, r, rfl, h⟩
    refine ⟨l.length, by simp, ?_⟩
    rwa [take_left, drop_left, mem_editsAt]

theorem editsAt_map {τ : Type*} (f : σ → τ) (l r : List σ) :
    editsAt (letters.map f) (l.map f) (r.map f) = (editsAt letters l r).map (List.map f) := by
  cases r with
  | nil => rfl
  | cons x r => cases r <;> simp [editsAt, Function.comp_def]

theorem edits_map {τ : Type*} (f : σ → τ) (word : List σ) :
    edits (letters.map f) (word.map f) = (edits letters word).map (List.map f) := by
  simp only [edits, length_map, map_flatMap, ← map_take, ← map_drop,
    editsAt_map]

end OneEdit

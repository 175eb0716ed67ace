import ISearch.Segmentation.Match

/-!
# Two matchings merged (`ngram_segment.cc`)

The words matched from the front and those matched from the end are walked at once. What lies
between two words that both have is taken from one of them, the one of the greater probability. The
walk starts and ends at the words `<BEG>` and `<END>`.
-/

namespace ISearch.Segmentation

open List Option

def begTag : Word := [60, 66, 69, 71, 62]
def endTag : Word := [60, 69, 78, 68, 62]

/-! ## The walk -/

/-- The variables of the loop. -/
structure Walk where
  pos1 : Nat
  pos2 : Nat
  cur1 : Nat
  cur2 : Nat
  cal_list1 : List Word
  cal_list2 : List Word
  parse_list : List Word

namespace Walk

def start : Walk := ⟨0, 0, 0, 0, [], [], []⟩

def next1 (w : Walk) (word : Word) : Walk :=
  { w with
    cal_list1 := w.cal_list1 ++ [word]
    pos1 := w.pos1 + word.length
    cur1 := w.cur1 + 1 }

def next2 (w : Walk) (word : Word) : Walk :=
  { w with
    cal_list2 := w.cal_list2 ++ [word]
    pos2 := w.pos2 + word.length
    cur2 := w.cur2 + 1 }

variable {α : Type} [LT α] [DecidableLT α] (calSegProbability : List Word → α)
  (parse_list1 parse_list2 : List Word)

/-- The words taken where the two differ, compared behind the word before them and, unless that is
the last one, before the word after them. -/
def choose (w : Walk) (last word1 word2 : Word) : List Word :=
  let more : Bool := w.cur1 < parse_list1.length - 1
  let cal_list1 := last :: w.cal_list1 ++ if more then [word1] else []
  let cal_list2 := last :: w.cal_list2 ++ if more then [word2] else []
  let cal_list :=
    if calSegProbability cal_list2 < calSegProbability cal_list1 then cal_list1 else cal_list2
  if more then cal_list.tail.dropLast else cal_list.tail

/-- The branch of the same word at the same position. -/
def agree (w : Walk) (word1 word2 : Word) : Option Walk :=
  let next (parse_list : List Word) : Walk :=
    { pos1 := w.pos1 + word1.length, pos2 := w.pos2 + word2.length, cur1 := w.cur1 + 1,
      cur2 := w.cur2 + 1, cal_list1 := [], cal_list2 := [], parse_list := parse_list ++ [word1] }
  if 0 < w.cal_list1.length then
    w.parse_list.getLast?.map fun last =>
      next (w.parse_list ++ w.choose calSegProbability parse_list1 last word1 word2)
  else some { next w.parse_list with cal_list2 := w.cal_list2 }

/-- One turn of the loop; none where a list is read behind its end. -/
def turn (w : Walk) : Option Walk := do
  let word1 ← parse_list1[w.cur1]?
  let word2 ← parse_list2[w.cur2]?
  if w.pos1 = w.pos2 then
    if word1.length = word2.length then w.agree calSegProbability parse_list1 word1 word2
    else if word1.length > word2.length then some (w.next2 word2)
    else some (w.next1 word1)
  else
    if w.pos1 + word1.length = w.pos2 + word2.length then some ((w.next1 word1).next2 word2)
    else if w.pos1 + word1.length > w.pos2 + word2.length then some (w.next2 word2)
    else some (w.next1 word1)

def loop : Nat → Walk → Option (List Word)
  | 0, _ => none
  | fuel + 1, w =>
    if w.cur1 = parse_list1.length ∧ w.cur2 = parse_list2.length then some w.parse_list
    else (w.turn calSegProbability parse_list1 parse_list2).bind (loop fuel)

end Walk

/-- `NgramSegment::ConcreteSplit`. -/
def Segment.ngramConcreteSplit (self : Segment) (appid : UInt32) {α : Type} [LT α] [DecidableLT α]
    (calSegProbability : List Word → α) (str : Word) (fuel : Nat) : Option (List Word) := do
  let parse_list1 ← self.fmm appid str fuel
  let parse_list2 ← self.bmm appid str fuel
  let parse_list ← Walk.loop calSegProbability (begTag :: parse_list1 ++ [endTag])
    (begTag :: parse_list2 ++ [endTag]) fuel .start
  return parse_list.tail.dropLast

/-- Between the words that both have, the result is wholly that of one of them. It ends with such a
word. -/
inductive Merged : List Word → List Word → List Word → Prop
  | nil : Merged [] [] []
  | word {f b r s s' t : List Word} (w : Word) (h : Merged f b r) (text : s.flatten = s'.flatten)
      (one : t = s ∨ t = s') : Merged (f ++ s ++ [w]) (b ++ s' ++ [w]) (r ++ t ++ [w])

/-- Between the words that both have, and behind the last of them, the result is wholly that of one
of them. -/
def TakenWhole (f b r : List Word) : Prop :=
  ∃ f₀ b₀ r₀ s s' t, Merged f₀ b₀ r₀ ∧ s.flatten = s'.flatten ∧ (t = s ∨ t = s') ∧
    f = f₀ ++ s ∧ b = b₀ ++ s' ∧ r = r₀ ++ t

variable {f b r : List Word}

theorem Merged.flatten_eq (h : Merged f b r) : f.flatten = b.flatten := by
  induction h with
  | nil => rfl
  | word w _ text _ ih => simp only [flatten_append, ih, text]

theorem Merged.flatten_result (h : Merged f b r) : r.flatten = f.flatten := by
  induction h with
  | nil => rfl
  | word w _ text one ih =>
    obtain rfl | rfl := one
    · simp only [flatten_append, ih]
    · simp only [flatten_append, ih, text]

theorem Merged.mem (h : Merged f b r) : ∀ w ∈ r, w ∈ f ∨ w ∈ b := by
  induction h with
  | nil => exact nofun
  | word w _ _ one ih =>
    intro x hx
    simp only [mem_append] at hx ⊢
    rcases hx with (hx | hx) | hx
    · exact (ih x hx).imp (fun h => .inl (.inl h)) fun h => .inl (.inl h)
    · obtain rfl | rfl := one
      · exact .inl (.inl (.inr hx))
      · exact .inr (.inl (.inr hx))
    · exact .inl (.inr hx)

theorem TakenWhole.flatten (h : TakenWhole f b r) : r.flatten = f.flatten := by
  obtain ⟨f₀, b₀, r₀, s, s', t, hmerged, text, one, rfl, rfl, rfl⟩ := h
  obtain rfl | rfl := one
  · rw [flatten_append, flatten_append, hmerged.flatten_result]
  · rw [flatten_append, flatten_append, hmerged.flatten_result, text]

theorem TakenWhole.mem (h : TakenWhole f b r) : ∀ w ∈ r, w ∈ f ∨ w ∈ b := by
  obtain ⟨f₀, b₀, r₀, s, s', t, hmerged, text, one, rfl, rfl, rfl⟩ := h
  intro x hx
  simp only [mem_append] at hx ⊢
  rcases hx with hx | hx
  · exact (hmerged.mem x hx).imp .inl .inl
  · obtain rfl | rfl := one
    · exact .inl (.inr hx)
    · exact .inr (.inr hx)

/-! ## One turn -/

namespace Walk

/-- Where the walk is: behind the words that are merged and those that are collected. -/
structure Tracks (f b : List Word) (w : Walk) (f₀ b₀ r₀ rest1 rest2 : List Word) : Prop where
  list1 : f = f₀ ++ w.cal_list1 ++ rest1
  list2 : b = b₀ ++ w.cal_list2 ++ rest2
  cur1 : w.cur1 = (f₀ ++ w.cal_list1).length + 1
  cur2 : w.cur2 = (b₀ ++ w.cal_list2).length + 1
  pos1 : w.pos1 = begTag.length + (f₀ ++ w.cal_list1).flatten.length
  pos2 : w.pos2 = begTag.length + (b₀ ++ w.cal_list2).flatten.length
  parse_list : w.parse_list = begTag :: r₀
  merged : Merged f₀ b₀ r₀

variable {w : Walk} {f₀ b₀ r₀ rest1 rest2 : List Word}

theorem Tracks.next1 {word : Word} (h : Tracks f b w f₀ b₀ r₀ (word :: rest1) rest2) :
    Tracks f b (w.next1 word) f₀ b₀ r₀ rest1 rest2 where
  list1 := by simpa [Walk.next1] using h.list1
  list2 := h.list2
  cur1 := by
    have := h.cur1
    simp only [Walk.next1, length_append, length_singleton] at this ⊢
    omega
  cur2 := h.cur2
  pos1 := by
    have := h.pos1
    simp only [Walk.next1, flatten_append, length_append, flatten_singleton] at this ⊢
    omega
  pos2 := h.pos2
  parse_list := h.parse_list
  merged := h.merged

theorem Tracks.next2 {word : Word} (h : Tracks f b w f₀ b₀ r₀ rest1 (word :: rest2)) :
    Tracks f b (w.next2 word) f₀ b₀ r₀ rest1 rest2 where
  list1 := h.list1
  list2 := by simpa [Walk.next2] using h.list2
  cur1 := h.cur1
  cur2 := by
    have := h.cur2
    simp only [Walk.next2, length_append, length_singleton] at this ⊢
    omega
  pos1 := h.pos1
  pos2 := by
    have := h.pos2
    simp only [Walk.next2, flatten_append, length_append, flatten_singleton] at this ⊢
    omega
  parse_list := h.parse_list
  merged := h.merged

theorem Tracks.word1 {word : Word} (h : Tracks f b w f₀ b₀ r₀ (word :: rest1) rest2) :
    (begTag :: f ++ [endTag])[w.cur1]? = some word := by
  rw [h.cur1, h.list1, cons_append, List.getElem?_cons_succ, append_assoc,
    List.getElem?_append_right le_rfl, Nat.sub_self]
  rfl

theorem Tracks.word2 {word : Word} (h : Tracks f b w f₀ b₀ r₀ rest1 (word :: rest2)) :
    (begTag :: b ++ [endTag])[w.cur2]? = some word := by
  rw [h.cur2, h.list2, cons_append, List.getElem?_cons_succ, append_assoc,
    List.getElem?_append_right le_rfl, Nat.sub_self]
  rfl

theorem Tracks.end1 (h : Tracks f b w f₀ b₀ r₀ [] rest2) :
    (begTag :: f ++ [endTag])[w.cur1]? = some endTag := by
  rw [h.cur1, h.list1, append_nil, cons_append, List.getElem?_cons_succ,
    List.getElem?_append_right le_rfl, Nat.sub_self]
  rfl

theorem Tracks.end2 (h : Tracks f b w f₀ b₀ r₀ rest1 []) :
    (begTag :: b ++ [endTag])[w.cur2]? = some endTag := by
  rw [h.cur2, h.list2, append_nil, cons_append, List.getElem?_cons_succ,
    List.getElem?_append_right le_rfl, Nat.sub_self]
  rfl

/-- The same number of bytes is before and behind the two positions together. -/
theorem Tracks.bytes (h : Tracks f b w f₀ b₀ r₀ rest1 rest2) (htext : f.flatten = b.flatten) :
    w.pos1 + rest1.flatten.length = w.pos2 + rest2.flatten.length := by
  have hlength := congrArg List.length htext
  rw [h.list1, h.list2, @flatten_append _ (f₀ ++ _), @flatten_append _ (b₀ ++ _),
    length_append, length_append] at hlength
  rw [h.pos1, h.pos2]
  omega

/-- At one position, what was collected from the two is the same text. -/
theorem Tracks.text (h : Tracks f b w f₀ b₀ r₀ rest1 rest2) (htext : f.flatten = b.flatten)
    (hpos : w.pos1 = w.pos2) :
    w.cal_list1.flatten = w.cal_list2.flatten ∧ rest1.flatten = rest2.flatten := by
  have hbytes := h.bytes htext
  rw [h.list1, h.list2] at htext
  simp only [flatten_append, append_assoc, h.merged.flatten_eq,
    append_cancel_left_eq] at htext
  exact append_inj' htext (by omega)

variable {α : Type} [LT α] [DecidableLT α] {calSegProbability : List Word → α}

theorem choose_eq {parse_list1 : List Word} {last word1 word2 : Word} :
    w.choose calSegProbability parse_list1 last word1 word2 = w.cal_list1 ∨
      w.choose calSegProbability parse_list1 last word1 word2 = w.cal_list2 := by
  rw [choose]
  by_cases hmore : w.cur1 < parse_list1.length - 1
  · simp only [hmore, decide_true, if_true]
    split
    · exact .inl (by simp)
    · exact .inr (by simp)
  · simp only [hmore, decide_false, Bool.false_eq_true, if_false, append_nil]
    split
    · exact .inl rfl
    · exact .inr rfl

/-- What one of the two has collected is merged, with the word that follows in both. -/
theorem agree_eq {parse_list1 : List Word} {word1 word2 : Word}
    (hparse : w.parse_list = begTag :: r₀) (hcal : w.cal_list1 = [] → w.cal_list2 = []) :
    ∃ t, (t = w.cal_list1 ∨ t = w.cal_list2) ∧
      w.agree calSegProbability parse_list1 word1 word2 =
        some ⟨w.pos1 + word1.length, w.pos2 + word2.length, w.cur1 + 1, w.cur2 + 1, [], [],
          begTag :: (r₀ ++ t ++ [word1])⟩ := by
  rw [agree]
  dsimp only
  split_ifs with hpos
  · obtain ⟨last, hlast⟩ : ∃ last, w.parse_list.getLast? = some last :=
      ⟨_, List.getLast?_eq_some_getLast (hparse ▸ cons_ne_nil _ _)⟩
    refine ⟨_, @choose_eq w α _ _ calSegProbability parse_list1 last word1 word2, ?_⟩
    rw [hlast, map_some, hparse, cons_append, cons_append]
  · have hnil : w.cal_list1 = [] := eq_nil_of_length_eq_zero (Nat.eq_zero_of_not_pos hpos)
    refine ⟨[], .inl hnil.symm, ?_⟩
    rw [hcal hnil, hparse, append_nil, cons_append]

/-- Words that are not empty. -/
theorem Tracks.cal_nil (h : Tracks f b w f₀ b₀ r₀ rest1 rest2) (hb : ∀ word ∈ b, word ≠ [])
    (hcal : w.cal_list1.flatten = w.cal_list2.flatten) (hnil : w.cal_list1 = []) :
    w.cal_list2 = [] := by
  rw [hnil, flatten_nil, eq_comm, flatten_eq_nil_iff] at hcal
  refine eq_nil_iff_forall_not_mem.mpr fun word hword => hb word ?_ (hcal word hword)
  rw [h.list2]
  simp [hword]

variable (calSegProbability) in
theorem Tracks.agree {word : Word}
    (h : Tracks f b w f₀ b₀ r₀ (word :: rest1) (word :: rest2))
    (hb : ∀ word ∈ b, word ≠ []) (hcal : w.cal_list1.flatten = w.cal_list2.flatten)
    {parse_list1 : List Word} :
    ∃ w' r', w.agree calSegProbability parse_list1 word word = some w' ∧
      Tracks f b w' (f₀ ++ w.cal_list1 ++ [word]) (b₀ ++ w.cal_list2 ++ [word]) r' rest1 rest2 := by
  obtain ⟨t, one, heq⟩ := @agree_eq w r₀ α _ _ calSegProbability parse_list1 word word
    h.parse_list (h.cal_nil hb hcal)
  refine ⟨_, r₀ ++ t ++ [word], heq, ?_⟩
  exact {
    list1 := by rw [h.list1]; simp
    list2 := by rw [h.list2]; simp
    cur1 := by rw [h.cur1]; simp; omega
    cur2 := by rw [h.cur2]; simp; omega
    pos1 := by rw [h.pos1]; simp; omega
    pos2 := by rw [h.pos2]; simp; omega
    parse_list := rfl
    merged := h.merged.word word hcal one }

variable (calSegProbability) in
/-- A word is left in one of the two. -/
theorem Tracks.turn (h : Tracks f b w f₀ b₀ r₀ rest1 rest2) (htext : f.flatten = b.flatten)
    (hf : ∀ word ∈ f, word ≠ []) (hb : ∀ word ∈ b, word ≠ [])
    (hrest : rest1 ≠ [] ∨ rest2 ≠ []) :
    ∃ w' f₀' b₀' r₀' rest1' rest2',
      w.turn calSegProbability (begTag :: f ++ [endTag]) (begTag :: b ++ [endTag]) = some w' ∧
      Tracks f b w' f₀' b₀' r₀' rest1' rest2' ∧
      rest1'.length + rest2'.length < rest1.length + rest2.length := by
  have hbytes := h.bytes htext
  have hpos1 {word : Word} (hword : word ∈ rest1) : 0 < word.length :=
    length_pos_iff.mpr (hf word (by rw [h.list1]; simp [hword]))
  have hpos2 {word : Word} (hword : word ∈ rest2) : 0 < word.length :=
    length_pos_iff.mpr (hb word (by rw [h.list2]; simp [hword]))
  cases rest1 with
  | nil =>
    cases rest2 with
    | nil => exact absurd hrest (by simp)
    | cons word2 rest2 =>
      have hword := hpos2 mem_cons_self
      rw [flatten_nil, length_nil, flatten_cons, length_append] at hbytes
      refine ⟨_, _, _, _, _, _, ?_, h.next2, by simp⟩
      rw [Walk.turn, h.end1, h.word2]
      simp only [bind_eq_bind, bind_some]
      rw [if_neg (by omega), if_neg, if_pos]
      all_goals
        simp only [endTag, length_cons, length_nil]
        omega
  | cons word1 rest1 =>
    have hword1 := hpos1 mem_cons_self
    cases rest2 with
    | nil =>
      rw [flatten_nil, length_nil, flatten_cons, length_append] at hbytes
      refine ⟨_, _, _, _, _, _, ?_, h.next1, by simp⟩
      rw [Walk.turn, h.word1, h.end2]
      simp only [bind_eq_bind, bind_some]
      rw [if_neg (by omega), if_neg, if_neg]
      all_goals
        simp only [endTag, length_cons, length_nil]
        omega
    | cons word2 rest2 =>
      have hword2 := hpos2 mem_cons_self
      rw [Walk.turn, h.word1, h.word2]
      simp only [bind_eq_bind, bind_some]
      split_ifs with hpos hlen hgt hends hgt
      · obtain ⟨hcal, htail⟩ := h.text htext hpos
        rw [flatten_cons, flatten_cons] at htail
        obtain ⟨rfl, -⟩ := append_inj htail hlen
        obtain ⟨w', r', heq, htracks⟩ := h.agree calSegProbability hb hcal
        exact ⟨w', _, _, r', _, _, heq, htracks, by simp; omega⟩
      · exact ⟨_, _, _, _, _, _, rfl, h.next2, by simp⟩
      · exact ⟨_, _, _, _, _, _, rfl, h.next1, by simp⟩
      · exact ⟨_, _, _, _, _, _, rfl, h.next1.next2, by simp; omega⟩
      · exact ⟨_, _, _, _, _, _, rfl, h.next2, by simp⟩
      · exact ⟨_, _, _, _, _, _, rfl, h.next1, by simp⟩

variable (calSegProbability) in
/-- The last turn takes `<END>`. -/
theorem Tracks.last_turn (h : Tracks f b w f₀ b₀ r₀ [] []) (htext : f.flatten = b.flatten)
    (hb : ∀ word ∈ b, word ≠ []) :
    ∃ w' r, w.turn calSegProbability (begTag :: f ++ [endTag]) (begTag :: b ++ [endTag]) = some w' ∧
      w'.cur1 = (begTag :: f ++ [endTag]).length ∧ w'.cur2 = (begTag :: b ++ [endTag]).length ∧
      w'.parse_list = begTag :: (r ++ [endTag]) ∧ TakenWhole f b r := by
  have hpos : w.pos1 = w.pos2 := h.bytes htext
  obtain ⟨hcal, -⟩ := h.text htext hpos
  obtain ⟨t, one, heq⟩ := @agree_eq w r₀ α _ _ calSegProbability (begTag :: f ++ [endTag]) endTag
    endTag h.parse_list (h.cal_nil hb hcal)
  have hturn : w.turn calSegProbability (begTag :: f ++ [endTag]) (begTag :: b ++ [endTag]) =
      w.agree calSegProbability (begTag :: f ++ [endTag]) endTag endTag := by
    rw [Walk.turn, h.end1, h.end2]
    simp only [bind_eq_bind, bind_some]
    rw [if_pos hpos, if_pos trivial]
  refine ⟨_, r₀ ++ t, hturn.trans heq, ?_, ?_, rfl, f₀, b₀, r₀, _, _, t, h.merged, hcal, one,
    ?_, ?_, rfl⟩
  · rw [h.cur1, h.list1]
    simp [Nat.add_assoc]
  · rw [h.cur2, h.list2]
    simp [Nat.add_assoc]
  · rw [h.list1, append_nil]
  · rw [h.list2, append_nil]

theorem Tracks.loop (h : Tracks f b w f₀ b₀ r₀ rest1 rest2) (htext : f.flatten = b.flatten)
    (hf : ∀ word ∈ f, word ≠ []) (hb : ∀ word ∈ b, word ≠ []) {fuel : Nat}
    (hfuel : rest1.length + rest2.length + 1 < fuel) :
    ∃ r, Walk.loop calSegProbability (begTag :: f ++ [endTag]) (begTag :: b ++ [endTag]) fuel w =
        some (begTag :: (r ++ [endTag])) ∧ TakenWhole f b r := by
  induction fuel generalizing w f₀ b₀ r₀ rest1 rest2 with
  | zero => exact absurd hfuel (Nat.not_lt_zero _)
  | succ fuel ih =>
    have hgoes : ¬(w.cur1 = (begTag :: f ++ [endTag]).length ∧
        w.cur2 = (begTag :: b ++ [endTag]).length) := by
      rintro ⟨hcur, -⟩
      have hlength := congrArg List.length h.list1
      rw [h.cur1] at hcur
      simp only [length_append, length_cons, length_nil] at hcur hlength
      omega
    rw [Walk.loop, if_neg hgoes]
    by_cases hrest : rest1 ≠ [] ∨ rest2 ≠ []
    · obtain ⟨w', f₀', b₀', r₀', rest1', rest2', heq, htracks, hlt⟩ :=
        h.turn calSegProbability htext hf hb hrest
      rw [heq, bind_some]
      exact ih htracks (by omega)
    · rw [not_or, not_ne_iff, not_ne_iff] at hrest
      obtain ⟨rfl, rfl⟩ := hrest
      obtain ⟨w', r, heq, hcur1, hcur2, hparse, hwhole⟩ :=
        h.last_turn calSegProbability htext hb
      cases fuel with
      | zero => exact absurd hfuel (by simp)
      | succ fuel =>
        rw [heq, bind_some, Walk.loop, if_pos ⟨hcur1, hcur2⟩, hparse]
        exact ⟨r, rfl, hwhole⟩

/-- The first turn takes `<BEG>`. -/
theorem start_turn : ∃ w,
    start.turn calSegProbability (begTag :: f ++ [endTag]) (begTag :: b ++ [endTag]) = some w ∧
      Tracks f b w [] [] [] f b := by
  refine ⟨⟨5, 5, 1, 1, [], [], [begTag]⟩, rfl, ?_⟩
  exact ⟨rfl, rfl, rfl, rfl, rfl, rfl, rfl, .nil⟩

theorem loop_start (htext : f.flatten = b.flatten) (hf : ∀ word ∈ f, word ≠ [])
    (hb : ∀ word ∈ b, word ≠ []) {fuel : Nat} (hfuel : f.length + b.length + 2 < fuel) :
    ∃ r, Walk.loop calSegProbability (begTag :: f ++ [endTag])
      (begTag :: b ++ [endTag]) fuel start =
        some (begTag :: (r ++ [endTag])) ∧ TakenWhole f b r := by
  cases fuel with
  | zero => exact absurd hfuel (Nat.not_lt_zero _)
  | succ fuel =>
    obtain ⟨w, hturn, htracks⟩ := @start_turn f b α _ _ calSegProbability
    have hgoes : ¬(start.cur1 = (begTag :: f ++ [endTag]).length ∧
        start.cur2 = (begTag :: b ++ [endTag]).length) := fun h => absurd h.1 (by simp [start])
    rw [Walk.loop, if_neg hgoes, hturn, bind_some]
    exact htracks.loop htext hf hb (by omega)

end Walk

/-- The number of words is at most that of the characters. -/
theorem length_le_of_flatten {words : List Word} (hwords : ∀ word ∈ words, word ≠ []) :
    words.length ≤ words.flatten.length := by
  induction words with
  | nil => exact le_rfl
  | cons word words ih =>
    obtain ⟨hword, hwords⟩ := forall_mem_cons.mp hwords
    have := length_pos_iff.mpr hword
    have := ih hwords
    rw [flatten_cons, length_append, length_cons]
    omega

variable {self : Segment} {appid : UInt32} {α : Type} [LT α] [DecidableLT α]

theorem Segment.ngramConcreteSplit_spec (calSegProbability : List Word → α) {cs : List Word}
    (hcs : ∀ c ∈ cs, IsCharacter c) {fuel : Nat} (hfuel : 2 * cs.flatten.length + 2 < fuel) :
    ∃ f b r, self.fmm appid cs.flatten fuel = some f ∧ self.bmm appid cs.flatten fuel = some b ∧
      self.ngramConcreteSplit appid calSegProbability cs.flatten fuel = some r ∧
      self.Matched appid cs.flatten r ∧ TakenWhole f b r := by
  have hle : cs.length ≤ cs.flatten.length :=
    length_le_of_flatten fun c hc => (hcs c hc).ne_nil
  obtain ⟨f, hfmm, hf⟩ := @fmmLoop_matched self appid cs hcs 1 fuel 0 (Nat.zero_le _) (by omega)
  obtain ⟨b, hbmm, hb⟩ := @bmmLoop_matched self appid cs hcs 1 fuel cs.length le_rfl (by omega)
  rw [drop_zero] at hf
  rw [take_length] at hb
  have hflen := length_le_of_flatten hf.ne_nil
  have hblen := length_le_of_flatten hb.ne_nil
  rw [hf.flatten] at hflen
  rw [hb.flatten] at hblen
  obtain ⟨r, hloop, hwhole⟩ := @Walk.loop_start f b α _ _ calSegProbability
    (hf.flatten.trans hb.flatten.symm) hf.ne_nil hb.ne_nil fuel (by omega)
  rw [← length_flatten hcs] at hbmm
  refine ⟨f, b, r, hfmm, hbmm, ?_, ⟨hwhole.flatten.trans hf.flatten, fun w hw => ?_,
    fun w hw => ?_⟩, hwhole⟩
  · rw [ngramConcreteSplit, fmm, hfmm, bmm, hbmm]
    simp only [bind_eq_bind, bind_some]
    rw [hloop]
    simp
  · exact (hwhole.mem w hw).elim (hf.ne_nil w) (hb.ne_nil w)
  · exact (hwhole.mem w hw).elim (hf.valid w) (hb.valid w)

end ISearch.Segmentation

import Mathlib.Data.List.Infix
import ISearch.Lib.Bytes

/-!
# Splitting of pinyin (`search_util.cc`, `dtc_tools.cc`)

A string of letters is cut in front of its consonants; behind an `n` the letters that follow decide
where the cut is. The query side and the index side have a copy each.
-/

namespace ISearch.Pinyin

open List

abbrev Str := List UInt8

def blank : UInt8 := 32

/-- `strchr("aeiouv", c)`, which also finds the zero behind the letters. -/
def isVowel (c : UInt8) : Bool := c ∈ "aeiouv".toList.map Char.toUInt8 ∨ c = 0

def isInitialH (c h : UInt8) : Bool :=
  (c = 'z'.toUInt8 ∨ c = 'c'.toUInt8 ∨ c = 's'.toUInt8) ∧ h = 'h'.toUInt8

/-! ## The query side -/

/-- The `h` of `zh`, `ch` and `sh`: what is written for it, and the letters left. -/
def aspirate (type : Int) (c : UInt8) : Str → Str × Str
  | h :: rest =>
    if isInitialH c h then (if type = 1 then [h] else [blank, h], rest) else ([], h :: rest)
  | [] => ([], [])

/-- A turn of `split_func`: what is written, and the letters left. -/
def turn (type : Int) (first : Bool) (c : UInt8) (rest : Str) : Str × Str :=
  if isVowel c then ([c], rest)
  else if c ≠ 'n'.toUInt8 then
    ((if first then [c] else [blank, c]) ++ (aspirate type c rest).1, (aspirate type c rest).2)
  else match rest with
    | [] => ([c], [])
    | x :: rest =>
      if isVowel x then (if first then [c, x] else [blank, c, x], rest)
      else if x = 'g'.toUInt8 then
        match rest with
        | [] => ([c, x], [])
        | y :: rest =>
          if isVowel y then ([c, blank, x, y], rest)
          else ([c, x, blank, y] ++ (aspirate type y rest).1, (aspirate type y rest).2)
      else ([c, blank, x] ++ (aspirate type x rest).1, (aspirate type x rest).2)

theorem aspirate_suffix (type : Int) (c : UInt8) (rest : Str) :
    (aspirate type c rest).2 <:+ rest := by
  cases rest with
  | nil => exact suffix_rfl
  | cons h rest =>
    rw [aspirate]
    split_ifs
    · exact suffix_cons _ _
    · exact suffix_cons _ _
    · exact suffix_rfl

theorem turn_suffix (type : Int) (first : Bool) (c : UInt8) (rest : Str) :
    (turn type first c rest).2 <:+ rest := by
  by_cases hvowel : isVowel c
  · have hrest : (turn type first c rest).2 = rest := by rw [turn.eq_def, if_pos hvowel]
    rw [hrest]
  by_cases hn : c ≠ 'n'.toUInt8
  · rw [turn.eq_def, if_neg hvowel, if_pos hn]
    exact aspirate_suffix ..
  rw [turn.eq_def, if_neg hvowel, if_neg hn]
  rcases rest with _ | ⟨x, rest⟩
  · exact suffix_rfl
  by_cases hx : isVowel x
  · simp only [if_pos hx]
    exact suffix_cons _ _
  by_cases hg : x = 'g'.toUInt8
  · simp only [if_neg hx, if_pos hg]
    rcases rest with _ | ⟨y, rest⟩
    · exact nil_suffix
    dsimp only
    split_ifs
    · exact (suffix_cons _ _).trans (suffix_cons _ _)
    · exact ((aspirate_suffix ..).trans (suffix_cons _ _)).trans (suffix_cons _ _)
  · simp only [if_neg hx, if_neg hg]
    exact (aspirate_suffix ..).trans (suffix_cons _ _)

def splitLoop (type : Int) (first : Bool) : Str → Str
  | [] => []
  | c :: rest => (turn type first c rest).1 ++ splitLoop type false (turn type first c rest).2
termination_by pinyin => pinyin.length
decreasing_by
  rw [length_cons]
  exact Nat.lt_succ_of_le (turn_suffix type first c rest).length_le

def splitFunc (pinyin : Str) (type : Int) : Str := splitLoop type true pinyin

namespace CommonHelper

def aspirate (c : UInt8) : Str → Str × Str
  | h :: rest => if isInitialH c h then ([h], rest) else ([], h :: rest)
  | [] => ([], [])

/-- A turn of `SplitFunc`: what is written, and the letters left. -/
def turn (first : Bool) (c : UInt8) (rest : Str) : Str × Str :=
  if isVowel c then ([c], rest)
  else if c ≠ 'n'.toUInt8 then
    ((if first then [c] else [blank, c]) ++ (aspirate c rest).1, (aspirate c rest).2)
  else match rest with
    | [] => ([c], [])
    | x :: rest =>
      if isVowel x then (if first then [c, x] else [blank, c, x], rest)
      else if x = 'g'.toUInt8 then
        match rest with
        | [] => ([c, x], [])
        | y :: rest =>
          if isVowel y then ([c, blank, x, y], rest)
          else ([c, x, blank, y] ++ (aspirate y rest).1, (aspirate y rest).2)
      else ([c, blank, x] ++ (aspirate x rest).1, (aspirate x rest).2)

theorem aspirate_eq (c : UInt8) (rest : Str) : aspirate c rest = Pinyin.aspirate 1 c rest := by
  cases rest <;> rfl

theorem turn_eq (first : Bool) (c : UInt8) (rest : Str) :
    turn first c rest = Pinyin.turn 1 first c rest := by
  unfold turn Pinyin.turn
  simp only [aspirate_eq]

def splitLoop (first : Bool) : Str → Str
  | [] => []
  | c :: rest => (turn first c rest).1 ++ splitLoop false (turn first c rest).2
termination_by pinyin => pinyin.length
decreasing_by
  rw [length_cons, turn_eq]
  exact Nat.lt_succ_of_le (turn_suffix 1 first c rest).length_le

def splitFunc (pinyin : Str) : Str := splitLoop true pinyin

theorem splitLoop_eq (first : Bool) (pinyin : Str) :
    splitLoop first pinyin = Pinyin.splitLoop 1 first pinyin := by
  fun_induction splitLoop first pinyin with
  | case1 => rw [Pinyin.splitLoop]
  | case2 first c rest ih => rw [Pinyin.splitLoop, ih, turn_eq]

end CommonHelper

/-! ## The letters written -/

def letters (split_str : Str) : Str := split_str.filter (· ≠ blank)

theorem letters_append (a b : Str) : letters (a ++ b) = letters a ++ letters b :=
  filter_append ..

@[simp] theorem letters_nil : letters [] = [] := rfl

@[simp] theorem letters_blank (s : Str) : letters (blank :: s) = letters s :=
  filter_cons_of_neg (by simp)

theorem letters_cons {c : UInt8} (hc : c ≠ blank) (s : Str) : letters (c :: s) = c :: letters s :=
  filter_cons_of_pos (by simpa using hc)

theorem letters_aspirate (type : Int) (c : UInt8) {rest : Str} (h : blank ∉ rest) :
    letters (aspirate type c rest).1 ++ (aspirate type c rest).2 = rest := by
  cases rest with
  | nil => rfl
  | cons x rest =>
    have hx : x ≠ blank := fun hx => h (hx ▸ mem_cons_self)
    rw [aspirate]
    split_ifs <;> simp [letters_cons hx]

/-- A turn writes the letters it takes. -/
theorem letters_turn (type : Int) (first : Bool) {c : UInt8} {rest : Str} (h : blank ∉ c :: rest) :
    letters (turn type first c rest).1 ++ (turn type first c rest).2 = c :: rest := by
  rw [mem_cons, not_or] at h
  obtain ⟨hc, hrest⟩ := h
  have hc := Ne.symm hc
  by_cases hvowel : isVowel c
  · rw [turn.eq_def, if_pos hvowel, letters_cons hc]
    rfl
  by_cases hn : c ≠ 'n'.toUInt8
  · have hfirst : letters (if first then [c] else [blank, c]) = [c] := by
      cases first
      · exact (letters_blank _).trans (letters_cons hc [])
      · exact letters_cons hc []
    rw [turn.eq_def, if_neg hvowel, if_pos hn, letters_append, hfirst, append_assoc,
      letters_aspirate _ _ hrest]
    rfl
  rw [turn.eq_def, if_neg hvowel, if_neg hn]
  rcases rest with _ | ⟨x, rest⟩
  · rw [letters_cons hc]
    rfl
  rw [mem_cons, not_or] at hrest
  obtain ⟨hx, hrest⟩ := hrest
  have hx := Ne.symm hx
  by_cases hxv : isVowel x
  · have hfirst : letters (if first then [c, x] else [blank, c, x]) = [c, x] := by
      cases first
      · exact (letters_blank _).trans ((letters_cons hc _).trans (by rw [letters_cons hx]; rfl))
      · exact (letters_cons hc _).trans (by rw [letters_cons hx]; rfl)
    simp only [if_pos hxv, hfirst]
    rfl
  by_cases hg : x = 'g'.toUInt8
  · simp only [if_neg hxv, if_pos hg]
    rcases rest with _ | ⟨y, rest⟩
    · rw [letters_cons hc, letters_cons hx]
      rfl
    rw [mem_cons, not_or] at hrest
    obtain ⟨hy, hrest⟩ := hrest
    have hy := Ne.symm hy
    dsimp only
    split_ifs
    · rw [letters_cons hc, letters_blank, letters_cons hx, letters_cons hy]
      rfl
    · rw [letters_append, letters_cons hc, letters_cons hx, letters_blank, letters_cons hy,
        append_assoc, letters_aspirate _ _ hrest]
      rfl
  · simp only [if_neg hxv, if_neg hg]
    rw [letters_append, letters_cons hc, letters_blank, letters_cons hx, append_assoc,
      letters_aspirate _ _ hrest]
    rfl

theorem letters_splitLoop (type : Int) (first : Bool) {pinyin : Str} (h : blank ∉ pinyin) :
    letters (splitLoop type first pinyin) = pinyin := by
  fun_induction splitLoop type first pinyin with
  | case1 => rfl
  | case2 first c rest ih =>
    have hrest : blank ∉ (turn type first c rest).2 := fun hmem =>
      h (mem_cons_of_mem c ((turn_suffix type first c rest).subset hmem))
    rw [letters_append, ih hrest, letters_turn type first h]

/-- The longest syllable of at most `j` letters, or the first letter. -/
def longest (isPhonetic : Str → Bool) (sub : Str) : Nat → Str
  | j + 2 =>
    if isPhonetic (sub.take (j + 2)) then sub.take (j + 2) else longest isPhonetic sub (j + 1)
  | _ => sub.take 1

theorem longest_eq_take (isPhonetic : Str → Bool) (sub : Str) (j : Nat) :
    ∃ n, longest isPhonetic sub j = sub.take (n + 1) := by
  fun_induction longest isPhonetic sub j with
  | case1 j h => exact ⟨j + 1, rfl⟩
  | case2 j h ih => exact ih
  | case3 => exact ⟨0, rfl⟩

def fmm (isPhonetic : Str → Bool) : Str → List Str
  | [] => []
  | c :: rest =>
    let sub := (c :: rest).take 6
    let key := longest isPhonetic sub sub.length
    key :: fmm isPhonetic ((c :: rest).drop key.length)
termination_by str => str.length
decreasing_by
  obtain ⟨n, hn⟩ := longest_eq_take isPhonetic ((c :: rest).take 6) ((c :: rest).take 6).length
  rw [hn]
  simp only [length_drop, length_take, length_cons]
  omega

theorem flatten_fmm (isPhonetic : Str → Bool) (str : Str) : (fmm isPhonetic str).flatten = str := by
  fun_induction fmm isPhonetic str with
  | case1 => rfl
  | case2 c rest sub key ih =>
    obtain ⟨n, hn⟩ := longest_eq_take isPhonetic sub sub.length
    have hsub : key <+: sub := by
      rw [show key = sub.take (n + 1) from hn]
      exact take_prefix _ _
    have hpre : key <+: c :: rest := hsub.trans (List.take_prefix _ _)
    rw [flatten_cons, ih, prefix_iff_eq_append.mp hpre]

/-- A string without blanks is given back by the pieces, and the two copies agree. -/
theorem pinyin_split (pinyin : Str) (h : blank ∉ pinyin) :
    (∀ type, (splitFunc pinyin type).filter (· ≠ blank) = pinyin) ∧
    splitFunc pinyin 1 = CommonHelper.splitFunc pinyin ∧
    ∀ isPhonetic : Str → Bool, (fmm isPhonetic pinyin).flatten = pinyin :=
  ⟨fun type => letters_splitLoop type true h, (CommonHelper.splitLoop_eq true pinyin).symm,
    fun isPhonetic => flatten_fmm isPhonetic pinyin⟩

theorem pinyin_split_zhuang :
    (splitFunc ("zhuangao".toList.map Char.toUInt8) 2).filter (· ≠ blank) =
      "zhuangao".toList.map Char.toUInt8 :=
  (pinyin_split _ (by decide)).1 2

end ISearch.Pinyin

import Mathlib.Data.List.Dedup
import ISearch.Lib.Edit
import ISearch.Segmentation.Text

/-!
# Spell correction (`correction.cc`)

The candidates for a word are its edits at each of its positions; the answer is a known one of the
greatest frequency. Nothing is ever inserted behind the last character.
-/

namespace ISearch

open Segmentation OneEdit
open List hiding length length_append

structure Correction where
  en_word_map : Word → Option Int
  characters : List Word

namespace Correction

def letters : Word := "abcdefghijklmnopqrstuvwxyz".toList.map fun c => UInt8.ofNat c.toNat

/-- The turn of `Edits1` for one position. -/
def edits1At (left right : Word) : List Word :=
  let deletes := left ++ right.drop 1
  let transposes := left ++ right.getD 1 0 :: right.getD 0 0 :: right.drop 2
  deletes :: (if 1 < right.length then [transposes] else []) ++
    (if 0 < right.length then letters.map fun c => left ++ c :: right.drop 1 else []) ++
    letters.map fun c => left ++ c :: right

def edits1 (word : Word) : List Word :=
  (List.range word.length).flatMap fun i => edits1At (word.take i) (word.drop i)

/-- The corrector with the characters of a table. -/
def ofTable (en_word_map : Word → Option Int) (table : List Char) : Correction :=
  ⟨en_word_map, table.map String.utf8EncodeChar⟩

variable (correction : Correction) (segment : Segment)

/-- The turn of `ChEdits1` for one position. -/
def chEdits1At (left right : Word) : List Word :=
  let rest := substr right 1 (length right - 1)
  let transposes := left ++ charAt right 1 ++ charAt right 0 ++ substr right 2 (length right - 2)
  (left ++ rest) :: (if 1 < length right then [transposes] else []) ++
    (if 0 < length right then correction.characters.map fun c => left ++ c ++ rest else []) ++
    correction.characters.map fun c => left ++ c ++ right

def chEdits1 (word : Word) : List Word :=
  (List.range (length word)).flatMap fun (i : Nat) =>
    correction.chEdits1At (substr word 0 i) (substr word i ((length word : Int) - i))

def known (words : List Word) : List Word :=
  words.filter fun w => (correction.en_word_map w).isSome

def chKnown (words : List Word) : List Word := words.filter (segment.wordValid 0)

/-- `word_freq` of `GetWordInfo`. -/
def getWordFreq (appid : UInt32) (word : Word) : UInt32 :=
  match segment.word_dict word with
  | some wordInfo => (wordInfo 0).getD ((wordInfo appid).getD 0)
  | none => 0

variable (sort : List (Word × Int) → List (Word × Int))

/-- The first of the candidates in the order of `CmpByValue`. -/
def best (freq : Word → Int) (candidates : List Word) : Word :=
  match sort (candidates.dedup.map fun w => (w, freq w)) with
  | tmp :: _ => tmp.1
  | [] => []

def enFreq (word : Word) : Int := (correction.en_word_map word).getD 0

def chFreq (word : Word) : Int := (getWordFreq segment 0 word).toInt32.toInt

def correct (word : Word) : Word :=
  if (correction.en_word_map word).isSome then word
  else best sort (enFreq correction) (correction.known (edits1 word))

def chCorrect (word : Word) : Word :=
  if segment.wordValid 0 word then word
  else best sort (chFreq segment) (chKnown segment (correction.chEdits1 word))

/-- The right answer for a word: itself if it is known, else a known word of the greatest frequency
among the near ones, and the empty string if there is none. -/
structure IsCorrection (known near : Word → Prop) (freq : Word → Int) (word res : Word) :
    Prop where
  self : known word → res = word
  best : ¬known word → (∃ w, near w ∧ known w) →
    near res ∧ known res ∧ ∀ w, near w → known w → freq w ≤ freq res
  none : ¬known word → (¬∃ w, near w ∧ known w) → res = []

/-- The texts one edit away from a text, with the characters of a table. -/
def Near (table chars : List Char) (w : Word) : Prop := ∃ v, Edit table chars v ∧ w = encode v

theorem edits1At_eq {l r : Word} {x : UInt8} :
    edits1At l (x :: r) = editsAt letters l (x :: r) := by
  cases r <;> simp [edits1At, editsAt]

theorem edits1_eq (word : Word) : edits1 word = edits letters word := by
  refine flatMap_congr fun i hi => ?_
  rw [drop_eq_getElem_cons (mem_range.mp hi), edits1At_eq]

theorem mem_edits1 {word w : Word} : w ∈ edits1 word ↔ Inner letters word w := by
  rw [edits1_eq, mem_edits]

variable {correction}

theorem chEdits1At_flatten {left : Word} {c : Word} {cs : List Word}
    (hcs : ∀ c' ∈ c :: cs, IsCharacter c') {l : List Word} (hl : left = l.flatten) :
    correction.chEdits1At left (c :: cs).flatten =
      (editsAt correction.characters l (c :: cs)).map List.flatten := by
  have hlength : length (c :: cs).flatten = cs.length + 1 := length_flatten hcs
  have hrest : substr (c :: cs).flatten 1 (length (c :: cs).flatten - 1) = cs.flatten := by
    rw [hlength]
    push_cast
    rw [add_sub_cancel_right]
    refine (substr_flatten hcs (i := 1) (n := cs.length) (by simp; omega)).trans ?_
    rw [drop_succ_cons, drop_zero, take_length]
  rw [chEdits1At, hrest, hlength, hl]
  cases cs with
  | nil => simp [editsAt, Function.comp_def]
  | cons d cs =>
    have htwo : substr (c :: d :: cs).flatten 2 (((d :: cs).length + 1 : Nat) - 2) =
        cs.flatten := by
      rw [length_cons]
      push_cast
      rw [add_assoc, show (1 : Int) + 1 = 2 from rfl, add_sub_cancel_right]
      refine (substr_flatten hcs (i := 2) (n := cs.length) (by simp; omega)).trans ?_
      rw [drop_succ_cons, drop_succ_cons, drop_zero, take_length]
    rw [htwo, charAt_flatten hcs (by simp), charAt_flatten hcs (by simp)]
    simp [editsAt, Function.comp_def]

theorem chEdits1_flatten {cs : List Word} (hcs : ∀ c ∈ cs, IsCharacter c) :
    correction.chEdits1 cs.flatten = (edits correction.characters cs).map List.flatten := by
  rw [chEdits1, edits, map_flatMap, length_flatten hcs]
  refine flatMap_congr fun i hi => ?_
  have hi : i < cs.length := mem_range.mp hi
  have hleft : substr cs.flatten 0 i = (cs.take i).flatten := by
    rw [substr_flatten hcs (by omega), drop_zero]
  have hright : substr cs.flatten i ((cs.length : Int) - i) = (cs.drop i).flatten := by
    rw [← Int.ofNat_sub hi.le, substr_flatten hcs (by omega), take_of_length_le (by simp)]
  rw [hleft, hright, drop_eq_getElem_cons hi]
  refine chEdits1At_flatten (fun c hc => hcs c ?_) rfl
  rw [← drop_eq_getElem_cons hi] at hc
  exact mem_of_mem_drop hc

variable {table chars : List Char} {en_word_map : Word → Option Int}

/-- The candidates for a text without zero characters. -/
theorem mem_chEdits1 (hchars : '\x00' ∉ chars) {w : Word} :
    w ∈ (ofTable en_word_map table).chEdits1 (encode chars) ↔
      ∃ v, Inner table chars v ∧ w = encode v := by
  rw [encode_eq, chEdits1_flatten (isCharacter_of_mem hchars), ofTable, edits_map, map_map,
    mem_map]
  simp only [mem_edits, Function.comp_apply, ← encode_eq, eq_comm]

/-! ## Texts with zero characters -/

/-- Zero characters at the start, and each other character with those behind it. -/
theorem exists_blocks (chars : List Char) :
    ∃ k, ∃ blocks : List (List Char), chars = replicate k '\x00' ++ blocks.flatten ∧
      ∀ b ∈ blocks, ∃ c m, c ≠ '\x00' ∧ b = c :: replicate m '\x00' := by
  induction chars with
  | nil => exact ⟨0, [], rfl, by simp⟩
  | cons c chars ih =>
    obtain ⟨k, blocks, rfl, hblocks⟩ := ih
    by_cases hc : c = '\x00'
    · exact ⟨k + 1, blocks, by simp [hc, replicate_succ], hblocks⟩
    · exact ⟨0, (c :: replicate k '\x00') :: blocks, by simp,
        forall_mem_cons.mpr ⟨⟨c, k, hc, rfl⟩, hblocks⟩⟩

theorem encode_zeros (k : Nat) : encode (replicate k '\x00') = replicate k 0 := by
  induction k with
  | zero => rfl
  | succ k ih => rw [replicate_succ, replicate_succ, ← ih]; rfl

theorem encode_blocks (blocks : List (List Char)) :
    encode blocks.flatten = (blocks.map encode).flatten := by
  induction blocks with
  | nil => rfl
  | cons b blocks ih => rw [flatten_cons, encode_append, ih]; rfl

theorem isCharacter_block {c : Char} (hc : c ≠ '\x00') (m : Nat) :
    IsCharacter (encode (c :: replicate m '\x00')) := by
  obtain ⟨b, rest, hbytes, hb, hrest⟩ := isCharacter_utf8EncodeChar hc
  refine ⟨b, rest ++ replicate m 0, ?_, hb, fun b' hb' => ?_⟩
  · rw [← singleton_append, encode_append, encode_zeros, ← cons_append, ← hbytes]
    simp [encode]
  · obtain hb' | hb' := mem_append.mp hb'
    · exact hrest b' hb'
    · rw [eq_of_mem_replicate hb']; rfl

theorem chEdits1_skip {g data : Word} (hg : ∀ b ∈ g, starts b = false) :
    correction.chEdits1 (g ++ data) = correction.chEdits1 data := by
  rw [chEdits1, chEdits1, length_skip hg]
  refine flatMap_congr fun i hi => ?_
  have hi : i < length data := mem_range.mp hi
  rw [substr_skip hg (by omega), ← Int.ofNat_sub hi.le, substr_skip hg (by omega)]

variable (correction) in
/-- A text with a zero character has no candidate, or one with two characters less. -/
theorem chEdits1_zero (hzero : '\x00' ∈ chars) :
    correction.chEdits1 (encode chars) = [] ∨
      ∃ v, encode v ∈ correction.chEdits1 (encode chars) ∧ v.length + 1 < chars.length := by
  obtain ⟨k, blocks, rfl, hblocks⟩ := exists_blocks chars
  have hg : ∀ b ∈ replicate k (0 : UInt8), starts b = false := fun b hb => by
    rw [eq_of_mem_replicate hb]; rfl
  have hcs : ∀ c ∈ blocks.map encode, IsCharacter c := by
    intro c hc
    obtain ⟨b, hb, rfl⟩ := mem_map.mp hc
    obtain ⟨ch, m, hch, rfl⟩ := hblocks b hb
    exact isCharacter_block hch m
  rw [encode_append, encode_zeros, encode_blocks, chEdits1_skip hg, chEdits1_flatten hcs]
  -- the block whose removal takes two characters away: any one behind zero characters
  have hblock : blocks = [] ∨ ∃ b ∈ blocks, 1 < k + b.length := by
    rcases Nat.eq_zero_or_pos k with rfl | hk
    · simp only [replicate_zero, nil_append, mem_flatten] at hzero
      obtain ⟨b, hb, hzero⟩ := hzero
      obtain ⟨c, m, hc, rfl⟩ := hblocks b hb
      obtain hzero | hzero := mem_cons.mp hzero
      · exact absurd hzero.symm hc
      · have hm : m ≠ 0 := fun h => by simp [h] at hzero
        exact .inr ⟨_, hb, by simp; omega⟩
    · cases blocks with
      | nil => exact .inl rfl
      | cons b blocks =>
        obtain ⟨c, m, -, rfl⟩ := hblocks b mem_cons_self
        exact .inr ⟨_, mem_cons_self, by simp; omega⟩
  obtain rfl | ⟨b, hb, hlength⟩ := hblock
  · exact .inl rfl
  · obtain ⟨l, r, rfl⟩ := append_of_mem hb
    refine .inr ⟨(l ++ r).flatten, mem_map.mpr ⟨(l ++ r).map encode, ?_, ?_⟩, ?_⟩
    · rw [mem_edits]
      exact ⟨l.map encode, encode b, r.map encode, by simp, by simpa using EditAt.delete ..⟩
    · rw [encode_blocks]
    · simp only [List.length_append, length_replicate, flatten_append,
        flatten_cons]
      omega

/-- The candidates are all texts one edit away exactly if the text has no zero character and every
character of the table is its last one. -/
theorem chEdits1_exact_iff :
    (∀ w, w ∈ (ofTable en_word_map table).chEdits1 (encode chars) ↔ Near table chars w) ↔
      '\x00' ∉ chars ∧ ∀ c ∈ table, chars.getLast? = some c := by
  constructor
  · intro h
    have hzero : '\x00' ∉ chars := fun hzero => by
      obtain hnone | ⟨v, hv, hlength⟩ := chEdits1_zero (ofTable en_word_map table) hzero
      · obtain ⟨x, rest, rfl⟩ := exists_cons_of_ne_nil (ne_nil_of_mem hzero)
        have hmem := (h _).mpr ⟨rest, .delete [] x rest, rfl⟩
        rw [hnone] at hmem
        exact not_mem_nil hmem
      · obtain ⟨v', hedit, heq⟩ := (h _).mp hv
        have hle := hedit.length_le
        rw [← encode_injective heq] at hle
        omega
    refine ⟨hzero, inner_complete_iff.mp fun v hv => ?_⟩
    obtain ⟨v', hinner, heq⟩ := (mem_chEdits1 hzero).mp ((h _).mpr ⟨v, hv, rfl⟩)
    rwa [encode_injective heq]
  · rintro ⟨hzero, hlast⟩ w
    rw [mem_chEdits1 hzero, Near]
    have hcomplete := inner_complete_iff.mpr hlast
    exact exists_congr fun v => and_congr_left fun _ => ⟨Inner.edit, hcomplete v⟩

theorem edits1_not_exact (word : Word) : ¬∀ w, w ∈ edits1 word ↔ Edit letters word w := by
  intro h
  have hlast := inner_complete_iff.mp fun w hw => mem_edits1.mp ((h w).mpr hw)
  have ha := hlast 97 (by decide)
  rw [hlast 98 (by decide)] at ha
  exact absurd ha (by decide)

/-! ## The answers -/

variable {sort : List (Word × Int) → List (Word × Int)} {known near near' : Word → Prop}
  {freq : Word → Int} {word res : Word}

variable (freq) in
theorem best_spec (hsort : ∀ l, (sort l).Perm l ∧ (sort l).Pairwise fun x y => ¬x.2 < y.2)
    (candidates : List Word) :
    (candidates = [] ∧ best sort freq candidates = []) ∨
      best sort freq candidates ∈ candidates ∧
        ∀ w ∈ candidates, freq w ≤ freq (best sort freq candidates) := by
  obtain ⟨hperm, hpair⟩ := hsort (candidates.dedup.map fun w => (w, freq w))
  have hmem {w : Word} : w ∈ candidates ↔
      (w, freq w) ∈ sort (candidates.dedup.map fun w => (w, freq w)) := by
    rw [hperm.mem_iff, mem_map]
    simp
  rw [best]
  cases hres : sort (candidates.dedup.map fun w => (w, freq w)) with
  | nil =>
    exact .inl ⟨eq_nil_iff_forall_not_mem.mpr fun w hw => by simp [hmem, hres] at hw, rfl⟩
  | cons tmp rest =>
    rw [hres] at hmem hperm hpair
    have htmp := hperm.mem_iff.mp mem_cons_self
    obtain ⟨w₀, hw₀, rfl⟩ := mem_map.mp htmp
    refine .inr ⟨mem_dedup.mp hw₀, fun w hw => ?_⟩
    obtain h | h := mem_cons.mp (hmem.mp hw)
    · exact (congrArg Prod.snd h).le
    · exact not_lt.mp (rel_of_pairwise_cons hpair h)

/-- The answer is right as far as the candidates go. -/
theorem isCorrection_best
    (hsort : ∀ l, (sort l).Perm l ∧ (sort l).Pairwise fun x y => ¬x.2 < y.2)
    {candidates : List Word} (hcand : ∀ w, w ∈ candidates ↔ near w ∧ known w) (h : ¬known word) :
    IsCorrection known near freq word (best sort freq candidates) := by
  refine ⟨fun hk => absurd hk h, fun _ ⟨w, hw⟩ => ?_, fun _ hnone => ?_⟩
  · obtain ⟨hnil, -⟩ | ⟨hmem, hmax⟩ := best_spec freq hsort candidates
    · rw [← hcand, hnil] at hw
      exact absurd hw not_mem_nil
    · exact ⟨((hcand _).mp hmem).1, ((hcand _).mp hmem).2,
        fun w hn hk => hmax w ((hcand w).mpr ⟨hn, hk⟩)⟩
  · obtain ⟨-, hres⟩ | ⟨hmem, -⟩ := best_spec freq hsort candidates
    · exact hres
    · exact absurd ⟨_, (hcand _).mp hmem⟩ hnone

/-- An answer that is right for the fewer words is right for all near ones exactly if the others are
no more frequent than one of the fewer. -/
theorem IsCorrection.iff_of_imp (h : IsCorrection known near' freq word res)
    (himp : ∀ w, near' w → near w) (hnil : near [] → near' []) :
    IsCorrection known near freq word res ↔
      (known word ∨ ∀ w, near w → known w → ∃ w', near' w' ∧ known w' ∧ freq w ≤ freq w') := by
  constructor
  · intro hall
    by_cases hk : known word
    · exact .inl hk
    refine .inr fun w hw hkw => ?_
    obtain ⟨hres, hkres, hmax⟩ := hall.best hk ⟨w, hw, hkw⟩
    refine ⟨res, ?_, hkres, hmax w hw hkw⟩
    by_cases hex : ∃ w, near' w ∧ known w
    · exact (h.best hk hex).1
    · rw [h.none hk hex] at hres ⊢
      exact hnil hres
  · intro hcond
    refine ⟨h.self, fun hk ⟨w, hw, hkw⟩ => ?_, fun hk hnone => ?_⟩
    · have hle := hcond.resolve_left hk
      obtain ⟨w', hw', hkw', -⟩ := hle w hw hkw
      obtain ⟨hres, hkres, hmax⟩ := h.best hk ⟨w', hw', hkw'⟩
      refine ⟨himp _ hres, hkres, fun v hv hkv => ?_⟩
      obtain ⟨v', hv', hkv', hvv'⟩ := hle v hv hkv
      exact hvv'.trans (hmax v' hv' hkv')
    · exact h.none hk fun ⟨w, hw, hkw⟩ => hnone ⟨w, himp w hw, hkw⟩

/-- The answer from the edits at letters is right exactly if no word with a letter appended is more
frequent than all of them. -/
theorem isCorrection_edit_iff {σ : Type} {letters chars : List σ} {enc : List σ → Word}
    (henc : ∀ v, enc v = [] → v = [])
    (h : IsCorrection known (fun w => ∃ v, Inner letters chars v ∧ w = enc v) freq (enc chars)
      res) :
    IsCorrection known (fun w => ∃ v, Edit letters chars v ∧ w = enc v) freq (enc chars) res ↔
      (known (enc chars) ∨ ∀ c ∈ letters, known (enc (chars ++ [c])) →
        ∃ v, Inner letters chars v ∧ known (enc v) ∧ freq (enc (chars ++ [c])) ≤ freq (enc v)) := by
  have hnil : (∃ v, Edit letters chars v ∧ [] = enc v) →
      ∃ v, Inner letters chars v ∧ [] = enc v := by
    rintro ⟨v, hv, hnil⟩
    obtain hv | ⟨c, -, rfl⟩ := edit_iff.mp hv
    · exact ⟨v, hv, hnil⟩
    · simpa using henc _ hnil.symm
  refine (h.iff_of_imp (fun w ⟨v, hv, hw⟩ => ⟨v, hv.edit, hw⟩) hnil).trans (or_congr_right ?_)
  constructor
  · intro h c hc hkw
    obtain ⟨_, ⟨v, hv, rfl⟩, hle⟩ := h _ ⟨_, edit_iff.mpr (.inr ⟨c, hc, rfl⟩), rfl⟩ hkw
    exact ⟨v, hv, hle⟩
  · rintro h _ ⟨w, hw, rfl⟩ hkw
    obtain hw | ⟨c, hc, rfl⟩ := edit_iff.mp hw
    · exact ⟨_, ⟨w, hw, rfl⟩, hkw, le_rfl⟩
    · obtain ⟨v, hv, hle⟩ := h c hc hkw
      exact ⟨_, ⟨v, hv, rfl⟩, hle⟩

variable (correction) in
theorem isCorrection_correct
    (hsort : ∀ l, (sort l).Perm l ∧ (sort l).Pairwise fun x y => ¬x.2 < y.2) :
    IsCorrection (fun w => (correction.en_word_map w).isSome) (Inner letters word)
      (enFreq correction) word (correction.correct sort word) := by
  by_cases hk : (correction.en_word_map word).isSome
  · exact ⟨fun _ => by rw [correct, if_pos hk], absurd hk, absurd hk⟩
  · rw [correct, if_neg hk]
    refine isCorrection_best hsort (fun w => ?_) hk
    rw [Correction.known, mem_filter, mem_edits1]

theorem isCorrection_chCorrect
    (hsort : ∀ l, (sort l).Perm l ∧ (sort l).Pairwise fun x y => ¬x.2 < y.2)
    {segment : Segment} (hchars : '\x00' ∉ chars) :
    IsCorrection (fun w => segment.wordValid 0 w) (fun w => ∃ v, Inner table chars v ∧ w = encode v)
      (chFreq segment) (encode chars)
      ((ofTable en_word_map table).chCorrect segment sort (encode chars)) := by
  by_cases hk : segment.wordValid 0 (encode chars)
  · exact ⟨fun _ => by rw [chCorrect, if_pos hk], absurd hk, absurd hk⟩
  · rw [chCorrect, if_neg hk]
    refine isCorrection_best hsort (fun w => ?_) hk
    rw [chKnown, mem_filter, mem_chEdits1 hchars]

/-- When the candidates are complete and the answers right. -/
theorem corrections_iff (en_word_map : Word → Option Int) (table : List Char) (segment : Segment)
    (sort : List (Word × Int) → List (Word × Int))
    (hsort : ∀ l, (sort l).Perm l ∧ (sort l).Pairwise fun x y => ¬x.2 < y.2) :
    (∀ word, ¬∀ w, w ∈ edits1 word ↔ Edit letters word w) ∧
    (∀ chars, (∀ w, w ∈ (ofTable en_word_map table).chEdits1 (encode chars) ↔ Near table chars w) ↔
      '\x00' ∉ chars ∧ ∀ c ∈ table, chars.getLast? = some c) ∧
    (∀ word, IsCorrection (fun w => (en_word_map w).isSome) (Edit letters word)
        (enFreq (ofTable en_word_map table)) word ((ofTable en_word_map table).correct sort word) ↔
      ((en_word_map word).isSome ∨ ∀ c ∈ letters, (en_word_map (word ++ [c])).isSome →
        ∃ w, Inner letters word w ∧ (en_word_map w).isSome ∧
          enFreq (ofTable en_word_map table) (word ++ [c]) ≤
            enFreq (ofTable en_word_map table) w)) ∧
    ∀ chars, '\x00' ∉ chars →
      (IsCorrection (fun w => segment.wordValid 0 w) (Near table chars) (chFreq segment)
        (encode chars) ((ofTable en_word_map table).chCorrect segment sort (encode chars)) ↔
      (segment.wordValid 0 (encode chars) ∨
        ∀ c ∈ table, segment.wordValid 0 (encode (chars ++ [c])) →
          ∃ v, Inner table chars v ∧ segment.wordValid 0 (encode v) ∧
            chFreq segment (encode (chars ++ [c])) ≤ chFreq segment (encode v))) := by
  refine ⟨edits1_not_exact, fun chars => chEdits1_exact_iff, fun word => ?_, fun chars hchars => ?_⟩
  · have hinner : IsCorrection (fun w => (en_word_map w).isSome)
        (fun w => ∃ v, Inner letters word v ∧ w = id v) (enFreq (ofTable en_word_map table))
        (id word) ((ofTable en_word_map table).correct sort word) := by
      simp only [id_eq, exists_eq_right']
      exact isCorrection_correct (ofTable en_word_map table) hsort
    have hiff := isCorrection_edit_iff (fun v h => h) hinner
    simpa only [id_eq, exists_eq_right'] using hiff
  · exact isCorrection_edit_iff (fun v h => encode_injective h)
      (isCorrection_chCorrect hsort hchars)

theorem corrections_iff_two_letters :
    ¬∀ w, w ∈ (ofTable (fun _ => none) ['a', 'b']).chEdits1 (encode ['a']) ↔
      Near ['a', 'b'] ['a'] w := by
  have h := (corrections_iff (fun _ => none) ['a', 'b'] ⟨fun _ => none, []⟩
    (·.mergeSort fun x y => !(x.2 < y.2 : Bool)) fun l => by
      refine ⟨mergeSort_perm l _, ?_⟩
      have hpair := @pairwise_mergeSort _ (fun x y : Word × Int => !(x.2 < y.2 : Bool))
        (fun x y z hxy hyz => by simp only [Bool.not_eq_true', decide_eq_false_iff_not] at *; omega)
        (fun x y => by
          simp only [Bool.or_eq_true, Bool.not_eq_true', decide_eq_false_iff_not]
          omega) l
      exact hpair.imp fun h => by simpa using h).2.1 ['a']
  rw [h]
  rintro ⟨-, hlast⟩
  exact absurd (hlast 'b' (by simp)) (by decide)

/-- The dictionary of the one word `"apple"`. -/
def appleCorrection : Correction :=
  ofTable (fun w => if w = [97, 112, 112, 108, 101] then some 1 else none) []

/-- `"apple"` is not found from `"appl"`. -/
theorem not_correction_appl :
    (Edit letters [97, 112, 112, 108] [97, 112, 112, 108, 101] ∧
      [97, 112, 112, 108, 101] ∉ edits1 [97, 112, 112, 108]) ∧
    ¬IsCorrection (fun w => (appleCorrection.en_word_map w).isSome) (Edit letters [97, 112, 112, 108])
      (enFreq appleCorrection) [97, 112, 112, 108]
      (appleCorrection.correct (·.mergeSort fun x y => !(x.2 < y.2 : Bool))
        [97, 112, 112, 108]) := by
  have hedit : Edit letters [97, 112, 112, 108] [97, 112, 112, 108, 101] :=
    .insert [97, 112, 112, 108] [] (by decide)
  refine ⟨⟨hedit, by decide⟩, fun h => ?_⟩
  have hknown := (h.best (by decide) ⟨_, hedit, by decide⟩).2.1
  have hnone : Correction.known appleCorrection (edits1 [97, 112, 112, 108]) = [] := by decide
  rw [correct, if_neg (by decide), hnone, best, dedup_nil, map_nil,
    mergeSort_nil] at hknown
  exact absurd hknown (by decide)

end ISearch.Correction

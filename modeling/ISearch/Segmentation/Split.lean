import Mathlib.Data.List.Flatten
import ISearch.Segmentation.Ngram

/-!
# Splitting a text (`segment.cc`)

Letters and digits that follow each other are one word, punctuation separates, and the rest is left
to the segmenter.
-/

namespace ISearch.Segmentation

open List

def punct : String := "，。！？、；：“”‘’（）《》 ,.!?/'\"<>\\:;\n"

/-- `n` characters that follow each other. -/
def charsFrom (c : Char) (n : Nat) : List Char :=
  (List.range n).map fun i => Char.ofNat (c.toNat + i)

/-- The literal has a second `ｇ` in place of `ｊ`, and no `Ｔ`. -/
def ALPHA_DIGIT : List Char :=
  charsFrom '0' 10 ++ charsFrom '０' 10 ++ charsFrom 'a' 26 ++ charsFrom 'A' 26 ++
  (charsFrom 'ａ' 26).erase 'ｊ' ++ (charsFrom 'Ａ' 26).erase 'Ｔ'

def punctSet : List Word := punct.toList.map String.utf8EncodeChar

def alphaSet : List Word := ALPHA_DIGIT.map String.utf8EncodeChar

/-- A segmenter with the dictionary that was read. -/
def Segment.init (word_dict : Word → Option WordInfo) : Segment := ⟨word_dict, punctSet⟩

def isAlphaOrDigit (str : Word) : Bool := str ∈ alphaSet

/-- The variables of the first loop. -/
structure Scan where
  sen_list : List Word
  special_set : List Word
  tmp_words : Word
  flag : Bool

namespace Scan

def start : Scan := ⟨[], [], [], false⟩

variable (self : Segment)

/-- One character of the first loop. -/
def next (s : Scan) (c : Word) : Scan :=
  if isAlphaOrDigit c then
    let s := if s.tmp_words ≠ [] ∧ s.flag = false then
      { s with sen_list := s.sen_list ++ [s.tmp_words], tmp_words := [] } else s
    { s with flag := true, tmp_words := s.tmp_words ++ c }
  else if c ∈ self.punct_set then
    if s.tmp_words ≠ [] then
      { sen_list := s.sen_list ++ [s.tmp_words] ++ [c]
        special_set := if s.flag then s.tmp_words :: s.special_set else s.special_set
        tmp_words := []
        flag := false }
    else s
  else if s.flag then
    { sen_list := s.sen_list ++ [s.tmp_words]
      special_set := s.tmp_words :: s.special_set
      tmp_words := c
      flag := false }
  else { s with tmp_words := s.tmp_words ++ c }

/-- What is left behind the loop. -/
def finish (s : Scan) : Scan :=
  if s.tmp_words ≠ [] then
    { s with
      sen_list := s.sen_list ++ [s.tmp_words]
      special_set := if s.flag then s.tmp_words :: s.special_set else s.special_set
      tmp_words := [] }
  else s

/-- The second loop. -/
def words (special_set : List Word) (concreteSplit : Word → Option (List Word)) :
    List Word → Option (List Word)
  | [] => some []
  | sen :: sen_list => do
    let res ←
      if sen ∉ special_set ∧ sen ∉ self.punct_set then concreteSplit sen
      else if sen ∉ self.punct_set then some [sen]
      else some []
    let res_all ← words special_set concreteSplit sen_list
    return res ++ res_all

end Scan

/-- `Segment::Split` without HMM. -/
def Segment.split (self : Segment) (concreteSplit : Word → Option (List Word)) (str : Word) :
    Option (List Word) :=
  let s := (((List.range (length str)).map (charAt str)).foldl (Scan.next self) .start).finish
  Scan.words self s.special_set concreteSplit s.sen_list

/-- The text without its punctuation. -/
def Segment.withoutPunct (self : Segment) (chars : List Char) : List Char :=
  chars.filter fun c => String.utf8EncodeChar c ∉ self.punct_set

/-! ## What the sentences are -/

theorem isCharacter_punctSet : ∀ c ∈ punctSet, IsCharacter c :=
  isCharacter_of_mem (by decide +kernel)

/-- Letters and digits, also those of full width. -/
def isLetterOrDigit (c : Char) : Bool :=
  c.isAlphanum || (0xFF10 ≤ c.toNat && c.toNat ≤ 0xFF19) || 0xFF21 ≤ c.toNat

theorem not_mem_punctSet {c : Word} (hc : isAlphaOrDigit c = true) : c ∉ punctSet := by
  have hletter : ALPHA_DIGIT.all isLetterOrDigit = true := by decide +kernel
  have hpunct : punct.toList.any isLetterOrDigit = false := by decide +kernel
  obtain ⟨c, halpha, rfl⟩ := mem_map.mp (of_decide_eq_true hc)
  rw [punctSet, mem_map_of_injective utf8EncodeChar_injective]
  exact fun hmem => any_eq_false.mp hpunct c hmem (all_eq_true.mp hletter c halpha)

/-- Characters that are no punctuation. -/
structure Plain (cs : List Word) : Prop where
  character : ∀ c ∈ cs, IsCharacter c
  plain : ∀ c ∈ cs, c ∉ punctSet

namespace Plain

theorem nil : Plain [] := ⟨nofun, nofun⟩

theorem append {cs ds : List Word} (hcs : Plain cs) (hds : Plain ds) : Plain (cs ++ ds) :=
  ⟨forall_mem_append.mpr ⟨hcs.character, hds.character⟩,
    forall_mem_append.mpr ⟨hcs.plain, hds.plain⟩⟩

theorem single {c : Word} (hc : IsCharacter c) (hplain : c ∉ punctSet) : Plain [c] :=
  ⟨forall_mem_singleton.mpr hc, forall_mem_singleton.mpr hplain⟩

/-- Together they are no punctuation. -/
theorem not_mem {cs : List Word} (h : Plain cs) (hne : cs.flatten ≠ []) :
    cs.flatten ∉ punctSet := by
  intro hmem
  have hone := isCharacter_punctSet _ hmem
  have hlength : cs.length = 1 := by
    rw [← length_flatten h.character, ← flatten_singleton (l := cs.flatten),
      length_flatten (forall_mem_singleton.mpr hone)]
    rfl
  obtain ⟨c, rfl⟩ := length_eq_one_iff.mp hlength
  rw [flatten_singleton] at hmem
  exact h.plain c mem_cons_self hmem

end Plain

namespace Scan

/-- The sentences so far are the text so far without punctuation, in pieces of whole characters. -/
structure Inv (s : Scan) (text : Word) : Prop where
  text : (s.sen_list.filter fun sen => sen ∉ punctSet).flatten ++ s.tmp_words = text
  tmp : ∃ cs, Plain cs ∧ s.tmp_words = cs.flatten
  sen : ∀ sen ∈ s.sen_list, sen ∉ punctSet → ∃ cs, Plain cs ∧ sen = cs.flatten

variable {self : Segment} {s : Scan} {text : Word}

theorem Inv.start : Scan.start.Inv [] := ⟨rfl, ⟨[], .nil, rfl⟩, nofun⟩

/-- A sentence ends. -/
theorem Inv.push (inv : s.Inv text) (hne : s.tmp_words ≠ []) {special_set : List Word}
    {flag : Bool} :
    Inv ⟨s.sen_list ++ [s.tmp_words], special_set, [], flag⟩ text := by
  obtain ⟨cs, hcs, htmp⟩ := inv.tmp
  have hplain : s.tmp_words ∉ punctSet := htmp ▸ hcs.not_mem (htmp ▸ hne)
  refine ⟨?_, ⟨[], .nil, rfl⟩, forall_mem_append.mpr ⟨inv.sen, ?_⟩⟩
  · rw [filter_append, filter_cons_of_pos (by simpa using hplain), filter_nil,
      flatten_append, flatten_singleton, append_nil, inv.text]
  · exact forall_mem_singleton.mpr fun _ => ⟨cs, hcs, htmp⟩

/-- A character joins the sentence. -/
theorem Inv.join (inv : s.Inv text) {c : Word} (hc : IsCharacter c) (hplain : c ∉ punctSet)
    {special_set : List Word} {flag : Bool} :
    Inv ⟨s.sen_list, special_set, s.tmp_words ++ c, flag⟩ (text ++ c) := by
  obtain ⟨cs, hcs, htmp⟩ := inv.tmp
  refine ⟨by rw [← inv.text, append_assoc], ⟨cs ++ [c], hcs.append (.single hc hplain), ?_⟩,
    inv.sen⟩
  rw [htmp, flatten_append, flatten_singleton]

theorem Inv.punct (inv : s.Inv text) {c : Word} (hpunct : c ∈ punctSet) :
    Inv { s with sen_list := s.sen_list ++ [c] } text := by
  refine ⟨?_, inv.tmp, forall_mem_append.mpr ⟨inv.sen, ?_⟩⟩
  · rw [filter_append, filter_cons_of_neg (by simpa using hpunct), filter_nil,
      append_nil, inv.text]
  · exact forall_mem_singleton.mpr fun h => absurd hpunct h

theorem Inv.next (inv : s.Inv text) (hpunct : self.punct_set = punctSet) {c : Word}
    (hc : IsCharacter c) (hflag : s.flag = true → s.tmp_words ≠ []) :
    (Scan.next self s c).Inv (text ++ if c ∈ punctSet then [] else c) ∧
      ((Scan.next self s c).flag = true → (Scan.next self s c).tmp_words ≠ []) := by
  rw [Scan.next, hpunct]
  by_cases halpha : isAlphaOrDigit c = true
  · have hmem := not_mem_punctSet halpha
    rw [if_pos halpha, if_neg hmem]
    split_ifs with htmp
    · exact ⟨(inv.push htmp.1).join hc hmem, fun _ => by simp [hc.ne_nil]⟩
    · exact ⟨inv.join hc hmem, fun _ => by simp [hc.ne_nil]⟩
  · rw [if_neg halpha]
    by_cases hmem : c ∈ punctSet
    · rw [if_pos hmem, if_pos hmem, append_nil]
      by_cases hne : s.tmp_words ≠ []
      · rw [if_pos hne]
        exact ⟨(inv.push hne).punct hmem, nofun⟩
      · rw [if_neg hne]
        exact ⟨inv, hflag⟩
    · rw [if_neg hmem, if_neg hmem]
      split_ifs with hf
      · exact ⟨(@Inv.push s text inv (hflag hf) (s.tmp_words :: s.special_set) false).join hc hmem,
          nofun⟩
      · exact ⟨inv.join hc hmem, fun h => absurd h hf⟩

theorem Inv.foldl (inv : s.Inv text) (hpunct : self.punct_set = punctSet)
    (hflag : s.flag = true → s.tmp_words ≠ []) {cs : List Word} (hcs : ∀ c ∈ cs, IsCharacter c) :
    (cs.foldl (Scan.next self) s).Inv (text ++ (cs.filter fun c => c ∉ punctSet).flatten) := by
  induction cs generalizing s text with
  | nil => rwa [filter_nil, flatten_nil, append_nil]
  | cons c cs ih =>
    obtain ⟨hc, hcs⟩ := forall_mem_cons.mp hcs
    obtain ⟨hnext, hflag'⟩ := inv.next hpunct hc hflag
    have htail := ih hnext hflag' hcs
    rw [foldl_cons]
    by_cases hmem : c ∈ punctSet
    · rw [if_pos hmem, append_nil] at htail
      rwa [filter_cons_of_neg (by simpa using hmem)]
    · rw [if_neg hmem] at htail
      rwa [filter_cons_of_pos (by simpa using hmem), flatten_cons, ← append_assoc]

theorem Inv.finish (inv : s.Inv text) :
    (s.finish.sen_list.filter fun sen => sen ∉ punctSet).flatten = text ∧
      ∀ sen ∈ s.finish.sen_list, sen ∉ punctSet → ∃ cs, Plain cs ∧ sen = cs.flatten := by
  rw [Scan.finish]
  by_cases hne : s.tmp_words ≠ []
  · have hpush := @Inv.push s text inv hne s.special_set s.flag
    have htext := hpush.text
    rw [append_nil] at htext
    rw [if_pos hne]
    exact ⟨htext, hpush.sen⟩
  · rw [if_neg hne]
    rw [not_ne_iff] at hne
    have htext := inv.text
    rw [hne, append_nil] at htext
    exact ⟨htext, inv.sen⟩

/-- The words of the sentences, when the segmenter keeps the text of each. -/
theorem words_flatten (hpunct : self.punct_set = punctSet)
    {concreteSplit : Word → Option (List Word)}
    {special_set sen_list : List Word}
    (hsplit : ∀ sen ∈ sen_list, sen ∉ punctSet →
      ∃ words, concreteSplit sen = some words ∧ words.flatten = sen) :
    ∃ res, words self special_set concreteSplit sen_list = some res ∧
      res.flatten = (sen_list.filter fun sen => sen ∉ punctSet).flatten := by
  induction sen_list with
  | nil => exact ⟨[], rfl, rfl⟩
  | cons sen sen_list ih =>
    obtain ⟨hsen, htail⟩ := forall_mem_cons.mp hsplit
    obtain ⟨res_all, hall, hflatten⟩ := ih htail
    rw [words, hall, hpunct]
    by_cases hmem : sen ∈ punctSet
    · rw [if_neg (fun h => h.2 hmem), if_neg (not_not.mpr hmem),
        filter_cons_of_neg (by simpa using hmem)]
      exact ⟨_, rfl, hflatten⟩
    · rw [filter_cons_of_pos (by simpa using hmem), flatten_cons]
      by_cases hspecial : sen ∈ special_set
      · rw [if_neg (fun h => h.1 hspecial), if_pos hmem]
        exact ⟨_, rfl, by rw [flatten_append, flatten_singleton, hflatten]⟩
      · obtain ⟨res, hres, htext⟩ := hsen hmem
        rw [if_pos ⟨hspecial, hmem⟩, hres]
        exact ⟨_, rfl, by rw [flatten_append, htext, hflatten]⟩

end Scan

theorem Segment.split_flatten {self : Segment} (hpunct : self.punct_set = punctSet)
    {chars : List Char} (hchars : '\x00' ∉ chars) {concreteSplit : Word → Option (List Word)}
    (hsplit : ∀ cs : List Word, (∀ c ∈ cs, IsCharacter c) →
      cs.flatten.length ≤ (encode chars).length →
      ∃ words, concreteSplit cs.flatten = some words ∧ words.flatten = cs.flatten) :
    ∃ res, self.split concreteSplit (encode chars) = some res ∧
      res.flatten = encode (self.withoutPunct chars) := by
  have hcs := isCharacter_of_mem hchars
  obtain ⟨htext, hsen⟩ := (Scan.Inv.start.foldl hpunct nofun hcs).finish
  rw [nil_append] at htext
  set s := ((chars.map String.utf8EncodeChar).foldl (Scan.next self) .start).finish with hs
  have hle : (s.sen_list.filter fun sen => sen ∉ punctSet).flatten.length ≤
    (encode chars).length := by
    rw [htext, encode_eq]
    exact filter_sublist.flatten.length_le
  obtain ⟨res, hres, hflatten⟩ := @Scan.words_flatten self hpunct concreteSplit s.special_set
    s.sen_list fun sen hmem hplain => by
      obtain ⟨cs, hplaincs, rfl⟩ := hsen sen hmem hplain
      exact hsplit cs hplaincs.character
        ((sublist_flatten_of_mem
            (mem_filter.mpr ⟨hmem, by simpa using hplain⟩)).length_le.trans hle)
  refine ⟨res, ?_, ?_⟩
  · rw [split, encode_eq, map_charAt hcs]
    exact hres
  · rw [hflatten, htext, encode_eq, withoutPunct, hpunct, filter_map]
    rfl

section

variable {self : Segment} {appid : UInt32} {cs : List Word} (hcs : ∀ c ∈ cs, IsCharacter c)
  {fuel : Nat}
include hcs

theorem Segment.fmmConcreteSplit_spec (hfuel : cs.flatten.length < fuel) :
    ∃ words, self.fmmConcreteSplit appid cs.flatten fuel = some words ∧
      self.Matched appid cs.flatten words := by
  have hle := length_le_of_flatten fun c hc => (hcs c hc).ne_nil
  have h := @fmmLoop_matched self appid cs hcs 0 fuel 0 (Nat.zero_le _) (by omega)
  rwa [drop_zero] at h

theorem Segment.bmmConcreteSplit_spec (hfuel : cs.flatten.length < fuel) :
    ∃ words, self.bmmConcreteSplit appid cs.flatten fuel = some words ∧
      self.Matched appid cs.flatten words := by
  have hle := length_le_of_flatten fun c hc => (hcs c hc).ne_nil
  have h := @bmmLoop_matched self appid cs hcs 0 fuel cs.length le_rfl (by omega)
  rwa [take_length, ← length_flatten hcs] at h

end

/-- Every segmenter ends with the text in words, of which those of more than one character are
known, and merged words are those of one matching where the two differ; `Split` ends with the text
without its punctuation. -/
theorem Segment.segmenters_lossless (word_dict : Word → Option WordInfo) (appid : UInt32)
    {α : Type} [LT α] [DecidableLT α] (calSegProbability : List Word → α) (chars : List Char)
    (hchars : '\x00' ∉ chars) :
    let self := Segment.init word_dict
    let str := encode chars
    (∃ fuel words, self.fmmConcreteSplit appid str fuel = some words ∧
      self.Matched appid str words) ∧
    (∃ fuel words, self.bmmConcreteSplit appid str fuel = some words ∧
      self.Matched appid str words) ∧
    (∃ fuel f b words, self.fmm appid str fuel = some f ∧ self.bmm appid str fuel = some b ∧
      self.ngramConcreteSplit appid calSegProbability str fuel = some words ∧
      self.Matched appid str words ∧ TakenWhole f b words) ∧
    ∃ fuel, ∀ segmenter ∈ [self.fmmConcreteSplit appid, self.bmmConcreteSplit appid,
        self.ngramConcreteSplit appid calSegProbability],
      ∃ words, self.split (segmenter · fuel) str = some words ∧
        words.flatten = encode (self.withoutPunct chars) := by
  dsimp only
  have hcs := isCharacter_of_mem hchars
  have hstr := encode_eq chars
  refine ⟨?_, ?_, ?_, 2 * (encode chars).length + 3, ?_⟩
  · rw [hstr]
    exact ⟨_, fmmConcreteSplit_spec hcs (Nat.lt_succ_self _)⟩
  · rw [hstr]
    exact ⟨_, bmmConcreteSplit_spec hcs (Nat.lt_succ_self _)⟩
  · rw [hstr]
    exact ⟨_, ngramConcreteSplit_spec calSegProbability hcs (Nat.lt_succ_self _)⟩
  · intro segmenter hsegmenter
    refine split_flatten rfl hchars fun cs hcs hle => ?_
    simp only [mem_cons, not_mem_nil, or_false] at hsegmenter
    rcases hsegmenter with rfl | rfl | rfl
    · obtain ⟨words, hwords, hmatched⟩ :=
        fmmConcreteSplit_spec hcs (show _ < 2 * (encode chars).length + 3 by omega)
      exact ⟨words, hwords, hmatched.flatten⟩
    · obtain ⟨words, hwords, hmatched⟩ :=
        bmmConcreteSplit_spec hcs (show _ < 2 * (encode chars).length + 3 by omega)
      exact ⟨words, hwords, hmatched.flatten⟩
    · obtain ⟨f, b, words, -, -, hwords, hmatched, -⟩ :=
        ngramConcreteSplit_spec calSegProbability hcs
          (show _ < 2 * (encode chars).length + 3 by omega)
      exact ⟨words, hwords, hmatched.flatten⟩

/-- The text `中文，a3`, of which `中文` is known to every application. -/
theorem Segment.segmenters_lossless_known :
    let self := Segment.init fun word =>
      if word = encode ['中', '文'] then some fun appid => if appid = 0 then some 5
        else none else none
    ∃ fuel words, self.split (fun sen => self.ngramConcreteSplit 1 List.length sen fuel)
        (encode ['中', '文', '，', 'a', '3']) = some words ∧
      words.flatten = encode ['中', '文', 'a', '3'] := by
  obtain ⟨-, -, -, fuel, h⟩ := Segment.segmenters_lossless
    (fun word => if word = encode ['中', '文'] then
      some fun appid => if appid = 0 then some 5 else none else none)
    1 List.length ['中', '文', '，', 'a', '3'] (by decide)
  obtain ⟨words, hwords, htext⟩ := h _ (.tail _ (.tail _ (.head _)))
  exact ⟨fuel, words, hwords, htext.trans (by decide +kernel)⟩

end ISearch.Segmentation

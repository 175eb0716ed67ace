import Mathlib.Algebra.Order.Field.Rat
import Mathlib.Algebra.Order.Ring.NNRat
import ISearch.Lib.Viterbi
import ISearch.Segmentation.Split

/-!
# Unknown words (`hmm_manager.cc`)

Single characters that follow each other are joined and cut again along the best labelling by a
hidden Markov model: begin, middle and end of a word, or a word of its own. Probabilities are exact;
one that would be no number counts as 0, as neither is ever greater than another.
-/

namespace ISearch.Segmentation

open Viterbi List

/-- `'B'`, `'M'`, `'E'` and `'S'`. -/
inductive PosState where
  | B
  | M
  | E
  | S
  deriving DecidableEq, Repr

def states : List PosState := [.B, .M, .E, .S]

/-- `splitEx` at a single byte. -/
def splitEx (separate_character : UInt8) (src : Word) : List Word :=
  let pieces := src.splitOn separate_character
  pieces.dropLast.filter (· ≠ [32]) ++ pieces.getLast?.toList.filter fun s => s ≠ [] ∧ s ≠ [32]

structure HmmManager where
  trans_dict : PosState → PosState → ℚ≥0
  emit_dict : PosState → Word → Option ℚ≥0
  start_dict : PosState → ℚ≥0
  min_emit : ℚ≥0

namespace HmmManager

/-- The counters of `Init`. The first time that a character is seen in a state counts as 0. -/
structure Counts where
  trans : PosState → PosState → Nat
  emit : PosState → List (Word × Nat)
  start : PosState → Nat
  count : PosState → Nat
  line_num : Nat

def Counts.zero : Counts := ⟨fun _ _ => 0, fun _ => [], fun _ => 0, fun _ => 0, 0⟩

def getList (str_len : Nat) : List PosState :=
  if str_len = 1 then [.S]
  else if str_len = 2 then [.B, .E]
  else .B :: replicate ((str_len + 2 ^ 32 - 2) % 2 ^ 32) .M ++ [.E]

def addEmit (word : Word) : List (Word × Nat) → List (Word × Nat)
  | [] => [(word, 0)]
  | (w, n) :: emit => if w = word then (w, n + 1) :: emit else (w, n) :: addEmit word emit

/-- A character behind the first one of its line. -/
def Counts.add (c : Counts) (before state : PosState) (word : Word) : Counts :=
  { c with
    trans := Function.update c.trans before
      (Function.update (c.trans before) state (c.trans before state + 1))
    count := Function.update c.count state (c.count state + 1)
    emit := Function.update c.emit state (addEmit word (c.emit state)) }

def Counts.addRest (c : Counts) : PosState → List (PosState × Word) → Counts
  | _, [] => c
  | before, (state, word) :: rest => (c.add before state word).addRest state rest

def Counts.line (punct_set : List Word) (c : Counts) (str : Word) : Counts :=
  let str_vec := splitEx 32 str
  if str_vec.filter (fun w => w ∉ punct_set ∧ w ≠ []) = [] then c
  else
    let c := { c with line_num := c.line_num + 1 }
    let word_list := ((List.range (length str)).map (charAt str)).filter (· ≠ [32])
    let line_state := ((str_vec.filter (· ≠ [])).map fun w => getList (length w)).flatten
    if word_list.length ≠ line_state.length then c
    else match line_state.zip word_list with
      | [] => c
      | (state, _) :: rest =>
        let c := { c with
          start := Function.update c.start state (c.start state + 1)
          count := Function.update c.count state (c.count state + 1) }
        c.addRest state rest

/-- `Init` with the lines of the training file. -/
def train (punct_set : List Word) (lines : List Word) : HmmManager :=
  let c := lines.foldl (Counts.line punct_set) .zero
  let emit (y : PosState) : List (Word × ℚ≥0) :=
    (c.emit y).map fun (w, n) => (w, (n : ℚ≥0) / c.count y)
  { trans_dict := fun y₀ y => (c.trans y₀ y : ℚ≥0) / c.count y₀
    emit_dict := fun y w => (emit y).lookup w
    start_dict := fun y => (c.start y : ℚ≥0) / c.line_num
    min_emit := (states.flatMap emit).foldl
      (fun m x => if x.2 < m ∧ x.2 ≠ 0 then x.2 else m) 1 }

variable (hmm : HmmManager)

/-- `emit_value` by state. -/
def emission (c : Word) (y : PosState) : ℚ≥0 := (hmm.emit_dict y c).getD hmm.min_emit

def emissions (sentence : Word) : List (PosState → ℚ≥0) :=
  (List.range (length sentence)).map fun j => hmm.emission (charAt sentence j)

/-- `viterbi`; without a character the last column is read at -1. -/
def viterbi (sentence : Word) : Option (List PosState) :=
  match hmm.emissions sentence with
  | [] => none
  | emit :: emits => some
    ((emits.foldl (Cell.next states hmm.trans_dict) (.first hmm.start_dict emit)).best states)

/-- The loop of `HmmSplit` from the character `i` on: a blank behind each end of a word. -/
def tagged (str : Word) : Nat → List PosState → Word
  | _, [] => []
  | i, y :: pos_list =>
    charAt str i ++ (if y = .E ∨ y = .S then [32] else []) ++ tagged str (i + 1) pos_list

/-- `HmmSplit`; the last byte of an empty `result` is read before its start. -/
def hmmSplit (str : Word) : Option (List Word) := do
  let pos_list ← hmm.viterbi str
  let result := tagged str 0 pos_list
  let last ← result.getLast?
  return splitEx 32 (if last = 32 then result.dropLast else result)

end HmmManager

namespace Segment

variable (self : Segment) (hmm : HmmManager) (appid : UInt32)

/-- The test for a Chinese character. -/
def isSingle (word : Word) : Bool := length word = 1 ∧ word ∉ self.punct_set ∧ 1 < word.length

/-- What is done with the characters in `buf`. -/
def flushBuf (buf : Word) : Option (List Word) :=
  if 0 < buf.length then
    if length buf = 1 then some [buf]
    else if self.wordValid appid buf = false then hmm.hmmSplit buf
    else some []
  else some []

def dealLoop : Word → List Word → Option (List Word)
  | buf, [] => self.flushBuf hmm appid buf
  | buf, word :: res_all =>
    if self.isSingle word then dealLoop (buf ++ word) res_all
    else do
      let vec ← self.flushBuf hmm appid buf
      let rest ← dealLoop [] res_all
      return vec ++ word :: rest

def dealByHmmMgr (res_all : List Word) : Option (List Word) := self.dealLoop hmm appid [] res_all

end Segment

/-- It ends, and the words are the text. -/
def KeepsText (words : Option (List Word)) (text : Word) : Prop :=
  ∃ vec, words = some vec ∧ vec.flatten = text

/-- A text that starts with a character and has no blank, and a labelling of it of a positive
probability. -/
structure HmmManager.Splittable (hmm : HmmManager) (str : Word) : Prop where
  ne_nil : str ≠ []
  starts : ∀ c ∈ str.head?, starts c = true
  blank : 32 ∉ str
  possible : Possible hmm.start_dict hmm.trans_dict (hmm.emissions str)

theorem length_eq_countP (data : Word) : length data = data.countP starts := by
  rw [length, offerset, List.length_append, length_singleton, Nat.add_sub_cancel,
    ← countP_eq_length_filter]
  induction data with
  | nil => rfl
  | cons c data ih =>
    rw [length_cons, range_succ_eq_map, countP_cons, countP_map,
      countP_cons]
    exact congrArg₂ _ ih rfl

theorem length_append (a b : Word) : length (a ++ b) = length a + length b := by
  rw [length_eq_countP, length_eq_countP, length_eq_countP, countP_append]

theorem charAt_append {data : Word} {i : Nat} (hi : i < length data) :
    charAt data i ++ data.drop (offset data (i + 1)) = data.drop (offset data i) := by
  have hle : offset data i ≤ offset data (i + 1) := offset_mono (Nat.le_succ i) hi
  rw [charAt, if_neg hi.not_ge]
  change (data.drop (offset data i)).take (offset data (i + 1) - offset data i) ++ _ = _
  conv_rhs => rw [← take_append_drop (offset data (i + 1) - offset data i)
    (data.drop (offset data i)), drop_drop, Nat.add_sub_cancel' hle]

/-- The characters are the text from the first of them on. -/
theorem flatten_charAt (data : Word) :
    ((List.range (length data)).map (charAt data)).flatten = data.drop (offset data 0) := by
  have h (n i : Nat) (hn : i + n = length data) :
      ((List.range' i n).map (charAt data)).flatten = data.drop (offset data i) := by
    induction n generalizing i with
    | zero =>
      rw [Nat.add_zero] at hn
      rw [hn, offset_length, drop_length]
      rfl
    | succ n ih =>
      rw [List.range'_succ, map_cons, flatten_cons, ih (i + 1) (by omega),
        charAt_append (by omega)]
  rw [range_eq_range']
  exact h _ 0 (Nat.zero_add _)

theorem flatten_splitOn (c : UInt8) (src : Word) :
    (src.splitOn c).flatten = src.filter (· ≠ c) := by
  induction src with
  | nil => rfl
  | cons b src ih =>
    rw [splitOn_cons_eq_if_modifyHead]
    by_cases hb : b = c
    · subst hb
      rw [if_pos (by simp), flatten_cons, nil_append, ih, filter_cons_of_neg (by simp)]
    · obtain ⟨piece, pieces, heq⟩ := exists_cons_of_ne_nil (splitOn_ne_nil c src)
      rw [if_neg (by simpa using hb), filter_cons_of_pos (by simpa using hb), ← ih, heq]
      rfl

theorem not_mem_splitOn {c : UInt8} {src piece : Word} (h : piece ∈ src.splitOn c) : c ∉ piece := by
  induction src generalizing piece with
  | nil =>
    obtain rfl := mem_singleton.mp h
    exact not_mem_nil
  | cons b src ih =>
    rw [splitOn_cons_eq_if_modifyHead] at h
    split_ifs at h with hb
    · obtain rfl | h := mem_cons.mp h
      · exact not_mem_nil
      · exact ih h
    · obtain ⟨first, pieces, heq⟩ := exists_cons_of_ne_nil (splitOn_ne_nil c src)
      rw [heq, modifyHead_cons] at h
      obtain rfl | h := mem_cons.mp h
      · rw [mem_cons, not_or]
        exact ⟨fun hc => hb (by simp [hc]), ih (heq ▸ mem_cons_self)⟩
      · exact ih (heq ▸ mem_cons_of_mem _ h)

theorem flatten_filter_ne_nil (pieces : List Word) :
    (pieces.filter (· ≠ [])).flatten = pieces.flatten := by
  induction pieces with
  | nil => rfl
  | cons piece pieces ih =>
    by_cases hnil : piece = []
    · rw [filter_cons_of_neg (by simpa using hnil), ih, hnil]
      rfl
    · rw [filter_cons_of_pos (by simpa using hnil), flatten_cons, ih, flatten_cons]

/-- Cut at blanks, a text loses these and nothing else. -/
theorem flatten_splitEx (src : Word) : (splitEx 32 src).flatten = src.filter (· ≠ 32) := by
  have hne {piece : Word} (h : piece ∈ src.splitOn 32) : piece ≠ [32] := fun heq =>
    not_mem_splitOn h (heq ▸ mem_singleton_self _)
  obtain ⟨pieces, last, heq⟩ :=
    (eq_nil_or_concat' (src.splitOn 32)).resolve_left (splitOn_ne_nil 32 src)
  rw [heq] at hne
  have hpieces : pieces.filter (· ≠ [32]) = pieces :=
    filter_eq_self.mpr fun piece h => decide_eq_true (hne (mem_append_left _ h))
  have hlast : [last].filter (fun s => s ≠ [] ∧ s ≠ [32]) = [last].filter (· ≠ []) := by
    refine filter_congr fun piece h => ?_
    have : piece ≠ [32] := hne (mem_append_right _ h)
    simp [this]
  rw [← flatten_splitOn, splitEx, heq]
  rw [dropLast_concat, List.getLast?_concat, Option.toList_some, hpieces, hlast,
    flatten_append, flatten_filter_ne_nil, flatten_append]

/-! ## The pieces of `HmmSplit` -/

namespace HmmManager

variable {hmm : HmmManager} {str : Word}

theorem viterbi_cases (hne : length str ≠ 0) :
    (∃ pos_list, hmm.viterbi str = some pos_list ∧ pos_list.length = length str ∧
      Possible hmm.start_dict hmm.trans_dict (hmm.emissions str)) ∨
    hmm.viterbi str = some [] ∧ ¬Possible hmm.start_dict hmm.trans_dict (hmm.emissions str) := by
  have hlength : (hmm.emissions str).length = length str := by
    rw [emissions, length_map, length_range]
  rw [viterbi]
  cases hemits : hmm.emissions str with
  | nil =>
    rw [hemits] at hlength
    exact absurd hlength.symm hne
  | cons emit emits =>
    have hall : ∀ y, y ∈ states := by
      intro y
      cases y <;> decide
    have hbest := (isBest_first hmm.start_dict hmm.trans_dict emit).foldl hall
      (cons_ne_nil _ _) emits
    obtain ⟨y, w, hlabel, hpos, -⟩ | ⟨hnil, himpossible⟩ := hbest.best hall
    · refine .inl ⟨_, rfl, ?_, _, y, w, hlabel, hpos⟩
      rw [hlabel.length, singleton_append, ← hemits, hlength]
    · exact .inr ⟨congrArg some hnil, himpossible⟩

/-- Without blanks it is the characters. -/
theorem filter_tagged (i : Nat) (pos_list : List PosState) :
    (tagged str i pos_list).filter (· ≠ 32) =
      (((List.range' i pos_list.length).map (charAt str)).flatten).filter (· ≠ 32) := by
  induction pos_list generalizing i with
  | nil => rfl
  | cons y pos_list ih =>
    have hblank : (if y = .E ∨ y = .S then [32] else [] : Word).filter (· ≠ 32) = [] := by
      split_ifs <;> rfl
    rw [tagged, filter_append, filter_append, hblank, append_nil, ih,
      length_cons, List.range'_succ, map_cons, flatten_cons, filter_append]

theorem hmmSplit_flatten {pos_list : List PosState} (hlist : hmm.viterbi str = some pos_list)
    {vec : List Word} (h : hmm.hmmSplit str = some vec) :
    vec.flatten = (((List.range pos_list.length).map (charAt str)).flatten).filter (· ≠ 32) := by
  rw [hmmSplit, hlist] at h
  simp only [Option.bind_eq_bind, Option.bind_some, Option.pure_def] at h
  obtain ⟨last, hlast, hvec⟩ := Option.bind_eq_some_iff.mp h
  obtain ⟨init, hinit⟩ := List.getLast?_eq_some_iff.mp hlast
  rw [← Option.some.inj hvec, flatten_splitEx, range_eq_range', ← filter_tagged, hinit]
  split_ifs with hblank
  · rw [dropLast_concat, filter_append, hblank]
    exact (append_nil _).symm
  · rfl

theorem hmmSplit_isSome {pos_list : List PosState} (hlist : hmm.viterbi str = some pos_list)
    (hne : tagged str 0 pos_list ≠ []) : ∃ vec, hmm.hmmSplit str = some vec := by
  rw [hmmSplit, hlist]
  simp only [Option.bind_eq_bind, Option.bind_some, Option.pure_def,
    List.getLast?_eq_some_getLast hne]
  exact ⟨_, rfl⟩

theorem hmmSplit_empty (hne : length str ≠ 0)
    (hpossible : ¬Possible hmm.start_dict hmm.trans_dict (hmm.emissions str)) :
    hmm.hmmSplit str = none := by
  obtain ⟨-, -, -, h⟩ | ⟨hlist, -⟩ := @viterbi_cases hmm str hne
  · exact absurd h hpossible
  · rw [hmmSplit, hlist]
    rfl

theorem hmmSplit_no_character (hzero : length str = 0) : hmm.hmmSplit str = none := by
  rw [hmmSplit, viterbi, emissions, hzero]
  rfl

/-- The pieces are at most the text. -/
theorem length_hmmSplit_le {vec : List Word} (h : hmm.hmmSplit str = some vec) :
    vec.flatten.length ≤ str.length := by
  by_cases hzero : length str = 0
  · rw [hmmSplit_no_character hzero] at h
    exact absurd h nofun
  · obtain ⟨pos_list, hlist, hlength, -⟩ | ⟨hlist, himpossible⟩ := @viterbi_cases hmm str hzero
    · rw [hmmSplit_flatten hlist h, hlength, flatten_charAt]
      exact (filter_sublist.trans (drop_sublist _ _)).length_le
    · rw [hmmSplit_empty hzero himpossible] at h
      exact absurd h nofun

theorem keepsText_hmmSplit_iff : KeepsText (hmm.hmmSplit str) str ↔ hmm.Splittable str := by
  constructor
  · rintro ⟨vec, hvec, htext⟩
    have hzero : length str ≠ 0 := fun hzero => by
      rw [hmmSplit_no_character hzero] at hvec
      exact absurd hvec nofun
    obtain ⟨pos_list, hlist, hlength, hpossible⟩ | ⟨hlist, himpossible⟩ :=
      @viterbi_cases hmm str hzero
    · rw [hmmSplit_flatten hlist hvec, hlength, flatten_charAt] at htext
      have hdrop : str.drop (offset str 0) = str :=
        (drop_sublist _ _).eq_of_length_le (by
          conv_lhs => rw [← htext]
          exact filter_sublist.length_le)
      rw [hdrop] at htext
      refine ⟨fun hnil => hzero (hnil ▸ rfl), offset_zero.mp hdrop, fun hmem => ?_, hpossible⟩
      rw [← htext, mem_filter] at hmem
      exact absurd hmem.2 (by decide)
    · rw [hmmSplit_empty hzero himpossible] at hvec
      exact absurd hvec nofun
  · rintro ⟨hne, hstarts, hblank, hpossible⟩
    have hzero : length str ≠ 0 := by
      obtain ⟨c, rest, rfl⟩ := exists_cons_of_ne_nil hne
      rw [length_eq_countP, countP_cons_of_pos (hstarts c rfl)]
      exact Nat.succ_ne_zero _
    obtain ⟨pos_list, hlist, hlength, -⟩ | ⟨-, himpossible⟩ := @viterbi_cases hmm str hzero
    · have hchars : ((List.range pos_list.length).map (charAt str)).flatten = str := by
        rw [hlength, flatten_charAt, offset_zero.mpr hstarts]
      have hfilter : str.filter (· ≠ 32) = str :=
        filter_eq_self.mpr fun c hc => decide_eq_true fun heq => hblank (heq ▸ hc)
      have htagged : tagged str 0 pos_list ≠ [] := fun hnil => by
        have h := @filter_tagged str 0 pos_list
        rw [hnil, ← range_eq_range', hchars, hfilter] at h
        exact hne h.symm
      obtain ⟨vec, hvec⟩ := hmmSplit_isSome hlist htagged
      exact ⟨vec, hvec, by rw [hmmSplit_flatten hlist hvec, hchars, hfilter]⟩
    · exact absurd hpossible himpossible

end HmmManager

/-! ## The runs of single characters -/

namespace Segment

variable {self : Segment} {hmm : HmmManager} {appid : UInt32}

/-- A run of more than one character is no known word, and the model can cut it. -/
def RunKept (self : Segment) (hmm : HmmManager) (appid : UInt32) (run : List Word) : Prop :=
  1 < run.length → self.wordValid appid run.flatten = false ∧ hmm.Splittable run.flatten

theorem length_run {run : List Word} (hrun : ∀ w ∈ run, self.isSingle w = true) :
    length run.flatten = run.length := by
  induction run with
  | nil => rfl
  | cons w run ih =>
    obtain ⟨hw, hrun⟩ := forall_mem_cons.mp hrun
    have hone := (of_decide_eq_true hw).1
    rw [flatten_cons, length_append, ih hrun, hone, length_cons, Nat.add_comm]

variable {run : List Word} (hrun : ∀ w ∈ run, self.isSingle w = true)
include hrun

theorem run_length_pos (hne : run ≠ []) : 0 < run.flatten.length := by
  obtain ⟨w, rest, rfl⟩ := exists_cons_of_ne_nil hne
  have hw := (of_decide_eq_true (hrun w mem_cons_self)).2.2
  rw [flatten_cons, List.length_append]
  omega

theorem keepsText_flushBuf_iff :
    KeepsText (self.flushBuf hmm appid run.flatten) run.flatten ↔ RunKept self hmm appid run := by
  rw [flushBuf, length_run hrun, RunKept]
  by_cases hnil : run = []
  · subst hnil
    exact iff_of_true ⟨[], rfl, rfl⟩ fun h => absurd h (by decide)
  · have hpos := run_length_pos hrun hnil
    have hlength := length_pos_iff.mpr hnil
    rw [if_pos hpos]
    by_cases hone : run.length = 1
    · rw [if_pos hone]
      exact iff_of_true ⟨_, rfl, flatten_singleton⟩ fun h => absurd hone h.ne'
    · have hlt : 1 < run.length := by omega
      rw [if_neg hone]
      cases hvalid : self.wordValid appid run.flatten with
      | false =>
        rw [if_pos rfl, HmmManager.keepsText_hmmSplit_iff]
        exact ⟨fun h _ => ⟨rfl, h⟩, fun h => (h hlt).2⟩
      | true =>
        rw [if_neg (by decide)]
        refine iff_of_false ?_ fun h => absurd (h hlt).1 (by decide)
        rintro ⟨vec, hvec, htext⟩
        rw [← Option.some.inj hvec, flatten_nil] at htext
        rw [← htext] at hpos
        exact absurd hpos (Nat.lt_irrefl 0)

omit hrun in
theorem length_flushBuf_le {vec : List Word} (h : self.flushBuf hmm appid run.flatten = some vec) :
    vec.flatten.length ≤ run.flatten.length := by
  rw [flushBuf] at h
  split_ifs at h
  · rw [← Option.some.inj h, flatten_singleton]
  · exact HmmManager.length_hmmSplit_le h
  · rw [← Option.some.inj h]
    exact Nat.zero_le _
  · rw [← Option.some.inj h]
    exact Nat.zero_le _

omit hrun in
theorem flushBuf_dealLoop {vec rest : List Word} {buf word text : Word}
    (hvec : vec.flatten.length ≤ buf.length) (hrest : rest.flatten.length ≤ text.length) :
    (vec ++ word :: rest).flatten = buf ++ (word ++ text) ↔
      vec.flatten = buf ∧ rest.flatten = text := by
  rw [flatten_append, flatten_cons]
  constructor
  · intro h
    have hlength := congrArg List.length h
    simp only [List.length_append] at hlength
    obtain ⟨hbuf, htail⟩ := append_inj h (by omega)
    exact ⟨hbuf, append_cancel_left htail⟩
  · rintro ⟨rfl, rfl⟩
    rfl

omit hrun in
/-- The loop with the run that has been joined so far. -/
theorem dealLoop_spec {res_all : List Word} (hrun : ∀ w ∈ run, self.isSingle w = true) :
    (KeepsText (self.dealLoop hmm appid run.flatten res_all) (run ++ res_all).flatten ↔
      ∀ r ∈ (run ++ res_all).splitOnP (fun w => !self.isSingle w), RunKept self hmm appid r) ∧
    ∀ vec, self.dealLoop hmm appid run.flatten res_all = some vec →
      vec.flatten.length ≤ (run ++ res_all).flatten.length := by
  induction res_all generalizing run with
  | nil =>
    have hsplit : run.splitOnP (fun w => !self.isSingle w) = [run] :=
      splitOnP_eq_singleton fun w hw => by rw [hrun w hw]; rfl
    rw [dealLoop, append_nil, hsplit, forall_mem_singleton, keepsText_flushBuf_iff hrun]
    exact ⟨Iff.rfl, fun vec => length_flushBuf_le⟩
  | cons word res_all ih =>
    rw [dealLoop]
    by_cases hword : self.isSingle word = true
    · have hih := @ih (run ++ [word])
        (forall_mem_append.mpr ⟨hrun, forall_mem_singleton.mpr hword⟩)
      rw [flatten_append, flatten_singleton, append_assoc, singleton_append] at hih
      rw [if_pos hword]
      exact hih
    · obtain ⟨hiff, hle⟩ := @ih [] nofun
      rw [if_neg hword, splitOnP_append_cons_of_forall_mem (fun w hw => by rw [hrun w hw]; rfl)
        word (by simpa using hword), forall_mem_cons, ← keepsText_flushBuf_iff hrun]
      rw [flatten_nil, nil_append] at hiff hle
      rw [← hiff, flatten_append, flatten_cons]
      cases hflush : self.flushBuf hmm appid run.flatten with
      | none =>
        exact ⟨iff_of_false (fun ⟨_, h, _⟩ => absurd h nofun) fun ⟨⟨_, h, _⟩, _⟩ => absurd h nofun,
          fun vec h => absurd h nofun⟩
      | some vec =>
        have hvec := length_flushBuf_le hflush
        cases hloop : self.dealLoop hmm appid [] res_all with
        | none =>
          exact ⟨iff_of_false (fun ⟨_, h, _⟩ => absurd h nofun) fun ⟨_, _, h, _⟩ => absurd h nofun,
            fun vec h => absurd h nofun⟩
        | some rest =>
          have hrest := hle rest hloop
          refine ⟨?_, fun out hout => ?_⟩
          · constructor
            · rintro ⟨out, hout, htext⟩
              obtain rfl := Option.some.inj hout
              obtain ⟨hbuf, htail⟩ := (flushBuf_dealLoop hvec hrest).mp htext
              exact ⟨⟨vec, rfl, hbuf⟩, rest, rfl, htail⟩
            · rintro ⟨⟨vec', hvec', hbuf⟩, rest', hrest', htail⟩
              obtain rfl := Option.some.inj hvec'
              obtain rfl := Option.some.inj hrest'
              exact ⟨_, rfl, (flushBuf_dealLoop hvec hrest).mpr ⟨hbuf, htail⟩⟩
          · obtain rfl := Option.some.inj hout
            rw [flatten_append, flatten_cons]
            simp only [List.length_append]
            omega

end Segment

/-- `HmmSplit` keeps a text exactly if it starts with a character, has no blank and a possible
labelling; `dealByHmmMgr` keeps the text of a word list exactly if none of its runs of more than one
single character is a known word and each can be cut so. -/
theorem HmmManager.keepsText_iff (hmm : HmmManager) (str : Word) (self : Segment) (appid : UInt32)
    (res_all : List Word) :
    (KeepsText (hmm.hmmSplit str) str ↔ hmm.Splittable str) ∧
    (KeepsText (self.dealByHmmMgr hmm appid res_all) res_all.flatten ↔
      ∀ run ∈ res_all.splitOnP (fun w => !self.isSingle w), 1 < run.length →
        self.wordValid appid run.flatten = false ∧ hmm.Splittable run.flatten) :=
  ⟨keepsText_hmmSplit_iff, (@Segment.dealLoop_spec self hmm appid [] res_all nofun).1⟩

/-- The word `中国`, known to every application. -/
def countryDictionary : Segment :=
  .init fun word =>
    if word = encode ['中', '国'] then some fun appid => if appid = 0 then some 9 else none else none

/-- Cut into its characters, a known word is lost with any model; and a model that was trained with
the word alone does not cut it. -/
theorem not_keepsText_country :
    (∀ hmm, ¬KeepsText (countryDictionary.dealByHmmMgr hmm 1 [encode ['中'], encode ['国']])
      (encode ['中', '国'])) ∧
    ¬KeepsText ((HmmManager.train punctSet [encode ['中', '国']]).hmmSplit (encode ['中', '国']))
      (encode ['中', '国']) := by
  constructor
  · rintro hmm ⟨vec, hvec, htext⟩
    have hfirst : countryDictionary.isSingle (encode ['中']) = true := by decide +kernel
    have hsecond : countryDictionary.isSingle (encode ['国']) = true := by decide +kernel
    have hvalid : countryDictionary.wordValid 1 ([] ++ encode ['中'] ++ encode ['国']) = true := by
      decide +kernel
    rw [Segment.dealByHmmMgr, Segment.dealLoop, if_pos hfirst, Segment.dealLoop, if_pos hsecond,
      Segment.dealLoop, Segment.flushBuf, if_pos (by decide +kernel), if_neg (by decide +kernel),
      hvalid, if_neg (by decide)] at hvec
    rw [← Option.some.inj hvec] at htext
    exact absurd htext (by decide +kernel)
  · rintro ⟨vec, hvec, -⟩
    have hnone : (HmmManager.train punctSet [encode ['中', '国']]).hmmSplit (encode ['中', '国']) =
        none := by decide +kernel
    rw [hnone] at hvec
    exact absurd hvec nofun

end ISearch.Segmentation

import ISearch.Segmentation.Text

/-!
# Longest matching (`fmm_segment.cc`, `bmm_segment.cc`)

The longest word of the dictionary is taken from the front, or from the end, of the rest of the
text, else one character.
-/

namespace ISearch.Segmentation

open List

def MAX_WORD_LEN : Nat := 8

variable (self : Segment) (appid : UInt32)

/-- The `j` at which the inner loop stops, from `j` down. -/
def Segment.fmmStop (phrase_sub : Word) : Nat → Option Nat
  | 0 => if self.wordValid appid (substr phrase_sub 0 0) then some 0 else none
  | 1 => some 1
  | j + 2 =>
    if self.wordValid appid (substr phrase_sub 0 (j + 2 : Nat)) then some (j + 2)
    else fmmStop phrase_sub (j + 1)

/-- One turn of the outer loop: what it pushes, and the next `i`. Without a stop `FmmSegment` stays
where it is, and `NgramSegment` goes on by one character. -/
def Segment.fmmTurn (idle : Nat) (phrase : Word) (i : Nat) : List Word × Nat :=
  let last := if i + MAX_WORD_LEN ≥ length phrase then length phrase else i + MAX_WORD_LEN
  let phrase_sub := substr phrase i (last - i : Nat)
  match self.fmmStop appid phrase_sub (length phrase_sub) with
  | some 1 => ([charAt phrase_sub 0], i + 1)
  | some j => ([substr phrase_sub 0 j], i + length (substr phrase_sub 0 j))
  | none => ([], i + idle)

def Segment.fmmLoop (idle : Nat) (phrase : Word) : Nat → Nat → Option (List Word)
  | 0, _ => none
  | fuel + 1, i =>
    if i < length phrase then
      (fmmLoop idle phrase fuel (self.fmmTurn appid idle phrase i).2).map
        ((self.fmmTurn appid idle phrase i).1 ++ ·)
    else some []

/-- `FmmSegment::ConcreteSplit`. -/
def Segment.fmmConcreteSplit (str : Word) (fuel : Nat) : Option (List Word) :=
  self.fmmLoop appid 0 str fuel 0

/-- `NgramSegment::fmm`. -/
def Segment.fmm (str : Word) (fuel : Nat) : Option (List Word) := self.fmmLoop appid 1 str fuel 0

/-- The number of characters behind the `j` at which the inner loop stops, from `n` down. -/
def Segment.bmmStop (phrase_sub : Word) : Nat → Option Nat
  | 0 => none
  | 1 => some 1
  | n + 2 =>
    if self.wordValid appid (substr phrase_sub (length phrase_sub - (n + 2)) (n + 2 : Nat)) then
      some (n + 2)
    else bmmStop phrase_sub (n + 1)

/-- One turn of the outer loop: what it inserts, and the next `i`. -/
def Segment.bmmTurn (idle : Nat) (phrase : Word) (i : Nat) : List Word × Nat :=
  let start := i - MAX_WORD_LEN
  let phrase_sub := substr phrase start (i - start : Nat)
  match self.bmmStop appid phrase_sub (length phrase_sub) with
  | some 1 => ([charAt phrase_sub (length phrase_sub - 1)], i - 1)
  | some n =>
    let key := substr phrase_sub (length phrase_sub - n) n
    ([key], i - length key)
  | none => ([], i - idle)

def Segment.bmmLoop (idle : Nat) (phrase : Word) : Nat → Nat → Option (List Word)
  | 0, _ => none
  | fuel + 1, i =>
    if 0 < i then
      (bmmLoop idle phrase fuel (self.bmmTurn appid idle phrase i).2).map
        (· ++ (self.bmmTurn appid idle phrase i).1)
    else some []

/-- `BmmSegment::ConcreteSplit`. -/
def Segment.bmmConcreteSplit (str : Word) (fuel : Nat) : Option (List Word) :=
  self.bmmLoop appid 0 str fuel (length str)

/-- `NgramSegment::bmm`. -/
def Segment.bmm (str : Word) (fuel : Nat) : Option (List Word) :=
  self.bmmLoop appid 1 str fuel (length str)

/-- The words are the text, and those of more than one character are known. -/
structure Segment.Matched (segment : Segment) (appid : UInt32) (text : Word) (words : List Word) :
    Prop where
  flatten : words.flatten = text
  ne_nil : ∀ w ∈ words, w ≠ []
  valid : ∀ w ∈ words, 1 < length w → segment.wordValid appid w = true

variable {self appid} {cs : List Word}

theorem Segment.Matched.nil : self.Matched appid [] [] := ⟨rfl, nofun, nofun⟩

theorem Segment.Matched.append {text text' : Word} {words words' : List Word}
    (h : self.Matched appid text words) (h' : self.Matched appid text' words') :
    self.Matched appid (text ++ text') (words ++ words') where
  flatten := by rw [flatten_append, h.flatten, h'.flatten]
  ne_nil := forall_mem_append.mpr ⟨h.ne_nil, h'.ne_nil⟩
  valid := forall_mem_append.mpr ⟨h.valid, h'.valid⟩

theorem Segment.Matched.single {word : Word} (hne : word ≠ [])
    (hvalid : 1 < length word → self.wordValid appid word = true) :
    self.Matched appid word [word] where
  flatten := flatten_singleton
  ne_nil := forall_mem_singleton.mpr hne
  valid := forall_mem_singleton.mpr hvalid

/-! ## One turn -/

/-- A search for the longest valid length that stops at 1. -/
theorem stop_spec (stop : Nat → Option Nat) (valid : Nat → Bool) (hone : stop 1 = some 1)
    (hstep : ∀ n, stop (n + 2) = if valid (n + 2) then some (n + 2) else stop (n + 1)) {n : Nat}
    (hn : 0 < n) : ∃ j, stop n = some j ∧ 0 < j ∧ j ≤ n ∧ (1 < j → valid j = true) := by
  induction n with
  | zero => exact absurd hn (Nat.lt_irrefl 0)
  | succ n ih =>
    cases n with
    | zero => exact ⟨1, hone, Nat.one_pos, le_rfl, fun h => absurd h (Nat.lt_irrefl 1)⟩
    | succ n =>
      rw [hstep]
      split_ifs with hvalid
      · exact ⟨_, rfl, hn, le_rfl, fun _ => hvalid⟩
      · obtain ⟨j, hj, hpos, hle, hword⟩ := ih (Nat.succ_pos n)
        exact ⟨j, hj, hpos, hle.trans (Nat.le_succ _), hword⟩

theorem Segment.fmmStop_spec {phrase_sub : Word} {n : Nat} (hn : 0 < n) :
    ∃ j, self.fmmStop appid phrase_sub n = some j ∧ 0 < j ∧ j ≤ n ∧
      (1 < j → self.wordValid appid (substr phrase_sub 0 j) = true) :=
  stop_spec (self.fmmStop appid phrase_sub) _ rfl (fun _ => rfl) hn

theorem Segment.bmmStop_spec {phrase_sub : Word} {n : Nat} (hn : 0 < n) :
    ∃ j, self.bmmStop appid phrase_sub n = some j ∧ 0 < j ∧ j ≤ n ∧
      (1 < j → self.wordValid appid (substr phrase_sub (length phrase_sub - j) j) = true) :=
  stop_spec (self.bmmStop appid phrase_sub) _ rfl (fun _ => rfl) hn

/-- `j` characters from `i` on. -/
def slice (cs : List Word) (i j : Nat) : Word := ((cs.drop i).take j).flatten

section Slice

variable (hcs : ∀ c ∈ cs, IsCharacter c)
include hcs

theorem slice_characters {i j : Nat} : ∀ c ∈ (cs.drop i).take j, IsCharacter c :=
  fun c hc => hcs c (mem_of_mem_drop (mem_of_mem_take hc))

theorem length_slice {i j : Nat} (h : i + j ≤ cs.length) : length (slice cs i j) = j := by
  rw [slice, length_flatten (slice_characters hcs), length_take, length_drop]
  omega

theorem substr_slice {i n k j : Nat} (h : i + n ≤ cs.length) (hj : k + j ≤ n) :
    substr (slice cs i n) k j = slice cs (i + k) j := by
  have hlength : ((cs.drop i).take n).length = n := by
    rw [length_take, length_drop]
    omega
  rw [slice, substr_flatten (slice_characters hcs) (by omega), slice, drop_take,
    take_take, drop_drop, min_eq_left (by omega)]

theorem charAt_slice {i n k : Nat} (h : i + n ≤ cs.length) (hk : k < n) :
    charAt (slice cs i n) k = slice cs (i + k) 1 := by
  have hlength : ((cs.drop i).take n).length = n := by
    rw [length_take, length_drop]
    omega
  have hi : i + k < cs.length := by omega
  rw [slice, charAt_flatten (slice_characters hcs) (by omega), slice, getElem_take,
    getElem_drop, drop_eq_getElem_cons hi, take_succ_cons, take_zero,
    flatten_singleton]

theorem slice_ne_nil {i j : Nat} (hj : 0 < j) (h : i + j ≤ cs.length) : slice cs i j ≠ [] := by
  intro hnil
  have hlength := length_slice hcs h
  rw [hnil] at hlength
  exact hj.ne hlength

theorem Segment.matched_slice {i j : Nat} (hj : 0 < j) (h : i + j ≤ cs.length)
    (hvalid : 1 < j → self.wordValid appid (slice cs i j) = true) :
    self.Matched appid (slice cs i j) [slice cs i j] :=
  .single (slice_ne_nil hcs hj h) fun hlt => hvalid (length_slice hcs h ▸ hlt)

theorem Segment.fmmTurn_spec {idle i : Nat} (hi : i < cs.length) :
    ∃ j, 0 < j ∧ i + j ≤ cs.length ∧
      self.fmmTurn appid idle cs.flatten i = ([slice cs i j], i + j) ∧
      self.Matched appid (slice cs i j) [slice cs i j] := by
  obtain ⟨n, hlast, hn, hle⟩ : ∃ n, (if i + MAX_WORD_LEN ≥ length cs.flatten then
      length cs.flatten else i + MAX_WORD_LEN) = i + n ∧ 0 < n ∧ i + n ≤ cs.length := by
    rw [length_flatten hcs, MAX_WORD_LEN]
    split_ifs with h
    · exact ⟨cs.length - i, by omega, by omega, by omega⟩
    · exact ⟨8, rfl, by omega, by omega⟩
  obtain ⟨j, hstop, hpos, hjn, hvalid⟩ :=
    @fmmStop_spec self appid (slice cs i n) _ hn
  rw [substr_slice hcs hle (by omega), Nat.add_zero] at hvalid
  refine ⟨j, hpos, by omega, ?_, matched_slice hcs hpos (by omega) hvalid⟩
  rw [fmmTurn, hlast, Nat.add_sub_cancel_left, substr_flatten hcs hle, ← slice,
    length_slice hcs hle, hstop]
  obtain rfl | hone := eq_or_ne j 1
  · rw [charAt_slice hcs hle hn, Nat.add_zero]
    rfl
  · split
    next heq => exact absurd (Option.some.inj heq) hone
    next heq =>
      obtain rfl := Option.some.inj heq
      rw [substr_slice hcs hle (by omega), Nat.add_zero, length_slice hcs (by omega)]
    next heq => exact absurd heq nofun

theorem Segment.bmmTurn_spec {idle i : Nat} (hpos : 0 < i) (hi : i ≤ cs.length) :
    ∃ j, 0 < j ∧ j ≤ i ∧
      self.bmmTurn appid idle cs.flatten i = ([slice cs (i - j) j], i - j) ∧
      self.Matched appid (slice cs (i - j) j) [slice cs (i - j) j] := by
  obtain ⟨start, n, hstart, hsum, hn⟩ : ∃ start n, i - MAX_WORD_LEN = start ∧ i = start + n ∧ 0 < n :=
    ⟨_, i - (i - MAX_WORD_LEN), rfl, by omega, by rw [MAX_WORD_LEN]; omega⟩
  subst hsum
  obtain ⟨j, hstop, hj, hjn, hvalid⟩ := @bmmStop_spec self appid (slice cs start n) _ hn
  have hslice : start + (n - j) = start + n - j := by omega
  rw [length_slice hcs hi, substr_slice hcs hi (by omega), hslice] at hvalid
  refine ⟨j, hj, by omega, ?_, matched_slice hcs hj (by omega) hvalid⟩
  rw [bmmTurn, hstart, Nat.add_sub_cancel_left, substr_flatten hcs hi, ← slice,
    length_slice hcs hi, hstop]
  obtain rfl | hone := eq_or_ne j 1
  · dsimp only
    rw [charAt_slice hcs hi (by omega), hslice]
    rfl
  · split
    next heq => exact absurd (Option.some.inj heq) hone
    next heq =>
      obtain rfl := Option.some.inj heq
      dsimp only
      rw [substr_slice hcs hi (by omega), hslice, length_slice hcs (by omega)]
    next heq => exact absurd heq nofun

theorem Segment.fmmLoop_matched {idle fuel i : Nat} (hi : i ≤ cs.length)
    (hfuel : cs.length < fuel + i) :
    ∃ words, self.fmmLoop appid idle cs.flatten fuel i = some words ∧
      self.Matched appid (cs.drop i).flatten words := by
  induction fuel generalizing i with
  | zero => omega
  | succ fuel ih =>
    rw [fmmLoop, length_flatten hcs]
    obtain hlt | rfl := hi.lt_or_eq
    · obtain ⟨j, hj, hle, hturn, hmatched⟩ := @fmmTurn_spec self appid cs hcs idle i hlt
      obtain ⟨words, hloop, hrest⟩ := ih hle (by omega)
      have htext : (cs.drop i).flatten = slice cs i j ++ (cs.drop (i + j)).flatten := by
        rw [slice, ← flatten_append, ← drop_drop, take_append_drop]
      rw [if_pos hlt, hturn, hloop]
      exact ⟨_, rfl, htext ▸ hmatched.append hrest⟩
    · rw [if_neg (Nat.lt_irrefl _), drop_length]
      exact ⟨[], rfl, .nil⟩

theorem Segment.bmmLoop_matched {idle fuel i : Nat} (hi : i ≤ cs.length) (hfuel : i < fuel) :
    ∃ words, self.bmmLoop appid idle cs.flatten fuel i = some words ∧
      self.Matched appid (cs.take i).flatten words := by
  induction fuel generalizing i with
  | zero => omega
  | succ fuel ih =>
    rw [bmmLoop]
    obtain rfl | hpos := i.eq_zero_or_pos
    · exact ⟨[], rfl, .nil⟩
    · obtain ⟨j, hj, hle, hturn, hmatched⟩ := @bmmTurn_spec self appid cs hcs idle i hpos hi
      obtain ⟨words, hloop, hrest⟩ := ih ((Nat.sub_le i j).trans hi) (by omega)
      have htext : (cs.take i).flatten = (cs.take (i - j)).flatten ++ slice cs (i - j) j := by
        rw [slice, ← flatten_append, ← take_add, Nat.sub_add_cancel hle]
      rw [if_pos hpos, hturn, hloop]
      exact ⟨_, rfl, htext ▸ hrest.append hmatched⟩

end Slice

end ISearch.Segmentation

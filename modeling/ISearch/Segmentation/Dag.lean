import Mathlib.Data.List.GetD
import Mathlib.Data.List.Range
import Mathlib.Data.Nat.SuccPred
import ISearch.Lib.BestPath
import ISearch.Lib.Bytes

/-!
# Segmentation by the word graph

A text is cut along the path of its word graph with the greatest sum of logarithms. A route value is
minus infinity, `-DBL_MAX`, or finite; a finite number added to `-DBL_MAX` is lost.
-/

namespace ISearch.Segmentation

open BestPath List

abbrev Word := List UInt8

/-- The test of `refresh`: a character starts here. -/
def starts (c : UInt8) : Bool := (0 < c.toNat && c.toNat < 128) || c &&& 0x40 != 0

/-- The array `offerset`. -/
def offerset (data : Word) : List Nat :=
  (List.range data.length).filter (fun i => starts (data.getD i 0)) ++ [data.length]

def length (data : Word) : Nat := (offerset data).length - 1

/-- `substr`; a negative count of `std::string::substr` is that of the rest. -/
def substr (data : Word) (u8_start_index : Nat) (u8_length : Int) : Word :=
  if u8_start_index + u8_length > length data then []
  else
    let start := (offerset data).getD u8_start_index 0
    let stop := (offerset data).getD (u8_start_index + u8_length).toNat 0
    if stop < start then data.drop start else (data.drop start).take (stop - start)

/-- The frequencies of a word by application. -/
abbrev WordInfo := UInt32 → Option UInt32

structure Segment where
  word_dict : Word → Option WordInfo
  punct_set : List Word

variable (self : Segment) (appid : UInt32)

def Segment.wordValid (word : Word) : Bool :=
  if word ∈ self.punct_set then false
  else match self.word_dict word with
    | some wordInfo => (wordInfo 0).isSome || (wordInfo appid).isSome
    | none => false

/-- `word_freq` of `DagSegment::calc`, where `WordInfo` starts with the frequency 0. -/
def Segment.dagFreq (word : Word) : UInt32 :=
  match self.word_dict word with
  | some wordInfo => (wordInfo appid).getD ((wordInfo 0).getD 0)
  | none => 1

/-- `word_freq` of `FBSegment::calc`. -/
def Segment.fbFreq (word : Word) : UInt32 :=
  match self.word_dict word with
  | some wordInfo => (wordInfo appid).getD ((wordInfo 0).getD 1)
  | none => 1

/-! ## The word graph -/

variable (data : Word)

/-- The last characters of the words from `k` on. -/
def Segment.getDag (k : Nat) : List Nat :=
  let tmplist := (List.range' k (length data - k)).filter fun (i : Nat) =>
    self.wordValid appid (substr data k (i + 1 - k))
  if tmplist.isEmpty then [k] else tmplist

section Calc

variable {α : Type} [AddCommGroup α] [LinearOrder α] (log : Nat → α) (freq : Word → UInt32)

/-- A `double`: minus infinity, `-DBL_MAX` or finite. -/
abbrev Double (α : Type) := WithBot (WithBot α)

structure RouteValue (α : Type) where
  max_route : Double α
  idx : Nat

/-- The default values of a route. -/
def RouteValue.zero : RouteValue α := ⟨(0 : WithBot α), 0⟩

/-- `-DBL_MAX` with index 0. -/
def RouteValue.lowest : RouteValue α := ⟨(⊥ : WithBot α), 0⟩

def TOTAL : Nat := 8000000

/-- `log (word_freq) - logtotal`. -/
def logFreq (word : Word) : WithBot α :=
  if freq word = 0 then ⊥ else (log (freq word).toNat - log TOTAL : α)

/-- A finite `double`, or minus infinity. -/
def toDouble (x : WithBot α) : Double α := WithBot.map (fun y : α => (y : WithBot α)) x

/-- The loop over the words from `i` on. -/
def bestRoute (route : Nat → RouteValue α) (i : Nat) (vec : List Nat) : RouteValue α :=
  vec.foldl (fun best (t : Nat) =>
    let word := substr data i (t + 1 - i)
    let route_value := toDouble (logFreq log freq word) + (route (t + 1)).max_route
    if best.max_route < route_value then ⟨route_value, t⟩ else best) .lowest

/-- The loop of `calc` over the positions below `i`. -/
def calcLoop (dag : Nat → List Nat) : Nat → (Nat → RouteValue α) → Nat → RouteValue α
  | 0, route => route
  | i + 1, route =>
    calcLoop dag i (Function.update route i (bestRoute data log freq route i (dag i)))

/-- `calc`. -/
def calcRoute (dag : Nat → List Nat) : Nat → RouteValue α :=
  calcLoop data log freq dag (length data) fun _ => .zero

/-- The values of `i` in the loop that cuts the text, behind the first one. -/
def cuts (dag : Nat → List Nat) (fuel : Nat) : Option (List Nat) :=
  follow (length data) (fun i => (calcRoute data log freq dag i).idx + 1) fuel 0

/-- The words between the cuts. -/
def words (data : Word) : Nat → List Nat → List Word
  | _, [] => []
  | i, j :: path => substr data i (j - i) :: words data j path

end Calc

def isAllAlphaOrDigit (str : Word) : Bool :=
  str.all fun c => (65 ≤ c && c ≤ 90) || (97 ≤ c && c ≤ 122) || (48 ≤ c && c ≤ 57)

/-- The words of `__cut_DAG_NO_HMM`, which collects letters and digits in `buf`. -/
def joinAlnum : Word → List Word → List Word
  | buf, [] => if buf.isEmpty then [] else [buf]
  | buf, l_word :: vec =>
    if isAllAlphaOrDigit l_word then joinAlnum (buf ++ l_word) vec
    else if buf.isEmpty then l_word :: joinAlnum [] vec
    else buf :: l_word :: joinAlnum [] vec

section Split

variable {α : Type} [AddCommGroup α] [LinearOrder α] (log : Nat → α)

def Segment.concreteSplit (fuel : Nat) : Option (List Word) :=
  (cuts data log (self.dagFreq appid) (self.getDag appid data) fuel).map (words data 0)

def Segment.cutDagNoHmm (fuel : Nat) : Option (List Word) :=
  (cuts data log (self.fbFreq appid) (self.getDag appid data) fuel).map fun path =>
    joinAlnum [] (words data 0 path)

/-- The edges of the word graph. -/
def Segment.edge (i j : Nat) : Prop := i < length data ∧ ∃ t ∈ self.getDag appid data i, j = t + 1

/-- The weight of the word between two positions. -/
def wordWeight (freq : Word → UInt32) (i j : Nat) : WithBot α :=
  logFreq log freq (substr data i (j - i))

/-- A call of `split` returns, its words are those of a best path of the graph, and together they
are the text. -/
def Segment.CutsOptimally (freq : Word → UInt32) (split : Nat → Option (List Word)) : Prop :=
  ∃ fuel vec path, split fuel = some vec ∧ vec.flatten = data ∧
    cuts data log freq (self.getDag appid data) fuel = some path ∧
    IsPath (self.edge appid data) (length data) 0 path ∧
    ∀ path', IsPath (self.edge appid data) (length data) 0 path' →
      pathWeight (wordWeight data log freq) 0 path' ≤ pathWeight (wordWeight data log freq) 0 path

/-- From a position the text can be cut into words of the graph that occur. -/
def Segment.Cuttable (freq : Word → UInt32) (i : Nat) : Prop :=
  ∃ path, IsPath (fun i j => self.edge appid data i j ∧ freq (substr data i (j - i)) ≠ 0)
    (length data) i path

/-- The text starts with a character, and it or its rest behind a first word of one character can
be cut. -/
def Segment.Reachable (freq : Word → UInt32) : Prop :=
  (∀ c ∈ data.head?, starts c = true) ∧
    (length data = 0 ∨ self.Cuttable appid data freq 0 ∨
      self.edge appid data 0 1 ∧ self.Cuttable appid data freq 1)

end Split

/-! ## Words of a path -/

section Text

/-- Where a character starts. -/
def offset (data : Word) (i : Nat) : Nat := (offerset data).getD i 0

variable {data : Word}

theorem length_offerset : (offerset data).length = length data + 1 := by
  rw [length, offerset, length_append]
  rfl

theorem offset_mono {i j : Nat} (hij : i ≤ j) (hj : j ≤ length data) :
    offset data i ≤ offset data j := by
  have hsorted : (offerset data).Pairwise (· ≤ ·) := by
    rw [offerset, pairwise_append]
    refine ⟨(pairwise_le_range).filter _, pairwise_singleton _ _, fun a ha b hb => ?_⟩
    rw [mem_singleton.mp hb]
    exact (mem_range.mp (mem_filter.mp ha).1).le
  have hlen : (offerset data).length = _ := length_offerset
  have hi : i < (offerset data).length := by omega
  have hj : j < (offerset data).length := by omega
  rw [offset, offset, getD_eq_getElem _ _ hi, getD_eq_getElem _ _ hj]
  obtain rfl | hlt := hij.eq_or_lt
  · exact le_rfl
  · exact pairwise_iff_getElem.mp hsorted i j hi hj hlt

theorem offset_length : offset data (length data) = data.length := by
  rw [offset, length, offerset, length_append, length_singleton, Nat.add_sub_cancel,
    getD_eq_getElem?_getD, List.getElem?_concat_length]
  rfl

/-- The text starts at the first character. -/
theorem offset_zero : data.drop (offset data 0) = data ↔ ∀ c ∈ data.head?, starts c = true := by
  cases data with
  | nil => exact ⟨nofun, fun _ => rfl⟩
  | cons c data =>
    simp only [List.head?_cons, Option.mem_some_iff, forall_eq']
    have hoffset : starts c = true ↔ offset (c :: data) 0 = 0 := by
      have hlen : 0 < (offerset (c :: data)).length := length_offerset ▸ Nat.succ_pos _
      have hmem := getElem_mem hlen
      rw [offset, getD_eq_getElem _ _ hlen]
      constructor
      · intro hc
        simp [offerset, range_succ_eq_map, hc]
      · intro hzero
        rw [hzero, offerset, mem_append, mem_filter, mem_singleton] at hmem
        exact (hmem.resolve_right (Nat.succ_ne_zero _).symm).2
    rw [hoffset]
    constructor
    · intro h
      have := congrArg List.length h
      rw [length_drop, length_cons] at this
      omega
    · intro h
      rw [h]
      rfl

theorem substr_append {i j : Nat} (hij : i ≤ j) (hj : j ≤ length data) :
    substr data i (j - i) ++ data.drop (offset data j) = data.drop (offset data i) := by
  have hle := offset_mono hij hj
  have hsum : (i : Int) + (j - i) = j := by omega
  rw [substr, hsum, if_neg (by omega), Int.toNat_natCast]
  change (if offset data j < offset data i then data.drop (offset data i)
    else (data.drop (offset data i)).take (offset data j - offset data i)) ++ _ = _
  rw [if_neg hle.not_gt]
  conv_rhs => rw [← take_append_drop (offset data j - offset data i)
    (data.drop (offset data i)), drop_drop, Nat.add_sub_cancel' hle]

theorem flatten_words {edge : Nat → Nat → Prop}
    (hedge : ∀ i j, edge i j → i < j ∧ j ≤ length data) {i : Nat} {path : List Nat}
    (hpath : IsPath edge (length data) i path) :
    (words data i path).flatten = data.drop (offset data i) := by
  induction path generalizing i with
  | nil =>
    obtain rfl : i = length data := hpath
    rw [offset_length, drop_length]
    rfl
  | cons j path ih =>
    obtain ⟨hlt, hle⟩ := hedge i j hpath.1
    rw [words, flatten_cons, ih hpath.2, substr_append hlt.le hle]

theorem flatten_joinAlnum (buf : Word) (vec : List Word) :
    (joinAlnum buf vec).flatten = buf ++ vec.flatten := by
  induction vec generalizing buf with
  | nil =>
    rw [joinAlnum]
    cases buf <;> simp
  | cons l_word vec ih =>
    rw [joinAlnum]
    split_ifs with halnum hempty
    · rw [ih, append_assoc, flatten_cons]
    · rw [isEmpty_iff.mp hempty, flatten_cons, ih, flatten_cons]
      rfl
    · rw [flatten_cons, flatten_cons, ih, nil_append, flatten_cons]

end Text

/-! ## The table -/

section Calc

variable {α : Type} [AddCommGroup α] [LinearOrder α] {log : Nat → α} {freq : Word → UInt32}
  {data : Word}

theorem lt_toDouble_add {m w v : WithBot α} :
    (m : Double α) < toDouble w + (v : Double α) ↔ m < w + v := by
  cases w with
  | bot =>
    rw [toDouble, WithBot.map_bot, WithBot.bot_add, WithBot.bot_add]
    exact ⟨fun h => absurd h not_lt_bot, fun h => absurd h not_lt_bot⟩
  | coe x =>
    rw [toDouble, WithBot.map_coe, ← WithBot.coe_add, WithBot.coe_lt_coe]

theorem toDouble_add {m w v : WithBot α} (h : m < w + v) :
    toDouble w + (v : Double α) = ((w + v : WithBot α) : Double α) := by
  cases w with
  | bot =>
    rw [WithBot.bot_add] at h
    exact absurd h not_lt_bot
  | coe x =>
    rw [toDouble, WithBot.map_coe, ← WithBot.coe_add]

/-- The loop keeps the greatest route value above minus infinity, with its index. -/
theorem foldl_route {route : Nat → RouteValue α} {v : Nat → WithBot α} {i : Nat} {vec : List Nat}
    (hroute : ∀ t ∈ vec, (route (t + 1)).max_route = (v (t + 1) : WithBot α)) (m : WithBot α)
      (idx : Nat) :
    ∃ (m' : WithBot α) (idx' : Nat), vec.foldl (fun best (t : Nat) =>
        let word := substr data i (t + 1 - i)
        let route_value := toDouble (logFreq log freq word) + (route (t + 1)).max_route
        if best.max_route < route_value then ⟨route_value, t⟩ else best) ⟨m, idx⟩ =
        (⟨m', idx'⟩ : RouteValue α) ∧ m ≤ m' ∧
      (∀ t ∈ vec, logFreq log freq (substr data i (t + 1 - i)) + v (t + 1) ≤ m') ∧
      (m' = m ∧ idx' = idx ∨ m < m' ∧ idx' ∈ vec ∧
        logFreq log freq (substr data i (idx' + 1 - i)) + v (idx' + 1) = m') := by
  induction vec generalizing m idx with
  | nil => exact ⟨m, idx, rfl, le_rfl, nofun, .inl ⟨rfl, rfl⟩⟩
  | cons t vec ih =>
    have ih := ih fun t ht => hroute t (mem_cons_of_mem _ ht)
    rw [foldl_cons]
    dsimp only
    simp only [hroute t mem_cons_self, lt_toDouble_add]
    split
    · rename_i hlt
      rw [toDouble_add hlt]
      obtain ⟨m', idx', hfold, hle, hall, hor⟩ := ih _ t
      refine ⟨m', idx', hfold, hlt.le.trans hle, forall_mem_cons.mpr ⟨hle, hall⟩, .inr ?_⟩
      obtain ⟨rfl, rfl⟩ | ⟨hlt', hmem, heq⟩ := hor
      · exact ⟨hlt, mem_cons_self, rfl⟩
      · exact ⟨hlt.trans hlt', mem_cons_of_mem _ hmem, heq⟩
    · rename_i hlt
      obtain ⟨m', idx', hfold, hle, hall, hor⟩ := ih m idx
      refine ⟨m', idx', hfold, hle,
        forall_mem_cons.mpr ⟨(not_lt.mp hlt).trans hle, hall⟩, hor.imp_right ?_⟩
      rintro ⟨hlt', hmem, heq⟩
      exact ⟨hlt', mem_cons_of_mem _ hmem, heq⟩

theorem calcLoop_of_le {dag : Nat → List Nat} {n k : Nat} {route : Nat → RouteValue α}
    (hk : n ≤ k) : calcLoop data log freq dag n route k = route k := by
  induction n generalizing route with
  | zero => rfl
  | succ n ih =>
    rw [calcLoop, ih (Nat.le_of_succ_le hk), Function.update_of_ne (Nat.ne_of_gt hk)]

theorem bestRoute_congr {route route' : Nat → RouteValue α} {i : Nat} {vec : List Nat}
    (h : ∀ t ∈ vec, route (t + 1) = route' (t + 1)) :
    bestRoute data log freq route i vec = bestRoute data log freq route' i vec :=
  foldl_ext _ _ _ fun best t ht => by rw [h t ht]

theorem calcLoop_of_lt {dag : Nat → List Nat} (hdag : ∀ i, ∀ t ∈ dag i, i ≤ t) {n k : Nat}
    {route : Nat → RouteValue α} (hk : k < n) : calcLoop data log freq dag n route k =
      bestRoute data log freq (calcLoop data log freq dag n route) k (dag k) := by
  induction n generalizing route with
  | zero => exact absurd hk (Nat.not_lt_zero _)
  | succ n ih =>
    rw [calcLoop]
    obtain hlt | rfl := Nat.lt_succ_iff_lt_or_eq.mp hk
    · exact ih hlt
    · rw [calcLoop_of_le le_rfl, Function.update_self]
      refine bestRoute_congr fun t ht => ?_
      have := hdag k t ht
      rw [calcLoop_of_le (by omega), Function.update_of_ne (by omega)]

end Calc

variable {self appid data}

theorem Segment.le_of_mem_getDag {k t : Nat} (h : t ∈ self.getDag appid data k) : k ≤ t := by
  rw [getDag] at h
  split at h
  · exact (mem_singleton.mp h).ge
  · exact (mem_range'_1.mp (mem_filter.mp h).1).1

theorem Segment.edge.forward {i j : Nat} (h : self.edge appid data i j) :
    i < j ∧ j ≤ length data := by
  obtain ⟨hi, t, ht, rfl⟩ := h
  have hle := le_of_mem_getDag ht
  refine ⟨by omega, ?_⟩
  rw [getDag] at ht
  split at ht
  · rw [mem_singleton.mp ht]
    exact hi
  · have := (mem_range'_1.mp (mem_filter.mp ht).1).2
    omega

section Table

variable {α : Type} [AddCommGroup α] (log : Nat → α) (freq : Word → UInt32)

theorem wordWeight_succ {i t : Nat} :
    wordWeight data log freq i (t + 1) = logFreq log freq (substr data i (t + 1 - i)) := by
  rw [wordWeight]
  push_cast
  rfl

variable [LinearOrder α]

variable (self appid data)

/-- The route that is computed for the graph. -/
def Segment.route (i : Nat) : RouteValue α :=
  calcRoute data log freq (self.getDag appid data) i

/-- The route value of a position, with `-DBL_MAX` as minus infinity. -/
def Segment.value (i : Nat) : WithBot α := (self.route appid data log freq i).max_route.unbotD ⊥

theorem Segment.route_length : self.route appid data log freq (length data) = .zero :=
  calcLoop_of_le le_rfl

/-- What is found at a position of the text. -/
theorem Segment.route_eq {i : Nat} (hi : i < length data) : ∃ (m : WithBot α) (idx : Nat),
    self.route appid data log freq i = ⟨m, idx⟩ ∧
      (∀ t ∈ self.getDag appid data i,
        wordWeight data log freq i (t + 1) + self.value appid data log freq (t + 1) ≤ m) ∧
      (m = ⊥ ∧ idx = 0 ∨ ⊥ < m ∧ idx ∈ self.getDag appid data i ∧
        wordWeight data log freq i (idx + 1) + self.value appid data log freq (idx + 1) = m) := by
  induction hn : length data - i using Nat.strong_induction_on generalizing i with
  | _ n ih =>
    subst hn
    have hroute : ∀ t ∈ self.getDag appid data i,
        (self.route appid data log freq (t + 1)).max_route =
          (self.value appid data log freq (t + 1) : WithBot α) := by
      intro t ht
      have hedge : self.edge appid data i (t + 1) := ⟨hi, t, ht, rfl⟩
      obtain ⟨hlt, hle⟩ := hedge.forward
      obtain hlt' | heq := Nat.lt_or_eq_of_le hle
      · obtain ⟨m, idx, heq, -⟩ := ih (length data - (t + 1)) (by omega) hlt' rfl
        rw [value, heq]
        rfl
      · rw [value, heq, route_length]
        rfl
    obtain ⟨m, idx, hfold, -, hall, hor⟩ := @foldl_route α _ _ log freq data _ _ i _ hroute ⊥ 0
    refine ⟨m, idx, ?_, ?_⟩
    · rw [route, calcRoute, calcLoop_of_lt (fun _ _ => le_of_mem_getDag) hi]
      exact hfold
    · simp only [wordWeight_succ]
      exact ⟨hall, hor⟩

variable {self appid data log freq} in
theorem Segment.value_eq {i idx : Nat} {m : WithBot α}
    (h : self.route appid data log freq i = ⟨m, idx⟩) : self.value appid data log freq i = m := by
  rw [value, h]
  rfl

theorem Segment.isTable : IsTable (self.edge appid data) (length data) (wordWeight data log freq)
    (self.value appid data log freq) fun i => (self.route appid data log freq i).idx + 1 where
  forward := edge.forward
  value_goal := by
    rw [value, route_length]
    rfl
  le := by
    rintro i _ ⟨hi, t, ht, rfl⟩
    obtain ⟨m, idx, heq, hall, -⟩ := self.route_eq appid data log freq hi
    rw [value_eq heq]
    exact hall t ht
  attained := by
    intro i hi hvalue
    obtain ⟨m, idx, heq, -, hor⟩ := self.route_eq appid data log freq hi
    obtain ⟨-, hmem, hsum⟩ := hor.resolve_left fun h => hvalue ((value_eq heq).trans h.1)
    rw [heq, value_eq heq]
    exact ⟨⟨hi, idx, hmem, rfl⟩, hsum⟩

/-- A position that no path of finite weight leaves points to the first character. -/
theorem Segment.idx_eq_zero {i : Nat} (hi : i < length data)
    (hvalue : self.value appid data log freq i = ⊥) :
    (self.route appid data log freq i).idx = 0 := by
  obtain ⟨m, idx, heq, -, hor⟩ := self.route_eq appid data log freq hi
  rw [heq]
  exact (hor.resolve_right fun h => h.1.ne' ((value_eq heq).symm.trans hvalue)).2

variable [IsOrderedAddMonoid α]

theorem Segment.value_ne_bot_iff {i : Nat} (hi : i ≤ length data) :
    self.value appid data log freq i ≠ ⊥ ↔ self.Cuttable appid data freq i := by
  rw [(self.isTable appid data log freq).value_ne_bot_iff hi, Cuttable]
  have hweight : ∀ i j, wordWeight data log freq i j ≠ ⊥ ↔ freq (substr data i (j - i)) ≠ 0 := by
    intro i j
    rw [wordWeight, logFreq]
    split
    · rename_i h
      exact ⟨fun hne => absurd rfl hne, fun hne => absurd h hne⟩
    · rename_i h
      exact ⟨fun _ => h, fun _ => WithBot.coe_ne_bot⟩
  simp only [hweight]

/-- A best path is followed exactly if the text, or its rest behind a first word of one character,
can be cut. -/
theorem Segment.cuts_best_iff : (∃ fuel path,
      cuts data log freq (self.getDag appid data) fuel = some path ∧
      IsPath (self.edge appid data) (length data) 0 path ∧
      ∀ path', IsPath (self.edge appid data) (length data) 0 path' →
        pathWeight (wordWeight data log freq) 0 path' ≤
          pathWeight (wordWeight data log freq) 0 path) ↔
    length data = 0 ∨ self.Cuttable appid data freq 0 ∨
      self.edge appid data 0 1 ∧ self.Cuttable appid data freq 1 := by
  have htable := self.isTable appid data log freq
  have hcuttable := fun i => @self.value_ne_bot_iff appid data _ _ log freq _ _ i
  set next : Nat → Nat := fun i => (self.route appid data log freq i).idx + 1
  have hnext : ∀ i < length data, self.value appid data log freq i = ⊥ → next i = 1 :=
    fun i hi hvalue => congrArg (· + 1) (self.idx_eq_zero appid data log freq hi hvalue)
  have hcuts : ∀ fuel, cuts data log freq (self.getDag appid data) fuel =
      follow (length data) next fuel 0 := fun _ => rfl
  simp only [hcuts]
  constructor
  · rintro ⟨fuel, path, hfollow, hpath, -⟩
    refine or_iff_not_imp_left.mpr fun hlen => or_iff_not_imp_left.mpr fun hcut => ?_
    have hpos : 0 < length data := Nat.pos_of_ne_zero hlen
    rw [← hcuttable 0 hpos.le, not_not] at hcut
    obtain _ | fuel := fuel
    · cases hfollow
    · rw [follow, if_pos hpos, hnext 0 hpos hcut] at hfollow
      obtain ⟨rest, hrest, rfl⟩ := Option.map_eq_some_iff.mp hfollow
      have hedge : self.edge appid data 0 1 := hpath.1
      refine ⟨hedge, (hcuttable 1 hedge.forward.2).mp fun hbot => ?_⟩
      obtain hlt | heq := Nat.lt_or_eq_of_le hedge.forward.2
      · rw [follow_fixed hlt (hnext 1 hlt hbot)] at hrest
        cases hrest
      · rw [heq, htable.value_goal] at hbot
        exact absurd hbot WithBot.coe_ne_bot
  · intro h
    by_cases hvalue : self.value appid data log freq 0 = ⊥
    · have hlen : length data ≠ 0 := by
        intro hzero
        rw [← hzero, htable.value_goal] at hvalue
        exact absurd hvalue WithBot.coe_ne_bot
      have hpos : 0 < length data := Nat.pos_of_ne_zero hlen
      obtain ⟨hedge, hcut⟩ := (h.resolve_left hlen).resolve_left fun hcut =>
        (hcuttable 0 hpos.le).mpr hcut hvalue
      have hone := (hcuttable 1 hedge.forward.2).mpr hcut
      obtain ⟨path, hfollow, hpath, -⟩ := htable.follow_eq hedge.forward.2 hone
        (Nat.lt_succ_self _)
      refine ⟨length data - 1 + 1 + 1, 1 :: path, ?_, ⟨hedge, hpath⟩, fun path' hpath' => ?_⟩
      · rw [follow, if_pos hpos, hnext 0 hpos hvalue, hfollow, Option.map_some]
      · have := htable.pathWeight_le hpath'
        rw [hvalue, le_bot_iff] at this
        rw [this]
        exact bot_le
    · obtain ⟨path, hfollow, hpath, hweight⟩ := htable.follow_eq (Nat.zero_le _) hvalue
        (Nat.lt_succ_self _)
      exact ⟨_, path, hfollow, hpath, fun path' hpath' =>
        (htable.pathWeight_le hpath').trans hweight.ge⟩

/-- A segmenter whose words together are those of the path. -/
theorem Segment.cutsOptimally_iff_reachable {split : Nat → Option (List Word)}
    {join : List Word → List Word} (hjoin : ∀ vec, (join vec).flatten = vec.flatten)
    (hsplit : ∀ fuel, split fuel =
      (cuts data log freq (self.getDag appid data) fuel).map fun path => join (words data 0 path)) :
    self.CutsOptimally appid data log freq split ↔ self.Reachable appid data freq := by
  have hbest := self.cuts_best_iff appid data log freq
  have hflatten : ∀ path, IsPath (self.edge appid data) (length data) 0 path →
      ((join (words data 0 path)).flatten = data ↔ ∀ c ∈ data.head?, starts c = true) := by
    intro path hpath
    rw [hjoin, flatten_words (fun _ _ => Segment.edge.forward) hpath, offset_zero]
  rw [Reachable, ← hbest]
  constructor
  · rintro ⟨fuel, vec, path, hvec, htext, hcuts, hpath, hmax⟩
    rw [hsplit, hcuts, Option.map_some, Option.some.injEq] at hvec
    rw [← hvec, hflatten path hpath] at htext
    exact ⟨htext, fuel, path, hcuts, hpath, hmax⟩
  · rintro ⟨htext, fuel, path, hcuts, hpath, hmax⟩
    refine ⟨fuel, _, path, ?_, (hflatten path hpath).mpr htext, hcuts, hpath, hmax⟩
    rw [hsplit, hcuts, Option.map_some]

/-- Both segmenters cut a text along a best path exactly if it starts with a character and it, or
its rest behind a first word of one character, can be cut into words that occur. -/
theorem Segment.cutsOptimally_iff :
    (self.CutsOptimally appid data log (self.dagFreq appid) (self.concreteSplit appid data log) ↔
      self.Reachable appid data (self.dagFreq appid)) ∧
    (self.CutsOptimally appid data log (self.fbFreq appid) (self.cutDagNoHmm appid data log) ↔
      self.Reachable appid data (self.fbFreq appid)) := by
  constructor
  · have hjoin : ∀ vec : List Word, (id vec).flatten = vec.flatten := fun _ => rfl
    exact self.cutsOptimally_iff_reachable appid data log _ hjoin fun _ => rfl
  · exact self.cutsOptimally_iff_reachable appid data log _ (flatten_joinAlnum []) fun _ => rfl

end Table

/-- The character `文` is known to the application 2 only. -/
def otherDictionary : Segment where
  word_dict word :=
    if word = [0xE6, 0x96, 0x87] then some fun appid => if appid = 2 then some 5 else none else none
  punct_set := []

theorem cutsOptimally_iff_known :
    (otherDictionary.CutsOptimally 2 [0xE6, 0x96, 0x87] Int.ofNat (otherDictionary.dagFreq 2)
        (otherDictionary.concreteSplit 2 [0xE6, 0x96, 0x87] Int.ofNat) ↔
      otherDictionary.Reachable 2 [0xE6, 0x96, 0x87] (otherDictionary.dagFreq 2)) ∧
    (otherDictionary.CutsOptimally 2 [0xE6, 0x96, 0x87] Int.ofNat (otherDictionary.fbFreq 2)
        (otherDictionary.cutDagNoHmm 2 [0xE6, 0x96, 0x87] Int.ofNat) ↔
      otherDictionary.Reachable 2 [0xE6, 0x96, 0x87] (otherDictionary.fbFreq 2)) :=
  Segment.cutsOptimally_iff otherDictionary 2 [0xE6, 0x96, 0x87] Int.ofNat

/-- `DagSegment` does not end on the text `中文` for the application 1. -/
theorem not_cutsOptimally_unknown :
    ¬otherDictionary.CutsOptimally 1 [0xE4, 0xB8, 0xAD, 0xE6, 0x96, 0x87] Int.ofNat
      (otherDictionary.dagFreq 1)
      (otherDictionary.concreteSplit 1 [0xE4, 0xB8, 0xAD, 0xE6, 0x96, 0x87] Int.ofNat) := by
  intro h
  have hjoin : ∀ vec : List Word, (id vec).flatten = vec.flatten := fun _ => rfl
  have hreach := (otherDictionary.cutsOptimally_iff_reachable 1
    [0xE4, 0xB8, 0xAD, 0xE6, 0x96, 0x87] Int.ofNat _ hjoin fun _ => rfl).mp h
  have hlen : length [0xE4, 0xB8, 0xAD, 0xE6, 0x96, 0x87] = 2 := by decide
  have hdag : ∀ i < 2, otherDictionary.getDag 1 [0xE4, 0xB8, 0xAD, 0xE6, 0x96, 0x87] i = [i] := by
    decide
  have hone : ¬otherDictionary.Cuttable 1 [0xE4, 0xB8, 0xAD, 0xE6, 0x96, 0x87]
      (otherDictionary.dagFreq 1) 1 := by
    rintro ⟨path, hpath⟩
    cases path with
    | nil => exact absurd (hpath.trans hlen) (by decide)
    | cons j path =>
      obtain ⟨⟨-, t, ht, rfl⟩, hfreq⟩ := hpath.1
      rw [hdag 1 (by decide), mem_singleton] at ht
      subst ht
      exact hfreq (by decide)
  obtain hzero | ⟨path, hpath⟩ | hcut := hreach.2
  · exact absurd (hlen.symm.trans hzero) (by decide)
  · cases path with
    | nil => exact absurd (hpath.trans hlen) (by decide)
    | cons j path =>
      obtain ⟨⟨-, t, ht, rfl⟩, -⟩ := hpath.1
      rw [hdag 0 (by decide), mem_singleton] at ht
      subst ht
      exact hone ⟨path, hpath.2⟩
  · exact hone hcut.2

end ISearch.Segmentation

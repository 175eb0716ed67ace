import ISearch.Lib.MinHeap

/-!
# Words that start alike (`ternary.cc`, `priority_queue.h`)

Words are kept in a ternary tree, with their frequencies. Those that start with a given text go
through a heap of bounded size, which keeps the most frequent. Characters are signed and compared as
numbers.
-/

namespace ISearch.Suggest

open MinHeap List

abbrev Str := List Int8

inductive NodeType where
  | completed
  | uncompleted
  deriving DecidableEq, Repr

inductive NodeTree where
  | null
  | node (word : Int8) (type : NodeType) (freq : UInt32) (left mid right : NodeTree)
  deriving DecidableEq

abbrev Pair := UInt32 × Str

namespace NodeTree

/-- `Insert` with the character at `index`, which is the last one, or else has the rest of the word
behind it. -/
def insertAt (c : Int8) (freq : UInt32) (rest : Option (NodeTree → NodeTree)) : NodeTree → NodeTree
  | null =>
    match rest with
    | none => node c .completed freq null null null
    | some insert => node c .uncompleted 0 null (insert null) null
  | node word type f left mid right =>
    if c.toInt < word.toInt then node word type f (insertAt c freq rest left) mid right
    else if c.toInt > word.toInt then node word type f left mid (insertAt c freq rest right)
    else match rest with
      | none => node word .completed freq left mid right
      | some insert => node word type f left (insert mid) right

def insert (freq : UInt32) : Str → NodeTree → NodeTree
  | [] => id
  | [c] => insertAt c freq none
  | c :: c' :: word => insertAt c freq (some (insert freq (c' :: word)))

/-- The node of a character among a node and what is left and right of it. -/
def findAt (c : Int8) : NodeTree → Option (NodeType × UInt32 × NodeTree)
  | null => none
  | node word type f left mid right =>
    if c.toInt < word.toInt then findAt c left
    else if c.toInt > word.toInt then findAt c right
    else some (type, f, mid)

/-- The node of the last character of a word. -/
def find : Str → NodeTree → Option (NodeType × UInt32 × NodeTree)
  | [], _ => none
  | [c], t => findAt c t
  | c :: c' :: word, t => (findAt c t).bind fun (_, _, mid) => find (c' :: word) mid

/-- The words below a node, in the order in which `DFS` comes to them. -/
def words (perfix : Str) : NodeTree → List Pair
  | null => []
  | node word type f left mid right =>
    (if type = .completed then [(f, perfix ++ [word])] else []) ++
      words perfix left ++ words (perfix ++ [word]) mid ++ words perfix right

end NodeTree

abbrev PriorityQueue := Queue Pair

namespace PriorityQueue

/-- `PriorityQueue (len)`. -/
def new (len : Nat) : PriorityQueue := ⟨fun _ => (0, []), 0, len⟩

def enQueue (q : PriorityQueue) (val : Pair) : PriorityQueue := Queue.enQueue (·.1.toNat) q val

/-- The pairs in the order of the array. -/
def toList (q : PriorityQueue) : List Pair := (List.range q.size).map q.pairs

def getElements (sort : List Pair → List Pair) (q : PriorityQueue) : List Str :=
  if q.size = 0 then []
  else if q.size = 1 then [(q.pairs 0).2]
  else (sort q.toList).map (·.2)

end PriorityQueue

namespace NodeTree

def dfs (perfix : Str) : NodeTree → PriorityQueue → PriorityQueue
  | null, q => q
  | node word type f left mid right, q =>
    let q := if type = .completed then q.enQueue (f, perfix ++ [word]) else q
    dfs perfix right (dfs (perfix ++ [word]) mid (dfs perfix left q))

def findSimliar (word : Str) (root : NodeTree) (q : PriorityQueue) : Bool × PriorityQueue :=
  match find word root with
  | none => (false, q)
  | some (type, f, mid) =>
    let q := if type = .completed then q.enQueue (f, word) else q
    if mid = null then (false, q) else (true, dfs word mid q)

end NodeTree

/-- The tree after a sequence of calls of `Insert`. -/
def tree (inserts : List (Str × UInt32)) : NodeTree :=
  inserts.foldl (fun t (word, freq) => t.insert freq word) .null

/-- The frequency of a word, by its last insertion. -/
def frequency (inserts : List (Str × UInt32)) (word : Str) : Option UInt32 :=
  inserts.foldl (fun f (w, freq) => if w = word then some freq else f) none

/-- The distinct words that start with a text. -/
def matching (inserts : List (Str × UInt32)) (perfix : Str) : List Str :=
  (inserts.map (·.1)).dedup.filter fun word => perfix <+: word

/-! ## What a tree holds -/

namespace NodeTree

/-- The frequency of a word in a tree. -/
def value (t : NodeTree) (word : Str) : Option UInt32 :=
  (find word t).bind fun (type, f, _) => if type = .completed then some f else none

theorem find_cons (c : Int8) (word : Str) (t : NodeTree) (hword : word ≠ []) :
    find (c :: word) t = (findAt c t).bind fun x => find word x.2.2 := by
  cases word with
  | nil => exact absurd rfl hword
  | cons => rfl

theorem value_nil (t : NodeTree) : value t [] = none := rfl

theorem value_null (word : Str) : value .null word = none := by
  cases word with
  | nil => rfl
  | cons c word => cases word <;> rfl

theorem value_singleton (c : Int8) (t : NodeTree) :
    value t [c] = (findAt c t).bind fun x => if x.1 = .completed then some x.2.1 else none := rfl

theorem value_cons (c : Int8) {word : Str} (t : NodeTree) (hword : word ≠ []) :
    value t (c :: word) = (findAt c t).bind fun x => value x.2.2 word := by
  rw [value, find_cons c word t hword]
  cases findAt c t <;> rfl

/-- The branches of a comparison. -/
theorem compare_cases (c d : Int8) : c.toInt < d.toInt ∨ c.toInt > d.toInt ∨ c = d := by
  rcases lt_trichotomy c.toInt d.toInt with h | h | h
  · exact .inl h
  · exact .inr (.inr (Int8.toInt_inj.mp h))
  · exact .inr (.inl h)

section Node

variable {c : Int8} {word : Int8} {type : NodeType} {f : UInt32} {left mid right : NodeTree}

theorem findAt_left (h : c.toInt < word.toInt) :
    findAt c (node word type f left mid right) = findAt c left := by rw [findAt, if_pos h]

theorem findAt_right (h : c.toInt > word.toInt) :
    findAt c (node word type f left mid right) = findAt c right := by
  rw [findAt, if_neg h.not_gt, if_pos h]

theorem findAt_self : findAt word (node word type f left mid right) = some (type, f, mid) := by
  rw [findAt, if_neg (lt_irrefl _), if_neg (lt_irrefl _)]

end Node

/-- What `Insert` leaves at the node of its character. -/
def inserted (freq : UInt32) (rest : Option (NodeTree → NodeTree))
    (found : Option (NodeType × UInt32 × NodeTree)) : NodeType × UInt32 × NodeTree :=
  match rest with
  | none => (.completed, freq, (found.map (·.2.2)).getD null)
  | some insert => ((found.map (·.1)).getD .uncompleted, (found.map (·.2.1)).getD 0,
      insert ((found.map (·.2.2)).getD null))

section Node

variable {c : Int8} {freq : UInt32} {rest : Option (NodeTree → NodeTree)} {word : Int8}
  {type : NodeType} {f : UInt32} {left mid right : NodeTree}

theorem insertAt_left (h : c.toInt < word.toInt) :
    insertAt c freq rest (node word type f left mid right) =
    node word type f (insertAt c freq rest left) mid right := by
  cases rest <;> rw [insertAt, if_pos h]

theorem insertAt_right (h : c.toInt > word.toInt) :
    insertAt c freq rest (node word type f left mid right) =
    node word type f left mid (insertAt c freq rest right) := by
  cases rest <;> rw [insertAt, if_neg h.not_gt, if_pos h]

theorem insertAt_self : insertAt word freq rest (node word type f left mid right) =
    node word (inserted freq rest (some (type, f, mid))).1
      (inserted freq rest (some (type, f, mid))).2.1
      left (inserted freq rest (some (type, f, mid))).2.2 right := by
  cases rest <;> rw [insertAt, if_neg (lt_irrefl _), if_neg (lt_irrefl _)] <;> rfl

end Node

theorem findAt_insertAt_self (c : Int8) (freq : UInt32) (rest : Option (NodeTree → NodeTree))
    (t : NodeTree) :
      findAt c (insertAt c freq rest t) = some (inserted freq rest (findAt c t)) := by
  induction t with
  | null => cases rest <;> exact findAt_self
  | node word type f left mid right ihl _ ihr =>
    obtain h | h | rfl := compare_cases c word
    · rw [insertAt_left h, findAt_left h, findAt_left h, ihl]
    · rw [insertAt_right h, findAt_right h, findAt_right h, ihr]
    · rw [insertAt_self, findAt_self, findAt_self]

theorem findAt_insertAt_of_ne {c d : Int8} (hne : d ≠ c) (freq : UInt32)
    (rest : Option (NodeTree → NodeTree)) (t : NodeTree) :
    findAt d (insertAt c freq rest t) = findAt d t := by
  induction t with
  | null =>
    have hnull (type : NodeType) (f : UInt32) (mid : NodeTree) :
        findAt d (node c type f null mid null) = none := by
      obtain h | h | rfl := compare_cases d c
      · rw [findAt_left h]
        rfl
      · rw [findAt_right h]
        rfl
      · exact absurd rfl hne
    cases rest <;> exact hnull _ _ _
  | node word type f left mid right ihl _ ihr =>
    obtain h | h | rfl := compare_cases c word
    · rw [insertAt_left h]
      obtain h' | h' | rfl := compare_cases d word
      · rw [findAt_left h', findAt_left h', ihl]
      · rw [findAt_right h', findAt_right h']
      · rw [findAt_self, findAt_self]
    · rw [insertAt_right h]
      obtain h' | h' | rfl := compare_cases d word
      · rw [findAt_left h', findAt_left h']
      · rw [findAt_right h', findAt_right h', ihr]
      · rw [findAt_self, findAt_self]
    · rw [insertAt_self]
      obtain h' | h' | rfl := compare_cases d c
      · rw [findAt_left h', findAt_left h']
      · rw [findAt_right h', findAt_right h']
      · exact absurd rfl hne

theorem value_insert (freq : UInt32) {word : Str} (hword : word ≠ []) (t : NodeTree) (w : Str) :
    value (t.insert freq word) w = if w = word then some freq else value t w := by
  induction word generalizing t w with
  | nil => exact absurd rfl hword
  | cons c word ih =>
    cases w with
    | nil => rw [value_nil, value_nil, if_neg (cons_ne_nil c word).symm]
    | cons d w =>
      have hinsert : ∃ rest, t.insert freq (c :: word) = insertAt c freq rest t ∧
          (rest = none ∧ word = [] ∨ rest = some (insert freq word) ∧ word ≠ []) := by
        cases word with
        | nil => exact ⟨none, rfl, .inl ⟨rfl, rfl⟩⟩
        | cons c' word => exact ⟨_, rfl, .inr ⟨rfl, cons_ne_nil _ _⟩⟩
      obtain ⟨rest, heq, hrest⟩ := hinsert
      rw [heq]
      obtain rfl | hne := eq_or_ne d c
      · by_cases hw : w = []
        · subst hw
          rw [value_singleton, findAt_insertAt_self, value_singleton]
          obtain ⟨rfl, rfl⟩ | ⟨rfl, hword'⟩ := hrest
          · rw [if_pos rfl]
            rfl
          · rw [if_neg (by simpa using hword'.symm)]
            cases findAt d t <;> rfl
        · rw [value_cons d _ hw, findAt_insertAt_self, value_cons d _ hw]
          obtain ⟨rfl, rfl⟩ | ⟨rfl, hword'⟩ := hrest
          · rw [if_neg (by simpa using hw)]
            cases findAt d t with
            | none => exact value_null w
            | some => rfl
          · simp only [Option.bind_some, inserted, List.cons.injEq, true_and]
            rw [ih hword']
            cases findAt d t with
            | none => exact if_congr Iff.rfl rfl (value_null w)
            | some => rfl
      · rw [if_neg fun h => hne (List.cons.inj h).1]
        by_cases hw : w = []
        · subst hw
          rw [value_singleton, findAt_insertAt_of_ne hne, value_singleton]
        · rw [value_cons d _ hw, findAt_insertAt_of_ne hne, value_cons d _ hw]

/-- The characters of a node and of those left and right of it. -/
def Holds : NodeTree → Int8 → Prop
  | null, _ => False
  | node word _ _ left _ right, c => c = word ∨ Holds left c ∨ Holds right c

def Ordered : NodeTree → Prop
  | null => True
  | node word _ _ left mid right =>
    (∀ c, left.Holds c → c.toInt < word.toInt) ∧ (∀ c, right.Holds c → word.toInt < c.toInt) ∧
      left.Ordered ∧ mid.Ordered ∧ right.Ordered

theorem holds_insertAt {c d : Int8} {freq : UInt32} {rest : Option (NodeTree → NodeTree)}
    {t : NodeTree} : (insertAt c freq rest t).Holds d ↔ d = c ∨ t.Holds d := by
  induction t with
  | null => cases rest <;> simp [insertAt, Holds]
  | node word type f left mid right ihl _ ihr =>
    obtain h | h | rfl := compare_cases c word
    · rw [insertAt_left h, Holds, Holds, ihl, or_assoc, or_left_comm]
    · rw [insertAt_right h, Holds, Holds, ihr, @or_left_comm (left.Holds d), or_left_comm]
    · rw [insertAt_self, Holds, Holds]
      exact (or_iff_right_of_imp .inl).symm

theorem ordered_insertAt {c : Int8} {freq : UInt32} {rest : Option (NodeTree → NodeTree)}
    (hrest : ∀ insert ∈ rest, ∀ t : NodeTree, t.Ordered → (insert t).Ordered) {t : NodeTree}
    (h : t.Ordered) : (insertAt c freq rest t).Ordered := by
  induction t with
  | null =>
    cases rest with
    | none => exact ⟨fun _ h => h.elim, fun _ h => h.elim, trivial, trivial, trivial⟩
    | some insert => exact ⟨fun _ h => h.elim, fun _ h => h.elim, trivial,
      hrest insert rfl null trivial, trivial⟩
  | node word type f left mid right ihl _ ihr =>
    obtain ⟨hl, hr, hleft, hmid, hright⟩ := h
    obtain hlt | hgt | rfl := compare_cases c word
    · rw [insertAt_left hlt]
      refine ⟨fun d hd => ?_, hr, ihl hleft, hmid, hright⟩
      obtain rfl | hd := holds_insertAt.mp hd
      · exact hlt
      · exact hl d hd
    · rw [insertAt_right hgt]
      refine ⟨hl, fun d hd => ?_, hleft, hmid, ihr hright⟩
      obtain rfl | hd := holds_insertAt.mp hd
      · exact hgt
      · exact hr d hd
    · rw [insertAt_self]
      refine ⟨hl, hr, hleft, ?_, hright⟩
      cases rest with
      | none => exact hmid
      | some insert => exact hrest insert rfl mid hmid

theorem ordered_insert (freq : UInt32) (word : Str) {t : NodeTree} (h : t.Ordered) :
    (t.insert freq word).Ordered := by
  induction word generalizing t with
  | nil => exact h
  | cons c word ih =>
    cases word with
    | nil => exact ordered_insertAt (fun _ hinsert => absurd hinsert (by simp)) h
    | cons c' word =>
      refine ordered_insertAt (fun insert hinsert t ht => ?_) h
      obtain rfl := Option.some.inj hinsert
      exact ih ht

/-! ## The words below a node -/

section Node

variable {c : Int8} {w : Str} {word : Int8} {type : NodeType} {f : UInt32}
    {left mid right : NodeTree}

theorem value_left (h : c.toInt < word.toInt) :
    value (node word type f left mid right) (c :: w) = value left (c :: w) := by
  cases w with
  | nil => rw [value_singleton, value_singleton, findAt_left h]
  | cons => rw [value_cons _ _ (cons_ne_nil _ _), value_cons _ _ (cons_ne_nil _ _), findAt_left h]

theorem value_right (h : c.toInt > word.toInt) :
    value (node word type f left mid right) (c :: w) = value right (c :: w) := by
  cases w with
  | nil => rw [value_singleton, value_singleton, findAt_right h]
  | cons => rw [value_cons _ _ (cons_ne_nil _ _), value_cons _ _ (cons_ne_nil _ _), findAt_right h]

theorem value_self : value (node word type f left mid right) (word :: w) =
    if w = [] then if type = .completed then some f else none else value mid w := by
  cases w with
  | nil => rw [value_singleton, findAt_self]; rfl
  | cons => rw [value_cons _ _ (cons_ne_nil _ _), findAt_self]; rfl

end Node

theorem holds_of_value {c : Int8} {w : Str} {f : UInt32} {t : NodeTree}
    (h : value t (c :: w) = some f) : t.Holds c := by
  induction t with
  | null =>
    rw [value_null] at h
    exact absurd h nofun
  | node word type f left mid right ihl _ ihr =>
    obtain hlt | hgt | rfl := compare_cases c word
    · exact .inr (.inl (ihl (value_left hlt ▸ h)))
    · exact .inr (.inr (ihr (value_right hgt ▸ h)))
    · exact .inl rfl

theorem mem_words {t : NodeTree} (ht : t.Ordered) {perfix : Str} {f : UInt32} {s : Str} :
    (f, s) ∈ words perfix t ↔ ∃ c w, s = perfix ++ c :: w ∧ value t (c :: w) = some f := by
  induction t generalizing perfix with
  | null => simp [words, value_null]
  | node word type f' left mid right ihl ihm ihr =>
    obtain ⟨hl, hr, hleft, hmid, hright⟩ := ht
    simp only [words, mem_append, ihl hleft, ihm hmid, ihr hright]
    constructor
    · rintro (((h | ⟨c, w, rfl, h⟩) | ⟨c, w, rfl, h⟩) | ⟨c, w, rfl, h⟩)
      · split_ifs at h with htype
        · obtain ⟨rfl, rfl⟩ := Prod.mk.inj (mem_singleton.mp h)
          exact ⟨word, [], rfl, by rw [value_self, if_pos rfl, if_pos htype]⟩
        · exact absurd h not_mem_nil
      · exact ⟨c, w, rfl, (value_left (hl c (holds_of_value h))).trans h⟩
      · refine ⟨word, c :: w, by simp, ?_⟩
        rw [value_self, if_neg (cons_ne_nil _ _), h]
      · exact ⟨c, w, rfl, (value_right (hr c (holds_of_value h))).trans h⟩
    · rintro ⟨c, w, rfl, h⟩
      obtain hlt | hgt | rfl := compare_cases c word
      · exact .inl (.inl (.inr ⟨c, w, rfl, value_left hlt ▸ h⟩))
      · exact .inr ⟨c, w, rfl, value_right hgt ▸ h⟩
      · rw [value_self] at h
        cases w with
        | nil =>
          rw [if_pos rfl] at h
          split_ifs at h with htype
          obtain rfl := Option.some.inj h
          exact .inl (.inl (.inl (by simp [htype])))
        | cons d w =>
          rw [if_neg (cons_ne_nil _ _)] at h
          exact .inl (.inr ⟨d, w, by simp, h⟩)

/-- A word below a node starts with a character that the node holds. -/
theorem exists_of_mem_words {t : NodeTree} (ht : t.Ordered) {perfix s : Str}
    (h : s ∈ (words perfix t).map (·.2)) : ∃ c w, s = perfix ++ c :: w ∧ t.Holds c := by
  obtain ⟨⟨f, s⟩, hmem, rfl⟩ := mem_map.mp h
  obtain ⟨c, w, rfl, hvalue⟩ := (mem_words ht).mp hmem
  exact ⟨c, w, rfl, holds_of_value hvalue⟩

theorem nodup_words {t : NodeTree} (ht : t.Ordered) (perfix : Str) :
    ((words perfix t).map (·.2)).Nodup := by
  induction t generalizing perfix with
  | null => exact nodup_nil
  | node word type f left mid right ihl ihm ihr =>
    obtain ⟨hl, hr, hleft, hmid, hright⟩ := ht
    have hself {s : Str}
        (h : s ∈ (if type = .completed then [(f, perfix ++ [word])]
          else [] : List Pair).map (·.2)) :
        s = perfix ++ [word] := by
      split_ifs at h
      · exact mem_singleton.mp h
      · exact absurd h not_mem_nil
    simp only [words, map_append, nodup_append', disjoint_append_left]
    refine ⟨⟨⟨?_, ihl hleft perfix, ?_⟩, ihm hmid _, ?_, ?_⟩, ihr hright perfix, ⟨?_, ?_⟩, ?_⟩
    · split_ifs
      · exact nodup_singleton _
      · exact nodup_nil
    · intro s hs hs'
      obtain ⟨c, w, rfl, hc⟩ := exists_of_mem_words hleft hs'
      have heq := append_cancel_left (hself hs)
      exact (hl c hc).ne (congrArg Int8.toInt (List.cons.inj heq).1)
    · intro s hs hs'
      obtain ⟨c, w, rfl, hc⟩ := exists_of_mem_words hmid hs'
      have heq := hself hs
      simp at heq
    · intro s hs hs'
      obtain ⟨c, w, rfl, hc⟩ := exists_of_mem_words hleft hs
      obtain ⟨d, w', heq, -⟩ := exists_of_mem_words hmid hs'
      rw [append_assoc] at heq
      have heq := append_cancel_left heq
      exact (hl c hc).ne (congrArg Int8.toInt (List.cons.inj heq).1)
    · intro s hs hs'
      obtain ⟨c, w, rfl, hc⟩ := exists_of_mem_words hright hs'
      have heq := append_cancel_left (hself hs)
      exact (hr c hc).ne' (congrArg Int8.toInt (List.cons.inj heq).1)
    · intro s hs hs'
      obtain ⟨c, w, rfl, hc⟩ := exists_of_mem_words hleft hs
      obtain ⟨d, w', heq, hd⟩ := exists_of_mem_words hright hs'
      have heq := append_cancel_left heq
      obtain rfl := (List.cons.inj heq).1
      exact (hl c hc).asymm (hr c hd)
    · intro s hs hs'
      obtain ⟨c, w, rfl, hc⟩ := exists_of_mem_words hmid hs
      obtain ⟨d, w', heq, hd⟩ := exists_of_mem_words hright hs'
      rw [append_assoc] at heq
      have heq := append_cancel_left heq
      exact (hr d hd).ne (congrArg Int8.toInt (List.cons.inj heq).1)

theorem dfs_eq (perfix : Str) (t : NodeTree) (q : PriorityQueue) :
    dfs perfix t q = (words perfix t).foldl PriorityQueue.enQueue q := by
  induction t generalizing perfix q with
  | null => rfl
  | node word type f left mid right ihl ihm ihr =>
    simp only [dfs, words, foldl_append, ihl, ihm, ihr]
    split_ifs <;> rfl

/-! ## The words that start with a text -/

/-- The pairs that `FindSimliar` puts into the queue. -/
def similar (word : Str) (root : NodeTree) : List Pair :=
  match find word root with
  | none => []
  | some (type, f, mid) => (if type = .completed then [(f, word)] else []) ++ words word mid

theorem findSimliar_eq (word : Str) (root : NodeTree) (q : PriorityQueue) :
    (findSimliar word root q).2 = (similar word root).foldl PriorityQueue.enQueue q := by
  rw [findSimliar, similar]
  cases find word root with
  | none => rfl
  | some x =>
    obtain ⟨type, f, mid⟩ := x
    simp only [foldl_append, dfs_eq]
    by_cases hmid : mid = null
    · subst hmid
      rw [if_pos rfl]
      split_ifs <;> rfl
    · rw [if_neg hmid]
      split_ifs <;> rfl

theorem ordered_of_find {word : Str} {t : NodeTree} (ht : t.Ordered)
    {x : NodeType × UInt32 × NodeTree}
    (h : find word t = some x) : x.2.2.Ordered := by
  have hat {c : Int8} {t : NodeTree} (ht : t.Ordered) {x : NodeType × UInt32 × NodeTree}
      (h : findAt c t = some x) : x.2.2.Ordered := by
    induction t with
    | null => exact absurd h nofun
    | node word type f left mid right ihl _ ihr =>
      obtain ⟨-, -, hleft, hmid, hright⟩ := ht
      obtain hlt | hgt | rfl := compare_cases c word
      · exact ihl hleft (findAt_left hlt ▸ h)
      · exact ihr hright (findAt_right hgt ▸ h)
      · rw [findAt_self] at h
        obtain rfl := Option.some.inj h
        exact hmid
  induction word generalizing t with
  | nil => exact absurd h nofun
  | cons c word ih =>
    cases word with
    | nil => exact hat ht h
    | cons c' word =>
      obtain ⟨y, hy, hx⟩ := Option.bind_eq_some_iff.mp h
      exact ih (hat ht hy) hx

theorem value_append {perfix w : Str} (hp : perfix ≠ []) (hw : w ≠ []) (t : NodeTree) :
    value t (perfix ++ w) = (find perfix t).bind fun x => value x.2.2 w := by
  induction perfix generalizing t with
  | nil => exact absurd rfl hp
  | cons c perfix ih =>
    rw [cons_append, value_cons c t (by simp [hw])]
    by_cases hnil : perfix = []
    · subst hnil
      rfl
    · rw [find_cons c perfix t hnil]
      cases findAt c t with
      | none => rfl
      | some x => exact ih hnil _

theorem mem_similar {perfix : Str} (hp : perfix ≠ []) {t : NodeTree} (ht : t.Ordered) {f : UInt32}
    {s : Str} : (f, s) ∈ similar perfix t ↔ perfix <+: s ∧ value t s = some f := by
  rw [similar]
  cases hfind : find perfix t with
  | none =>
    refine iff_of_false not_mem_nil ?_
    rintro ⟨⟨w, rfl⟩, hvalue⟩
    by_cases hw : w = []
    · subst hw
      rw [append_nil, value, hfind] at hvalue
      exact absurd hvalue nofun
    · rw [value_append hp hw, hfind] at hvalue
      exact absurd hvalue nofun
  | some x =>
    obtain ⟨type, f', mid⟩ := x
    have hmid : mid.Ordered := ordered_of_find ht hfind
    have hself : value t perfix = if type = .completed then some f' else none := by
      rw [value, hfind]
      rfl
    simp only [mem_append, mem_words hmid]
    constructor
    · rintro (h | ⟨c, w, rfl, h⟩)
      · split_ifs at h with htype
        · obtain ⟨rfl, rfl⟩ := Prod.mk.inj (mem_singleton.mp h)
          exact ⟨prefix_rfl, by rw [hself, if_pos htype]⟩
        · exact absurd h not_mem_nil
      · refine ⟨prefix_append _ _, ?_⟩
        rw [value_append hp (cons_ne_nil _ _), hfind]
        exact h
    · rintro ⟨⟨w, rfl⟩, hvalue⟩
      cases w with
      | nil =>
        rw [append_nil, hself] at hvalue
        split_ifs at hvalue with htype
        obtain rfl := Option.some.inj hvalue
        exact .inl (by simp [htype])
      | cons c w =>
        rw [value_append hp (cons_ne_nil _ _), hfind] at hvalue
        exact .inr ⟨c, w, rfl, hvalue⟩

theorem nodup_similar (perfix : Str) {t : NodeTree} (ht : t.Ordered) :
    ((similar perfix t).map (·.2)).Nodup := by
  rw [similar]
  cases hfind : find perfix t with
  | none => exact nodup_nil
  | some x =>
    obtain ⟨type, f, mid⟩ := x
    have hmid : mid.Ordered := ordered_of_find ht hfind
    simp only [map_append, nodup_append']
    refine ⟨?_, nodup_words hmid perfix, fun s hs hs' => ?_⟩
    · split_ifs
      · exact nodup_singleton _
      · exact nodup_nil
    · obtain ⟨c, w, rfl, -⟩ := exists_of_mem_words hmid hs'
      split_ifs at hs
      · simp at hs
      · exact absurd hs not_mem_nil

end NodeTree

/-! ## The tree of a sequence of insertions -/

section Inserts

variable (inserts : List (Str × UInt32))

theorem value_tree {word : Str} (hword : word ≠ []) :
    (tree inserts).value word = frequency inserts word := by
  have h (t : NodeTree) (f : Option UInt32) (heq : t.value word = f) :
      (inserts.foldl (fun t (w, freq) => t.insert freq w) t).value word =
        inserts.foldl (fun f (w, freq) => if w = word then some freq else f) f := by
    induction inserts generalizing t f with
    | nil => exact heq
    | cons x inserts ih =>
      obtain ⟨w, freq⟩ := x
      refine ih _ _ ?_
      by_cases hw : w = []
      · subst hw
        exact heq.trans (if_neg hword.symm).symm
      · dsimp only
        rw [NodeTree.value_insert freq hw, heq]
        exact if_congr eq_comm rfl rfl
  exact h .null none (NodeTree.value_null word)

theorem ordered_tree : (tree inserts).Ordered := by
  have h (t : NodeTree) (ht : t.Ordered) :
      (inserts.foldl (fun t (w, freq) => t.insert freq w) t).Ordered := by
    induction inserts generalizing t with
    | nil => exact ht
    | cons x inserts ih => exact ih _ (NodeTree.ordered_insert x.2 x.1 ht)
  exact h .null trivial

theorem frequency_isSome {word : Str} :
    (frequency inserts word).isSome ↔ word ∈ inserts.map (·.1) := by
  have h (f : Option UInt32) :
      (inserts.foldl (fun f (w, freq) => if w = word then some freq else f) f).isSome ↔
        f.isSome ∨ word ∈ inserts.map (·.1) := by
    induction inserts generalizing f with
    | nil => simp
    | cons x inserts ih =>
      obtain ⟨w, freq⟩ := x
      rw [foldl_cons, ih]
      dsimp only
      split_ifs with hw
      · simp [hw]
      · simp [Ne.symm hw]
  rw [frequency, h]
  simp

theorem mem_matching {perfix word : Str} : word ∈ matching inserts perfix ↔
    perfix <+: word ∧ ∃ f, frequency inserts word = some f := by
  rw [matching, mem_filter, mem_dedup, ← frequency_isSome, Option.isSome_iff_exists,
    decide_eq_true_iff, and_comm]

variable {inserts} in
/-- The pairs that go into the queue are the words that start with the text, with their frequencies.
-/
theorem mem_similar_tree {perfix : Str} (hp : perfix ≠ []) {x : Pair} :
    x ∈ (tree inserts).similar perfix ↔ x.2 ∈ matching inserts perfix ∧
      frequency inserts x.2 = some x.1 := by
  rw [NodeTree.mem_similar hp (ordered_tree inserts), mem_matching]
  constructor
  · rintro ⟨hpre, hvalue⟩
    have hne : x.2 ≠ [] := fun hnil => hp (prefix_nil.mp (hnil ▸ hpre))
    rw [value_tree inserts hne] at hvalue
    exact ⟨⟨hpre, _, hvalue⟩, hvalue⟩
  · rintro ⟨⟨hpre, -⟩, hvalue⟩
    have hne : x.2 ≠ [] := fun hnil => hp (prefix_nil.mp (hnil ▸ hpre))
    exact ⟨hpre, (value_tree inserts hne).trans hvalue⟩

theorem length_similar_tree {perfix : Str} (hp : perfix ≠ []) :
    ((tree inserts).similar perfix).length = (matching inserts perfix).length := by
  have hperm : (((tree inserts).similar perfix).map (·.2)).Perm (matching inserts perfix) := by
    refine (perm_ext_iff_of_nodup (NodeTree.nodup_similar perfix (ordered_tree inserts))
      ((nodup_dedup _).filter _)).mpr fun word => ?_
    rw [mem_map]
    constructor
    · rintro ⟨x, hx, rfl⟩
      exact ((mem_similar_tree hp).mp hx).1
    · intro hword
      obtain ⟨-, f, hf⟩ := (mem_matching inserts).mp hword
      exact ⟨(f, word), (mem_similar_tree hp).mpr ⟨hword, hf⟩, rfl⟩
  rw [← hperm.length_eq, length_map]

end Inserts

theorem PriorityQueue.coe_toList (q : PriorityQueue) :
    (q.toList : Multiset Pair) = q.contents := rfl

/-- The elements are the words in the queue, by frequency. -/
theorem PriorityQueue.getElements_eq {sort : List Pair → List Pair}
    (hsort : ∀ l, (sort l).Perm l ∧ (sort l).Pairwise fun x y => ¬x.1 < y.1) (q : PriorityQueue) :
    ∃ listed : List Pair, q.getElements sort = listed.map (·.2) ∧ listed.Perm q.toList ∧
      listed.Pairwise fun x y => y.1 ≤ x.1 := by
  rw [getElements]
  split_ifs with hzero hone
  · refine ⟨[], rfl, ?_, List.Pairwise.nil⟩
    rw [toList, hzero]
    rfl
  · refine ⟨[q.pairs 0], rfl, ?_, pairwise_singleton _ _⟩
    rw [toList, hone]
    rfl
  · obtain ⟨hperm, hpair⟩ := hsort q.toList
    exact ⟨_, rfl, hperm, hpair.imp fun h => UInt32.not_lt.mp h⟩

/-- `FindSimliar` leaves the most frequent of the distinct words that start with a text in the
queue, as many as there are or fit, and `GetElements` lists them by frequency. -/
theorem findSimliar_keeps (inserts : List (Str × UInt32)) (perfix : Str)
    (hp : perfix ≠ []) (k : Nat)
    (hk : 1 ≤ k) (sort : List Pair → List Pair)
    (hsort : ∀ l, (sort l).Perm l ∧ (sort l).Pairwise fun x y => ¬x.1 < y.1) :
    let q := (NodeTree.findSimliar perfix (tree inserts) (.new k)).2
    q.toList.length = min k (matching inserts perfix).length ∧
    (q.toList.map (·.2)).Nodup ∧
    (∀ x ∈ q.toList, x.2 ∈ matching inserts perfix ∧ frequency inserts x.2 = some x.1) ∧
    (∀ word ∈ matching inserts perfix, word ∉ q.toList.map (·.2) →
      ∀ f, frequency inserts word = some f → ∀ x ∈ q.toList, f ≤ x.1) ∧
    ∃ listed : List Pair, q.getElements sort = listed.map (·.2) ∧ listed.Perm q.toList ∧
      listed.Pairwise fun x y => y.1 ≤ x.1 := by
  intro q
  have hnew : Queue.Keeps (fun x : Pair => x.1.toNat) (PriorityQueue.new k) 0 :=
    ⟨⟨fun i _ hi => absurd hi (Nat.not_lt_zero i), Nat.zero_le k⟩, 0, rfl, fun h => absurd rfl h,
      nofun⟩
  obtain ⟨hkeeps, hcount⟩ := hnew.foldl hk ((tree inserts).similar perfix)
  have hq : q = ((tree inserts).similar perfix).foldl PriorityQueue.enQueue (.new k) :=
    NodeTree.findSimliar_eq ..
  change Queue.Keeps _ (((tree inserts).similar perfix).foldl PriorityQueue.enQueue _) _ at hkeeps
  change (((tree inserts).similar perfix).foldl PriorityQueue.enQueue _).count = k at hcount
  rw [← hq] at hkeeps hcount
  have hcard := hkeeps.card
  obtain ⟨rest, hall, -, hle⟩ := hkeeps.rest
  rw [hcount, add_zero, Multiset.coe_card, length_similar_tree inserts hp, ← q.coe_toList,
    Multiset.coe_card] at hcard
  rw [add_zero, ← q.coe_toList] at hall
  rw [← q.coe_toList] at hle
  have hmem {x : Pair} (hx : x ∈ q.toList) : x ∈ (tree inserts).similar perfix := by
    rw [← Multiset.mem_coe, hall]
    exact Multiset.mem_add.mpr (.inl hx)
  refine ⟨hcard, ?_, fun x hx => (mem_similar_tree hp).mp (hmem hx),
    fun word hword hnot f hf x hx => ?_,
    q.getElements_eq hsort⟩
  · have hnodup := NodeTree.nodup_similar perfix (ordered_tree inserts)
    rw [← Multiset.coe_nodup, ← Multiset.map_coe, hall, Multiset.map_add] at hnodup
    rw [← Multiset.coe_nodup, ← Multiset.map_coe]
    exact Multiset.nodup_of_le (Multiset.le_add_right _ _) hnodup
  · have hsimilar : (f, word) ∈ (tree inserts).similar perfix :=
      (mem_similar_tree hp).mpr ⟨hword, hf⟩
    rw [← Multiset.mem_coe, hall, Multiset.mem_add] at hsimilar
    have hrest := hsimilar.resolve_left fun h => hnot (mem_map.mpr ⟨_, h, rfl⟩)
    exact UInt32.le_iff_toNat_le.mpr (hle _ hrest x hx)

/-- Three words, of which two start alike, in a queue of one. -/
theorem findSimliar_keeps_two :
    let q := (NodeTree.findSimliar [97] (tree [([97, 98], 3), ([98], 9), ([97], 5)]) (.new 1)).2
    ∃ listed : List Pair, q.toList.length = 1 ∧
      q.getElements (·.mergeSort fun x y => !(x.1 < y.1 : Bool)) = listed.map (·.2) := by
  obtain ⟨hlength, -, -, -, listed, hlisted, -⟩ := findSimliar_keeps
    [([97, 98], 3), ([98], 9), ([97], 5)] [97] (by decide) 1 le_rfl
    (·.mergeSort fun x y => !(x.1 < y.1 : Bool)) fun l => by
      refine ⟨mergeSort_perm l _, ?_⟩
      have hpair := @pairwise_mergeSort _ (fun x y : Pair => !(x.1 < y.1 : Bool))
        (fun x y z hxy hyz => by
          simp only [Bool.not_eq_true', decide_eq_false_iff_not, UInt32.not_lt] at *
          exact UInt32.le_trans hyz hxy)
        (fun x y => by
          simp only [Bool.or_eq_true, Bool.not_eq_true', decide_eq_false_iff_not, UInt32.not_lt]
          exact UInt32.le_total _ _) l
      exact hpair.imp fun h => by simpa using h
  exact ⟨listed, hlength, hlisted⟩

end ISearch.Suggest

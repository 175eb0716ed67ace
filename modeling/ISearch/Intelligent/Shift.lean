import ISearch.Intelligent.Defs
import Mathlib.Data.List.GetD
import Mathlib.Order.Nat
import Mathlib.Tactic.Set

/-!
# Phrases at a later position

A query is looked up at every position of the stored phrases: its `IntelligentInfo` is shifted. The
ids of characters and syllables are moved as they stand. The initials are moved to the front
first, so that a query with an initial behind a character or a syllable does not keep its shape.
-/

namespace ISearch.Intelligent

open List

/-- The contents from position `i` on into the info, and whether all are known: `ConvertIntelligent`
of the query side. -/
def convertContents (d : Dictionary) : Nat → List Content → IntelligentInfo → IntelligentInfo × Bool
  | _, [], info => (info, true)
  | i, content :: result, info =>
    if 7 < i then (info, true)
    else
      match content.type with
      | .chinese =>
        let info := info.setCharact i (d.getCharactId content.str)
        if d.getCharactId content.str = 0 then (info, false)
        else convertContents d (i + 1) result info
      | .wholeSpell =>
        let info := info.setPhonetic i (d.getPhoneticId content.str)
        if d.getPhoneticId content.str = 0 then (info, false)
        else convertContents d (i + 1) result info
      | .initial => convertContents d (i + 1) result (info.setInitial i content.str)

/-- The loop of `GetInitialVec` that moves the first `i` initials. -/
def moveInitials (len : Nat) : Nat → (Nat → Bytes) → Option (Nat → Bytes)
  | 0, initials => some initials
  | i + 1, initials =>
    if 8 ≤ i + len then none
    else moveInitials len i (Function.update initials (i + len) (initials i))

/-- The initials that are there, as `GetInitialVec` counts them. -/
def presentInitials (info : IntelligentInfo) : List Bytes :=
  ((List.range 8).map info.initialChar).filter fun str => str ≠ []

def getInitialVec (info : IntelligentInfo) (len : Nat) : Int × IntelligentInfo :=
  let count := (presentInitials info).length
  if count = 0 ∨ count = 8 then (-1, info)
  else
    match moveInitials len count fun i => (presentInitials info).getD i [] with
    | none => (-1, info)
    | some initials =>
      (0, { info with initialChar := fun i =>
        if i < 8 then (if i < len then [] else initials i) else info.initialChar i })

/-- A `memmove` by `len` in an array of 8, and zeros below. -/
def shiftIds (p : Nat → UInt16) (len : Nat) : Nat → UInt16 := fun i =>
  if i < len then 0 else if i < 8 then p (i - len) else p i

def shiftIntelligentInfo (info : IntelligentInfo) (len : Nat) : Int × IntelligentInfo :=
  if 8 ≤ len then (-1, info)
  else if len < 1 then (-2, info)
  else (0, (getInitialVec { info with
    charactId := shiftIds info.charactId len
    phoneticId := shiftIds info.phoneticId len } len).2)

/-- Every position is moved by `len`, and those below are empty. -/
structure Shifted (info info' : IntelligentInfo) (len : Nat) : Prop where
  charact : ∀ i, i + len < 8 → info'.charactId (i + len) = info.charactId i
  phonetic : ∀ i, i + len < 8 → info'.phoneticId (i + len) = info.phoneticId i
  initial : ∀ i, i + len < 8 → info'.initialChar (i + len) = info.initialChar i
  below : ∀ i < len, info'.charactId i = 0 ∧ info'.phoneticId i = 0 ∧ info'.initialChar i = []

def Content.IsInitial (content : Content) : Prop := content.type = .initial ∧ content.str ≠ []

instance (content : Content) : Decidable content.IsInitial := inferInstanceAs (Decidable (_ ∧ _))

/-- No initial comes behind a character or a syllable. -/
def InitialsFirst (result : List Content) : Prop :=
  result.Pairwise fun a b => b.IsInitial → a.IsInitial

instance (result : List Content) : Decidable (InitialsFirst result) :=
  inferInstanceAs (Decidable (List.Pairwise _ _))

variable {d : Dictionary} {result : List Content} {info : IntelligentInfo} {len p : Nat}

/-- What a content stores as its initial. -/
def Content.initial (content : Content) : Bytes :=
  if content.type = .initial then content.str else []

theorem Content.initial_ne_nil {content : Content} :
    content.initial ≠ [] ↔ content.IsInitial := by
  rw [initial, IsInitial]
  split <;> simp [*]

/-- The query side stores the initials at the positions of the contents. -/
theorem convertContents_initialChar (h : (convertContents d p result info).2 = true)
    (hlen : p + result.length ≤ 8) (hempty : ∀ i, p ≤ i → info.initialChar i = []) (i : Nat) :
    (convertContents d p result info).1.initialChar i =
      if i < p then info.initialChar i else (result.map Content.initial).getD (i - p) [] := by
  induction result generalizing p info with
  | nil =>
    split
    · rfl
    · exact hempty i (by omega)
  | cons content result ih =>
    rw [length_cons] at hlen
    have hp : ¬7 < p := by omega
    have hnext (info' : IntelligentInfo)
        (heq : convertContents d p (content :: result) info =
          convertContents d (p + 1) result info')
        (hkeep : ∀ i, i ≠ p → info'.initialChar i = info.initialChar i)
        (hself : info'.initialChar p = content.initial) :
        (convertContents d p (content :: result) info).1.initialChar i =
          if i < p then info.initialChar i
          else ((content :: result).map Content.initial).getD (i - p) [] := by
      rw [heq] at h ⊢
      rw [ih h (by omega) fun i hi => (hkeep i (by omega)).trans (hempty i (by omega))]
      obtain hlt | rfl | hgt := lt_trichotomy i p
      · rw [if_pos (by omega), if_pos hlt, hkeep i hlt.ne]
      · rw [if_pos (by omega), if_neg (lt_irrefl i), hself, Nat.sub_self]
        rfl
      · rw [if_neg (by omega), if_neg (by omega), show i - p = i - (p + 1) + 1 by omega]
        rfl
    cases htype : content.type with
    | chinese =>
      by_cases hid : d.getCharactId content.str = 0
      · simp [convertContents, hp, htype, hid] at h
      · refine hnext (info.setCharact p (d.getCharactId content.str))
          (by simp [convertContents, hp, htype, hid]) (fun i _ => rfl) ?_
        rw [Content.initial, if_neg (by simp [htype])]
        exact hempty p le_rfl
    | wholeSpell =>
      by_cases hid : d.getPhoneticId content.str = 0
      · simp [convertContents, hp, htype, hid] at h
      · refine hnext (info.setPhonetic p (d.getPhoneticId content.str))
          (by simp [convertContents, hp, htype, hid]) (fun i _ => rfl) ?_
        rw [Content.initial, if_neg (by simp [htype])]
        exact hempty p le_rfl
    | initial =>
      refine hnext (info.setInitial p content.str) (by simp [convertContents, hp, htype])
        (fun i hi => Function.update_of_ne hi _ _) ?_
      rw [Content.initial, if_pos htype]
      exact Function.update_self _ _ _

/-! ## The move -/

theorem moveInitials_eq {count : Nat} (hpos : 0 < len) (hfit : count + len ≤ 8)
    (initials : Nat → Bytes) :
    moveInitials len count initials = some fun q =>
      if len ≤ q ∧ q < len + count then initials (q - len) else initials q := by
  induction count generalizing initials with
  | zero =>
    rw [moveInitials]
    congr 1
    funext q
    rw [if_neg (by omega)]
  | succ count ih =>
    rw [moveInitials, if_neg (by omega), ih (by omega)]
    congr 1
    funext q
    by_cases hq : q = count + len
    · subst hq
      rw [if_neg (by omega), if_pos (by omega), Function.update_self, Nat.add_sub_cancel]
    · by_cases hin : len ≤ q ∧ q < len + count
      · rw [if_pos hin, if_pos (by omega), Function.update_of_ne (by omega)]
      · rw [if_neg hin, if_neg (by omega), Function.update_of_ne hq]

theorem getInitialVec_ids : (getInitialVec info len).2.charactId = info.charactId ∧
    (getInitialVec info len).2.phoneticId = info.phoneticId := by
  rw [getInitialVec]
  split
  · exact ⟨rfl, rfl⟩
  · split <;> exact ⟨rfl, rfl⟩

theorem shiftIds_add {ids : Nat → UInt16} {i : Nat} (h : i + len < 8) :
    shiftIds ids len (i + len) = ids i := by
  rw [shiftIds, if_neg (by omega), if_pos h, Nat.add_sub_cancel]

/-- Where there is room, the initials are put behind each other from position `len` on. -/
theorem getInitialVec_initialChar (hpos : 0 < len)
    (hfit : (presentInitials info).length + len ≤ 8) {i : Nat} (hi : i < 8) :
    (getInitialVec info len).2.initialChar i =
      if i < len then (if presentInitials info = [] then info.initialChar i else [])
      else if presentInitials info = [] then info.initialChar i
      else (presentInitials info).getD (i - len) [] := by
  rw [getInitialVec]
  by_cases hnil : presentInitials info = []
  · simp [hnil]
  · have hcount : ¬((presentInitials info).length = 0 ∨ (presentInitials info).length = 8) := by
      have := length_pos_iff.mpr hnil
      omega
    simp only [if_neg hcount, moveInitials_eq hpos hfit, if_pos hi, if_neg hnil]
    split
    · rfl
    · split
      · rfl
      · rw [getD_eq_default _ _ (by omega), getD_eq_default _ _ (by omega)]

theorem getD_eq_nil {xs : List Bytes} (h : ∀ x ∈ xs, x = []) (i : Nat) : xs.getD i [] = [] := by
  rw [getD_eq_getElem?_getD]
  cases hx : xs[i]? with
  | none => rfl
  | some x => exact h x (mem_of_getElem? hx)

/-- Moving what is there to the front changes nothing where it is in front. -/
theorem getD_filter_iff (xs : List Bytes) :
    (∀ i, (xs.filter fun str => str ≠ []).getD i [] = xs.getD i []) ↔
      xs.Pairwise fun a b => b ≠ [] → a ≠ [] := by
  induction xs with
  | nil => exact ⟨fun _ => .nil, fun _ _ => rfl⟩
  | cons x xs ih =>
    rw [pairwise_cons]
    by_cases hx : x = []
    · subst hx
      rw [filter_cons_of_neg (by simp)]
      constructor
      · intro h
        have hnil : (xs.filter fun str => str ≠ []) = [] := by
          cases hfilter : xs.filter fun str => str ≠ [] with
          | nil => rfl
          | cons y ys =>
            have hy : y ∈ xs.filter fun str => str ≠ [] := hfilter ▸ mem_cons_self
            have hzero := h 0
            rw [hfilter] at hzero
            exact absurd hzero (by simpa using (mem_filter.mp hy).2)
        have hall : ∀ b ∈ xs, ¬b ≠ [] := by simpa using filter_eq_nil_iff.mp hnil
        exact ⟨fun b hb hne => absurd hne (hall b hb),
          pairwise_of_forall_mem_list fun a _ b hb hne => absurd hne (hall b hb)⟩
      · rintro ⟨hall, -⟩ i
        have hxs : ∀ b ∈ xs, b = [] := fun b hb => not_not.mp fun hne => hall b hb hne rfl
        rw [getD_eq_nil fun b hb => hxs b (mem_filter.mp hb).1,
          getD_eq_nil (forall_mem_cons.mpr ⟨rfl, hxs⟩)]
    · rw [filter_cons_of_pos (by simpa using hx), ← ih]
      constructor
      · exact fun h => ⟨fun _ _ _ => hx, fun i => h (i + 1)⟩
      · rintro ⟨-, h⟩ (_ | i)
        · rfl
        · exact h i

/-! ## The shift -/

/-- The query as `GetSuggestDoc` shifts it. -/
def query (d : Dictionary) (result : List Content) : IntelligentInfo :=
  (convertContents d 0 result {}).1

theorem query_initialChar (h : (convertContents d 0 result {}).2 = true)
    (hlen : result.length ≤ 8) :
    (query d result).initialChar = fun i => (result.map Content.initial).getD i [] := by
  funext i
  have := convertContents_initialChar h (by rwa [Nat.zero_add]) (fun i _ => rfl) i
  rwa [if_neg i.not_lt_zero] at this

theorem presentInitials_eq (hlen : result.length ≤ 8)
    (hinitial : info.initialChar = fun i => (result.map Content.initial).getD i []) :
    presentInitials info = (result.map Content.initial).filter fun str => str ≠ [] := by
  obtain ⟨k, hk⟩ := Nat.exists_eq_add_of_le hlen
  have hrange : (List.range 8).map info.initialChar =
      result.map Content.initial ++ replicate k [] := by
    refine ext_getElem (by simp [← hk]) fun i h₁ h₂ => ?_
    rw [getElem_map, getElem_range, getElem_append, congrFun hinitial i]
    split
    · exact getD_eq_getElem _ _ _
    · rw [getElem_replicate]
      exact getD_eq_default _ _ (by omega)
  have hnone : (replicate k ([] : Bytes)).filter (fun str => str ≠ []) = [] :=
    filter_eq_nil_iff.mpr fun str hstr => by simp [eq_of_mem_replicate hstr]
  rw [presentInitials, hrange, filter_append, hnone, append_nil]

/-- The shifted query has the initials that are there behind each other. -/
theorem shiftIntelligentInfo_initialChar (hpos : 1 ≤ len) (hlt : len < 8)
    (hlen : result.length + len ≤ 8)
    (hinitial : info.initialChar = fun i => (result.map Content.initial).getD i []) {i : Nat}
    (hi : i < 8) :
    (shiftIntelligentInfo info len).2.initialChar i =
      if i < len then []
      else ((result.map Content.initial).filter fun str => str ≠ []).getD (i - len) [] := by
  set xs := result.map Content.initial with hxs
  set moved : IntelligentInfo := { info with
    charactId := shiftIds info.charactId len
    phoneticId := shiftIds info.phoneticId len } with hmoved
  have hpresent : presentInitials moved = xs.filter fun str => str ≠ [] :=
    presentInitials_eq (by omega) hinitial
  have hle : (presentInitials moved).length ≤ result.length := by
    rw [hpresent, ← length_map (f := Content.initial)]
    exact length_filter_le _ _
  rw [shiftIntelligentInfo, if_neg (by omega), if_neg (by omega)]
  change (getInitialVec moved len).2.initialChar i = _
  rw [getInitialVec_initialChar hpos (by omega) hi, ← hpresent]
  by_cases hnil : presentInitials moved = []
  · have hall : ∀ x ∈ xs, x = [] := by
      rw [hnil] at hpresent
      simpa using filter_eq_nil_iff.mp hpresent.symm
    have hzero : moved.initialChar i = [] := (congrFun hinitial i).trans (getD_eq_nil hall i)
    simp [hnil, hzero]
  · simp only [if_neg hnil]

/-- A query keeps its shape at a later position where its initials are in front. -/
theorem shifted_iff (h : (convertContents d 0 result {}).2 = true) (hpos : 1 ≤ len)
    (hlen : result.length + len ≤ 8) :
    Shifted (query d result) (shiftIntelligentInfo (query d result) len).2 len ↔
      InitialsFirst result := by
  have hinitial := query_initialChar h (by omega)
  have hfirst : InitialsFirst result ↔
      (result.map Content.initial).Pairwise fun a b => b ≠ [] → a ≠ [] := by
    rw [InitialsFirst, pairwise_map]
    simp only [Content.initial_ne_nil]
  obtain hlt | rfl : len < 8 ∨ len = 8 := by omega
  · have hnew := @shiftIntelligentInfo_initialChar result (query d result) len hpos hlt hlen
      hinitial
    have hids : (shiftIntelligentInfo (query d result) len).2.charactId =
        shiftIds (query d result).charactId len ∧
        (shiftIntelligentInfo (query d result) len).2.phoneticId =
        shiftIds (query d result).phoneticId len := by
      rw [shiftIntelligentInfo, if_neg (by omega), if_neg (by omega)]
      exact getInitialVec_ids
    rw [hfirst, ← getD_filter_iff]
    constructor
    · intro hshifted i
      by_cases hi : i + len < 8
      · have hi' := hshifted.initial i hi
        rwa [hnew hi, if_neg (by omega), Nat.add_sub_cancel, congrFun hinitial i] at hi'
      · have hfilter : ((result.map Content.initial).filter fun str => str ≠ []).length ≤
            result.length := by
          rw [← length_map (f := Content.initial)]
          exact length_filter_le _ _
        rw [getD_eq_default _ _ (by omega),
          getD_eq_default _ _ (by rw [length_map]; omega)]
    · intro hfront
      refine ⟨fun i hi => ?_, fun i hi => ?_, fun i hi => ?_, fun i hi => ⟨?_, ?_, ?_⟩⟩
      · rw [hids.1, shiftIds_add hi]
      · rw [hids.2, shiftIds_add hi]
      · rw [hnew hi, if_neg (by omega), Nat.add_sub_cancel, hfront i, congrFun hinitial i]
      · rw [hids.1, shiftIds, if_pos hi]
      · rw [hids.2, shiftIds, if_pos hi]
      · rw [hnew (by omega), if_pos hi]
  · -- nothing is moved, and there is nothing to move
    obtain rfl : result = [] := eq_nil_of_length_eq_zero (by omega)
    exact ⟨fun _ => .nil, fun _ => ⟨fun i hi => absurd hi (by omega),
      fun i hi => absurd hi (by omega), fun i hi => absurd hi (by omega),
      fun i _ => ⟨rfl, rfl, rfl⟩⟩⟩

/-- A dictionary that knows 重 and `zhong`. -/
def spellDictionary : Dictionary where
  charactMap charact := if charact = [0xe9, 0x87, 0x8d] then some 7 else none
  phoneticMap phonetic := if phonetic = [122, 104, 111, 110, 103] then some 2 else none
  charactPhoneticMap _ := []

theorem shifted_initial_character : Shifted
    (query spellDictionary [⟨.initial, [122]⟩, ⟨.chinese, [0xe9, 0x87, 0x8d]⟩])
    (shiftIntelligentInfo
      (query spellDictionary [⟨.initial, [122]⟩, ⟨.chinese, [0xe9, 0x87, 0x8d]⟩]) 2).2 2 :=
  (shifted_iff (by decide) (by decide) (by decide)).mpr (by decide)

/-- Behind a character the initial falls back by one position. -/
theorem not_shifted_character_initial :
    (convertContents spellDictionary 0
      [⟨.chinese, [0xe9, 0x87, 0x8d]⟩, ⟨.initial, [122]⟩] {}).2 = true ∧
    ¬Shifted (query spellDictionary [⟨.chinese, [0xe9, 0x87, 0x8d]⟩, ⟨.initial, [122]⟩])
      (shiftIntelligentInfo
        (query spellDictionary [⟨.chinese, [0xe9, 0x87, 0x8d]⟩, ⟨.initial, [122]⟩]) 2).2 2 :=
  ⟨by decide, fun h => absurd (h.initial 1 (by decide)) (by decide)⟩

end ISearch.Intelligent

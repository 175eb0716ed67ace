import Mathlib.Data.List.TakeWhile
import ISearch.Lib.SortedMap
import ISearch.Lib.WeakOrder
import ISearch.Pinyin.Split
import ISearch.Segmentation.Hmm

/-!
# The splits of a query text (`GetMultipleWords`)

A text is split in up to four ways, which an ordered set keeps. Its order compares two contents by
their texts, but never calls one of a greater type the smaller one.
-/

namespace ISearch.Pinyin

open Segmentation WeakOrder
open List hiding length length_append

def CHINESE : UInt32 := 1
def INITIAL : UInt32 := 2
def WHOLE_SPELL : UInt32 := 3

structure Content where
  type : UInt32
  str : Str
  deriving DecidableEq

/-- `operator<`. -/
def Content.lt (a b : Content) : Bool :=
  if b.type < a.type then false else decide (a.str < b.str)

/-- The order of vectors of contents. -/
def vecLt : List Content → List Content → Bool
  | _, [] => false
  | [], _ :: _ => true
  | a :: u, b :: v => if a.lt b then true else if b.lt a then false else vecLt u v

def ascii (s : String) : Str := s.toList.map Char.toUInt8

def initial_table : List Str :=
  ["b", "p", "m", "f", "d", "t", "n", "l", "g", "k", "h", "j", "q", "x", "zh", "ch", "sh", "r", "z",
    "c", "s", "y", "w"].map ascii

def small_syllable_items : List (String × String × String) :=
  [("ao", "a", "o"), ("bian", "bi", "an"), ("yue", "yu", "e"), ("biao", "bi", "ao"),
   ("cuan", "cu", "an"), ("dia", "di", "a"), ("dian", "di", "an"), ("diao", "di", "ao"),
   ("die", "di", "e"), ("duan", "du", "an"), ("gua", "gu", "a"), ("guai", "gu", "ai"),
   ("guan", "gu", "an"), ("hua", "hu", "a"), ("huai", "hu", "ai"), ("huan", "hu", "an"),
   ("huo", "hu", "o"), ("jia", "ji", "a"), ("jian", "ji", "an"), ("jiang", "ji", "ang"),
   ("jiao", "ji", "ao"), ("jie", "ji", "e"), ("jue", "ju", "e"), ("juan", "ju", "an"),
   ("kua", "ku", "a"), ("kuai", "ku", "ai"), ("kuo", "ku", "o"), ("lia", "li", "a"),
   ("lian", "li", "an"), ("liang", "li", "ang"), ("liao", "li", "ao"), ("lie", "li", "e"),
   ("luan", "lu", "an"), ("mian", "mi", "an"), ("miao", "mi", "ao"), ("mie", "mi", "e"),
   ("nao", "na", "o"), ("nian", "ni", "an"), ("niao", "ni", "ao"), ("nie", "ni", "e"),
   ("pian", "pi", "an"), ("piao", "pi", "ao"), ("pie", "pi", "e"), ("qia", "qi", "a"),
   ("qian", "qi", "an"), ("qiang", "qi", "ang"), ("qiao", "qi", "ao"), ("qie", "qi", "e"),
   ("quan", "qu", "an"), ("que", "qu", "e"), ("suan", "su", "an"), ("shuan", "shu", "an"),
   ("shuang", "shu", "ang"), ("shuo", "shu", "o"), ("tian", "ti", "an"), ("tie", "ti", "e"),
   ("tuan", "tu", "an"), ("tuo", "tu", "o"), ("xia", "xi", "a"), ("xian", "xi", "an"),
   ("xiao", "xi", "ao"), ("xiang", "xi", "ang"), ("xie", "xi", "e"), ("xuan", "xu", "an"),
   ("xue", "xu", "e"), ("yao", "ya", "o"), ("yuan", "yu", "an"), ("yue", "yu", "e"),
   ("zao", "za", "o"), ("zuan", "zu", "an"), ("zhao", "zha", "o"), ("zhua", "zhu", "a"),
   ("zhuan", "zhu", "an")]

/-- `IsSmallSyllable`; `strcmp` reads up to a zero byte. -/
def isSmallSyllable (str : Str) : Option (Str × Str) :=
  (small_syllable_items.find? fun item => ascii item.1 = str.takeWhile (· ≠ 0)).map fun item =>
    (ascii item.2.1, ascii item.2.2)

/-- The content of a piece of a run of letters. -/
def content (str : Str) : Content :=
  if str ∈ initial_table then ⟨INITIAL, str⟩
  else if str.length = 1 then ⟨INITIAL, str⟩
  else ⟨WHOLE_SPELL, str⟩

/-- A character of several bytes, or a run of characters of one byte. -/
inductive Item
  | chinese (c : Str)
  | letters (tmp : Str)

def itemsOf : List Str → List Item
  | [] => []
  | c :: cs =>
    if 1 < c.length then .chinese c :: itemsOf cs
    else .letters (c ++ (cs.takeWhile fun c => !decide (1 < c.length)).flatten) ::
      itemsOf (cs.dropWhile fun c => !decide (1 < c.length))
termination_by cs => cs.length
decreasing_by
  · exact Nat.lt_succ_self _
  · exact Nat.lt_succ_of_le (dropWhile_suffix _).length_le

def items (m_Data : Str) : List Item :=
  itemsOf ((List.range (length m_Data)).map (charAt m_Data))

/-- The contents of a text whose runs of letters are cut by `pieces`. -/
def contents (pieces : Str → List Str) (items : List Item) : List Content :=
  items.flatMap fun
    | .chinese c => [⟨CHINESE, c⟩]
    | .letters tmp => (pieces tmp).map content

/-- A content cut where its text is a small syllable. -/
def cutSmall (c : Content) : List Content :=
  if c.type = WHOLE_SPELL then
    match isSmallSyllable c.str with
    | some (syllable1, syllable2) => [⟨WHOLE_SPELL, syllable1⟩, ⟨WHOLE_SPELL, syllable2⟩]
    | none => [c]
  else [c]

def splitPieces (type : Int) (tmp : Str) : List Str := splitEx 32 (splitFunc tmp type)

variable (isPhonetic : Str → Bool) (m_Data : Str)

/-- The vectors in the order of their insertion. -/
def splits : List (List Content) :=
  let result := contents (splitPieces 1) (items m_Data)
  if (items m_Data).all fun | .chinese _ => true | .letters _ => false then [result]
  else [result, result.flatMap cutSmall, contents (splitPieces 2) (items m_Data),
    contents (fmm isPhonetic) (items m_Data)]

def getMultipleWords : List (List Content) := setOf vecLt (splits isPhonetic m_Data)

/-- The order is one on the splits of the text, and each of them is kept exactly once. -/
structure Usable : Prop where
  order : StrictWeakOn (fun u v => vecLt u v) {u | u ∈ splits isPhonetic m_Data}
  kept : ∀ u ∈ splits isPhonetic m_Data, (getMultipleWords isPhonetic m_Data).count u = 1

/-- The pieces of a run with its small syllables cut. -/
def smallPieces (tmp : Str) : List Str :=
  (splitPieces 1 tmp).flatMap fun str => (cutSmall (content str)).map (·.str)

/-- A small syllable with a part of one letter is cut. -/
def CutsLetter : Prop :=
  ∃ tmp, .letters tmp ∈ items m_Data ∧ ∃ str ∈ splitPieces 1 tmp, ∃ c ∈ cutSmall (content str),
    c.type = WHOLE_SPELL ∧ c.str.length = 1

/-- The runs are cut by `pieces` as by the small syllables. -/
def CutAlike (pieces : Str → List Str) : Prop :=
  ∀ tmp, .letters tmp ∈ items m_Data → pieces tmp = smallPieces tmp

/-! ## The order of contents -/

theorem lt_iff {a b : Content} : a.lt b ↔ a.type ≤ b.type ∧ a.str < b.str := by
  rw [Content.lt]
  split_ifs with h
  · simpa using fun hle => absurd h (UInt32.not_lt.mpr hle)
  · simpa using fun _ => UInt32.not_lt.mp h

theorem not_lt_iff {a b : Content} : ¬a.lt b ↔ (a.type ≤ b.type → b.str ≤ a.str) := by
  rw [lt_iff, not_and, not_lt]

/-- The contents on which the order is a strict weak one: behind two that it tells apart, no text is
of a smaller type than theirs, and in front of them none is of a greater type. -/
theorem strictWeakOn_iff (S : Set Content) :
    StrictWeakOn (fun a b => a.lt b) S ↔
      ∀ a ∈ S, ∀ c ∈ S, a.type ≤ c.type → a.str < c.str → ∀ b ∈ S,
        (b.str ≤ a.str → b.type ≤ c.type) ∧ (c.str ≤ b.str → a.type ≤ b.type) := by
  constructor
  · intro h a ha c hc htype hstr b hb
    have hac : a.lt c := lt_iff.mpr ⟨htype, hstr⟩
    constructor
    · intro hba
      by_contra hcb
      have hcb := UInt32.not_le.mp hcb
      have hab : Incomp (fun a b : Content => a.lt b) a b :=
        ⟨not_lt_iff.mpr fun _ => hba, not_lt_iff.mpr fun hle =>
          absurd (UInt32.lt_of_lt_of_le hcb (UInt32.le_trans hle htype)) (UInt32.lt_irrefl _)⟩
      have hbc : Incomp (fun a b : Content => a.lt b) b c :=
        ⟨not_lt_iff.mpr fun hle => absurd (UInt32.lt_of_lt_of_le hcb hle) (UInt32.lt_irrefl _),
          not_lt_iff.mpr fun _ => (hba.trans_lt hstr).le⟩
      exact (h.incomp_trans a ha b hb c hc hab hbc).1 hac
    · intro hcb
      by_contra hba
      have hba := UInt32.not_le.mp hba
      have hab : Incomp (fun a b : Content => a.lt b) a b :=
        ⟨not_lt_iff.mpr fun hle => absurd (UInt32.lt_of_lt_of_le hba hle) (UInt32.lt_irrefl _),
          not_lt_iff.mpr fun _ => (hstr.trans_le hcb).le⟩
      have hbc : Incomp (fun a b : Content => a.lt b) b c :=
        ⟨not_lt_iff.mpr fun _ => hcb, not_lt_iff.mpr fun hle =>
          absurd (UInt32.lt_of_lt_of_le hba (UInt32.le_trans htype hle)) (UInt32.lt_irrefl _)⟩
      exact (h.incomp_trans a ha b hb c hc hab hbc).1 hac
  · intro h
    have hmid {a b c : Content} (ha : a ∈ S) (hb : b ∈ S) (hc : c ∈ S)
        (hab : Incomp (fun a b : Content => a.lt b) a b)
        (hbc : Incomp (fun a b : Content => a.lt b) b c) : ¬a.lt c := fun hac => by
      obtain ⟨htype, hstr⟩ := lt_iff.mp hac
      obtain ⟨hfront, hbehind⟩ := h a ha c hc htype hstr b hb
      rcases le_or_gt b.str a.str with hba | hba
      · exact hbc.1 (lt_iff.mpr ⟨hfront hba, hba.trans_lt hstr⟩)
      · have hlt : b.type < a.type := UInt32.not_le.mp fun hle => hab.1 (lt_iff.mpr ⟨hle, hba⟩)
        rcases le_or_gt c.str b.str with hcb | hcb
        · exact absurd (UInt32.lt_of_lt_of_le hlt (hbehind hcb)) (UInt32.lt_irrefl _)
        · exact hbc.1 (lt_iff.mpr ⟨UInt32.le_trans (UInt32.le_of_lt hlt) htype, hcb⟩)
    refine ⟨fun a _ haa => ?_, fun a _ b _ hab hba => ?_, fun a _ b _ c _ hab hbc => ?_,
      fun a ha b hb c hc hab hbc => ⟨hmid ha hb hc hab hbc, ?_⟩⟩
    · exact lt_irrefl _ (lt_iff.mp haa).2
    · exact lt_asymm (lt_iff.mp hab).2 (lt_iff.mp hba).2
    · obtain ⟨htype, hstr⟩ := lt_iff.mp hab
      obtain ⟨htype', hstr'⟩ := lt_iff.mp hbc
      exact lt_iff.mpr ⟨UInt32.le_trans htype htype', hstr.trans hstr'⟩
    · exact hmid hc hb ha ⟨hbc.2, hbc.1⟩ ⟨hab.2, hab.1⟩

/-- Two vectors whose texts are equal up to the first that one of the orders tells apart, with
contents of equal texts in relation `R`. -/
inductive Aligned (R : Content → Content → Prop) : List Content → List Content → Prop
  | nil : Aligned R [] []
  | same {a b u v} (hstr : a.str = b.str) (hR : R a b) : Aligned R u v → Aligned R (a :: u) (b :: v)
  | lt {a b u v} (hstr : a.str < b.str) (htype : a.type ≤ b.type) : Aligned R (a :: u) (b :: v)
  | gt {a b u v} (hstr : b.str < a.str) (htype : b.type ≤ a.type) : Aligned R (a :: u) (b :: v)

variable {R : Content → Content → Prop} {u v : List Content}

/-- The texts of a split. -/
def texts (u : List Content) : List Str := u.map (·.str)

theorem Aligned.vecLt_iff (h : Aligned R u v) : vecLt u v ↔ texts u < texts v := by
  induction h with
  | nil => simp [vecLt, texts]
  | same hstr _ _ ih =>
    rw [vecLt, if_neg fun hlt => lt_irrefl _ (hstr ▸ (lt_iff.mp hlt).2),
      if_neg fun hlt => lt_irrefl _ (hstr ▸ (lt_iff.mp hlt).2), ih]
    simp [texts, hstr]
  | lt hstr htype => simp [vecLt, lt_iff.mpr ⟨htype, hstr⟩, texts, cons_lt_cons_iff, hstr]
  | gt hstr htype =>
    rw [vecLt, if_neg fun hlt => lt_asymm hstr (lt_iff.mp hlt).2,
      if_pos (lt_iff.mpr ⟨htype, hstr⟩)]
    simp [texts, cons_lt_cons_iff, hstr.not_gt, hstr.ne']

theorem Aligned.forall₂ (h : Aligned R u v) (heq : texts u = texts v) : List.Forall₂ R u v := by
  induction h with
  | nil => exact .nil
  | same _ hR _ ih => exact .cons hR (ih (List.cons.inj heq).2)
  | lt hstr => exact absurd (List.cons.inj heq).1 hstr.ne
  | gt hstr => exact absurd (List.cons.inj heq).1 hstr.ne'

/-! ## Pieces of one run -/

/-- The types that the pieces of a run have. -/
def Kind (a : Content) : Prop :=
  a = content a.str ∨ a.type = WHOLE_SPELL ∧ a.str ∉ [ascii "z", ascii "c", ascii "s"]

theorem content_type_of_length {str : Str} (h : str.length = 1) : (content str).type = INITIAL := by
  rw [content]
  split_ifs
  · rfl
  · rfl

theorem content_type_le (str : Str) : (content str).type ≤ WHOLE_SPELL := by
  rw [content]
  split_ifs
  · exact (by decide : INITIAL ≤ WHOLE_SPELL)
  · exact (by decide : INITIAL ≤ WHOLE_SPELL)
  · exact UInt32.le_refl _

theorem content_str (str : Str) : (content str).str = str := by
  rw [content]
  split_ifs <;> rfl

theorem take_initial_table : ∀ str ∈ initial_table, ∀ n < str.length, n ≠ 0 →
    str.take n ∈ [ascii "z", ascii "c", ascii "s"] := by decide

theorem length_initials : ∀ str ∈ [ascii "z", ascii "c", ascii "s"], str.length = 1 := by decide

theorem Kind.type_le_whole {a : Content} (h : Kind a) : a.type ≤ WHOLE_SPELL := by
  obtain h | ⟨h, -⟩ := h
  · rw [h]
    exact content_type_le _
  · exact UInt32.le_of_eq h

/-- The start of a piece has no greater type. -/
theorem Kind.type_le {a b : Content} (ha : Kind a) (hb : Kind b) (hne : a.str ≠ [])
    (hpre : a.str <+: b.str) (hstr : a.str ≠ b.str) : a.type ≤ b.type := by
  have hlt : a.str.length < b.str.length :=
    hpre.length_le.lt_of_ne fun h => hstr (hpre.eq_of_length h)
  have hpos : 0 < a.str.length := length_pos_of_ne_nil hne
  obtain hb | ⟨hb, -⟩ := hb
  · rw [content] at hb
    split_ifs at hb with htable hone
    · -- only `zh`, `ch` and `sh` have two letters in the table
      have hinitial := take_initial_table _ htable _ hlt hpos.ne'
      rw [← prefix_iff_eq_take.mp hpre] at hinitial
      obtain ha | ⟨-, ha⟩ := ha
      · have htype : a.type = b.type := by
          rw [ha, hb, content_type_of_length (length_initials _ hinitial)]
        exact UInt32.le_of_eq htype
      · exact absurd hinitial ha
    · omega
    · rw [hb]
      exact ha.type_le_whole
  · rw [hb]
    exact ha.type_le_whole

/-- A run of letters and its pieces. -/
structure Cuts (f : Str → List Content) (tmp : Str) : Prop where
  flatten : (texts (f tmp)).flatten = tmp
  ne_nil : ∀ a ∈ f tmp, a.str ≠ []
  kind : ∀ a ∈ f tmp, Kind a

theorem lt_of_initial {p k : Str} (h : p <+: k) (hne : p ≠ k) : p < k :=
  lt_of_le_of_ne (not_lt.mp (not_lt_of_isPrefix h)) hne

/-- Pieces of one run in front of aligned vectors. -/
theorem Aligned.append {U V : List Content} (hflat : (texts U).flatten = (texts V).flatten)
    (hU : ∀ a ∈ U, a.str ≠ [] ∧ Kind a) (hV : ∀ b ∈ V, b.str ≠ [] ∧ Kind b)
    (hR : ∀ a ∈ U, ∀ b ∈ V, a.str = b.str → R a b) (h : Aligned R u v) :
    Aligned R (U ++ u) (V ++ v) := by
  induction U generalizing V with
  | nil =>
    cases V with
    | nil => exact h
    | cons b V =>
      have hb := (hV b mem_cons_self).1
      simp [texts] at hflat
      exact absurd hflat.1 hb
  | cons a U ih =>
    obtain ⟨⟨hane, ha⟩, hU⟩ := forall_mem_cons.mp hU
    cases V with
    | nil =>
      simp [texts] at hflat
      exact absurd hflat.1 hane
    | cons b V =>
      obtain ⟨⟨hbne, hb⟩, hV⟩ := forall_mem_cons.mp hV
      have hsplit : a.str ++ (texts U).flatten = b.str ++ (texts V).flatten := by
        simpa [texts] using hflat
      by_cases hstr : a.str = b.str
      · rw [hstr, append_cancel_left_eq] at hsplit
        exact .same hstr (hR a mem_cons_self b mem_cons_self hstr)
          (ih hsplit hU hV fun a ha b hb =>
            hR a (mem_cons_of_mem _ ha) b (mem_cons_of_mem _ hb))
      · -- the shorter text is the start of the longer one
        have hpre : a.str <+: b.str ∨ b.str <+: a.str :=
          prefix_or_prefix_of_prefix (prefix_append _ _)
            (hsplit.symm ▸ prefix_append b.str (texts V).flatten)
        obtain hpre | hpre := hpre
        · exact .lt (lt_of_initial hpre hstr) (ha.type_le hb hane hpre hstr)
        · exact .gt (lt_of_initial hpre (Ne.symm hstr))
            (hb.type_le ha hbne hpre (Ne.symm hstr))

def pass (f : Str → List Content) (items : List Item) : List Content :=
  items.flatMap fun
    | .chinese c => [⟨CHINESE, c⟩]
    | .letters tmp => f tmp

theorem contents_eq (pieces : Str → List Str) (items : List Item) :
    contents pieces items = pass (fun tmp => (pieces tmp).map content) items := rfl

theorem cutSmall_chinese (c : Str) : cutSmall ⟨CHINESE, c⟩ = [⟨CHINESE, c⟩] :=
  if_neg (show CHINESE ≠ WHOLE_SPELL by decide)

theorem flatMap_cutSmall (f : Str → List Content) (items : List Item) :
    (pass f items).flatMap cutSmall = pass (fun tmp => (f tmp).flatMap cutSmall) items := by
  rw [pass, pass, flatMap_assoc]
  refine flatMap_congr fun item _ => ?_
  cases item with
  | chinese c => exact (flatMap_singleton ..).trans (cutSmall_chinese c)
  | letters tmp => rfl

theorem Aligned.pass {f g : Str → List Content} {items : List Item}
    (hf : ∀ tmp, .letters tmp ∈ items → Cuts f tmp) (hg : ∀ tmp, .letters tmp ∈ items → Cuts g tmp)
    (hchinese : ∀ c, R ⟨CHINESE, c⟩ ⟨CHINESE, c⟩)
    (hR : ∀ tmp, .letters tmp ∈ items → ∀ a ∈ f tmp, ∀ b ∈ g tmp, a.str = b.str → R a b) :
    Aligned R (pass f items) (pass g items) := by
  induction items with
  | nil => exact .nil
  | cons item items ih =>
    have ih := ih (fun tmp h => hf tmp (mem_cons_of_mem _ h))
      (fun tmp h => hg tmp (mem_cons_of_mem _ h))
      (fun tmp h => hR tmp (mem_cons_of_mem _ h))
    cases item with
    | chinese c => exact .same rfl (hchinese c) ih
    | letters tmp =>
      have hf := hf tmp mem_cons_self
      have hg := hg tmp mem_cons_self
      exact ih.append (hf.flatten.trans hg.flatten.symm)
        (fun a ha => ⟨hf.ne_nil a ha, hf.kind a ha⟩) (fun b hb => ⟨hg.ne_nil b hb, hg.kind b hb⟩)
          (hR tmp mem_cons_self)

/-! ## Cutting at the blanks of `split_func` -/

/-- Every blank has a letter behind it. -/
inductive Spaced : Str → Prop
  | nil : Spaced []
  | letter {c s} (hc : c ≠ blank) : Spaced s → Spaced (c :: s)
  | gap {c s} (hc : c ≠ blank) : Spaced s → Spaced (blank :: c :: s)

theorem Spaced.append {a b : Str} (ha : Spaced a) (hb : Spaced b) : Spaced (a ++ b) := by
  induction ha with
  | nil => exact hb
  | letter hc _ ih => exact .letter hc ih
  | gap hc _ ih => exact .gap hc ih

theorem spaced_aspirate (type : Int) (c : UInt8) {rest : Str} (h : blank ∉ rest) :
    Spaced (aspirate type c rest).1 := by
  cases rest with
  | nil => exact .nil
  | cons x rest =>
    have hx : x ≠ blank := fun hx => h (hx ▸ mem_cons_self)
    rw [aspirate]
    split_ifs
    · exact .letter hx .nil
    · exact .gap hx .nil
    · exact .nil

/-- What a turn writes begins with the letter, or with a blank and the letter; the first turn writes
no blank before it. -/
theorem turn_cons (type : Int) (first : Bool) {c : UInt8} {rest : Str} (h : blank ∉ c :: rest) :
    ∃ e, Spaced e ∧ ((turn type first c rest).1 = c :: e ∨
      first = false ∧ (turn type first c rest).1 = blank :: c :: e) := by
  rw [mem_cons, not_or] at h
  obtain ⟨hc, hrest⟩ := h
  by_cases hvowel : isVowel c
  · exact ⟨[], .nil, .inl (by rw [turn.eq_def, if_pos hvowel])⟩
  by_cases hn : c ≠ 'n'.toUInt8
  · refine ⟨_, spaced_aspirate type c hrest, ?_⟩
    rw [turn.eq_def, if_neg hvowel, if_pos hn]
    cases first
    · exact .inr ⟨rfl, rfl⟩
    · exact .inl rfl
  rw [turn.eq_def, if_neg hvowel, if_neg hn]
  rcases rest with _ | ⟨x, rest⟩
  · exact ⟨[], .nil, .inl rfl⟩
  rw [mem_cons, not_or] at hrest
  obtain ⟨hx, hrest⟩ := hrest
  have hx := Ne.symm hx
  by_cases hxv : isVowel x
  · simp only [if_pos hxv]
    refine ⟨[x], .letter hx .nil, ?_⟩
    cases first
    · exact .inr ⟨rfl, rfl⟩
    · exact .inl rfl
  by_cases hg : x = 'g'.toUInt8
  · simp only [if_neg hxv, if_pos hg]
    rcases rest with _ | ⟨y, rest⟩
    · exact ⟨[x], .letter hx .nil, .inl rfl⟩
    rw [mem_cons, not_or] at hrest
    obtain ⟨hy, hrest⟩ := hrest
    have hy := Ne.symm hy
    dsimp only
    split_ifs
    · exact ⟨[blank, x, y], .gap hx (.letter hy .nil), .inl rfl⟩
    · exact ⟨_, .letter hx (.gap hy (spaced_aspirate type y hrest)), .inl rfl⟩
  · simp only [if_neg hxv, if_neg hg]
    exact ⟨_, .gap hx (spaced_aspirate type x hrest), .inl rfl⟩

theorem spaced_splitLoop (type : Int) (first : Bool) {pinyin : Str} (h : blank ∉ pinyin) :
    Spaced (splitLoop type first pinyin) := by
  fun_induction splitLoop type first pinyin with
  | case1 => exact .nil
  | case2 first c rest ih =>
    have hc : c ≠ blank := fun hc => h (hc ▸ mem_cons_self)
    have hrest : blank ∉ (turn type first c rest).2 := fun hmem =>
      h (mem_cons_of_mem c ((turn_suffix type first c rest).subset hmem))
    obtain ⟨e, he, hturn | ⟨-, hturn⟩⟩ := turn_cons type first h
    · rw [hturn]
      exact (Spaced.letter hc he).append (ih hrest)
    · rw [hturn]
      exact (Spaced.gap hc he).append (ih hrest)

/-- Cut at its blanks, only the first piece can be empty. -/
theorem Spaced.splitOn {s : Str} (h : Spaced s) :
    ∃ first pieces, s.splitOn blank = first :: pieces ∧ [] ∉ pieces := by
  induction h with
  | nil => exact ⟨[], [], rfl, not_mem_nil⟩
  | @letter c s hc _ ih =>
    obtain ⟨first, pieces, heq, hpieces⟩ := ih
    refine ⟨c :: first, pieces, ?_, hpieces⟩
    rw [splitOn_cons_eq_if_modifyHead, if_neg (by simpa using hc), heq, modifyHead_cons]
  | @gap c s hc _ ih =>
    obtain ⟨first, pieces, heq, hpieces⟩ := ih
    refine ⟨[], (c :: first) :: pieces, ?_, ?_⟩
    · rw [splitOn_cons_eq_if_modifyHead, if_pos (by simp),
        splitOn_cons_eq_if_modifyHead, if_neg (by simpa using hc), heq, modifyHead_cons]
    · rw [mem_cons, not_or]
      exact ⟨(cons_ne_nil _ _).symm, hpieces⟩

theorem mem_splitOn_of_mem_splitEx {src piece : Str} (h : piece ∈ splitEx 32 src) :
    piece ∈ src.splitOn 32 := by
  rw [splitEx, mem_append] at h
  obtain h | h := h
  · exact dropLast_subset _ (mem_of_mem_filter h)
  · exact mem_of_getLast? (Option.mem_toList.mp (mem_of_mem_filter h))

/-- The pieces of a run are not empty. -/
theorem ne_nil_of_mem_splitPieces (type : Int) {tmp : Str} (h : blank ∉ tmp) {piece : Str}
    (hpiece : piece ∈ splitPieces type tmp) : piece ≠ [] := by
  cases tmp with
  | nil =>
    rw [splitPieces, splitFunc, splitLoop] at hpiece
    exact absurd hpiece not_mem_nil
  | cons c rest =>
    have hc : c ≠ blank := fun hc => h (hc ▸ mem_cons_self)
    have hrest : blank ∉ (turn type true c rest).2 := fun hmem =>
      h (mem_cons_of_mem c ((turn_suffix type true c rest).subset hmem))
    obtain ⟨e, he, hturn | ⟨hfirst, -⟩⟩ := turn_cons type true h
    · have hspaced := he.append (spaced_splitLoop type false hrest)
      obtain ⟨first, pieces, heq, hpieces⟩ := hspaced.splitOn
      have hmem := mem_splitOn_of_mem_splitEx hpiece
      rw [splitFunc, splitLoop, hturn, cons_append, splitOn_cons_eq_if_modifyHead,
        if_neg (by simpa using (show c ≠ 32 from hc)), show (32 : UInt8) = blank from rfl, heq,
        modifyHead_cons] at hmem
      obtain rfl | hmem := mem_cons.mp hmem
      · exact cons_ne_nil _ _
      · exact fun hnil => hpieces (hnil ▸ hmem)
    · exact absurd hfirst (by decide)

theorem flatten_splitPieces (type : Int) {tmp : Str} (h : blank ∉ tmp) :
    (splitPieces type tmp).flatten = tmp :=
  (flatten_splitEx _).trans (letters_splitLoop type true h)

theorem ne_nil_of_mem_fmm {tmp piece : Str} (h : piece ∈ fmm isPhonetic tmp) : piece ≠ [] := by
  fun_induction fmm isPhonetic tmp with
  | case1 => exact absurd h not_mem_nil
  | case2 c rest sub key ih =>
    obtain rfl | h := mem_cons.mp h
    · obtain ⟨n, hn⟩ := longest_eq_take isPhonetic sub sub.length
      rw [show key = sub.take (n + 1) from hn]
      simp [sub]
    · exact ih h

/-! ## The cuts of a run -/

theorem texts_map_content (pieces : List Str) : texts (pieces.map content) = pieces := by
  rw [texts, map_map, show (·.str) ∘ content = id from funext content_str, map_id]

/-- Pieces typed by their texts. -/
theorem cuts_map_content {pieces : Str → List Str} {tmp : Str} (hflat : (pieces tmp).flatten = tmp)
    (hne : ∀ str ∈ pieces tmp, str ≠ []) : Cuts (fun tmp => (pieces tmp).map content) tmp where
  flatten := by rw [texts_map_content, hflat]
  ne_nil := by
    rintro _ ha
    obtain ⟨str, hstr, rfl⟩ := mem_map.mp ha
    rw [content_str]
    exact hne str hstr
  kind := by
    rintro _ ha
    obtain ⟨str, -, rfl⟩ := mem_map.mp ha
    exact .inl (by rw [content_str])

theorem small_syllable_items_spec : ∀ item ∈ small_syllable_items,
    ascii item.2.1 ++ ascii item.2.2 = ascii item.1 ∧ ascii item.2.1 ≠ [] ∧ ascii item.2.2 ≠ [] ∧
      ascii item.2.1 ∉ [ascii "z", ascii "c", ascii "s"] ∧
      ascii item.2.2 ∉ [ascii "z", ascii "c", ascii "s"] := by decide +kernel

theorem isSmallSyllable_spec {str s₁ s₂ : Str} (h : isSmallSyllable str = some (s₁, s₂)) :
    s₁ ++ s₂ = str.takeWhile (· ≠ 0) ∧ (s₁ ≠ [] ∧ s₂ ≠ []) ∧
      s₁ ∉ [ascii "z", ascii "c", ascii "s"] ∧ s₂ ∉ [ascii "z", ascii "c", ascii "s"] := by
  obtain ⟨item, hfind, hparts⟩ := Option.map_eq_some_iff.mp h
  obtain ⟨happend, hne₁, hne₂, hnot₁, hnot₂⟩ :=
    small_syllable_items_spec item (mem_of_find?_eq_some hfind)
  obtain ⟨rfl, rfl⟩ := Prod.mk.inj hparts
  have hsyllable : ascii item.1 = str.takeWhile (· ≠ 0) := by simpa using List.find?_some hfind
  exact ⟨happend.trans hsyllable, ⟨hne₁, hne₂⟩, hnot₁, hnot₂⟩

/-- A piece is a small syllable and is cut in two, or is left. -/
theorem cutSmall_content (str : Str) :
    cutSmall (content str) = [content str] ∨ ∃ s₁ s₂, isSmallSyllable str = some (s₁, s₂) ∧
      cutSmall (content str) = [⟨WHOLE_SPELL, s₁⟩, ⟨WHOLE_SPELL, s₂⟩] := by
  rw [cutSmall, content_str]
  split_ifs
  · cases hsmall : isSmallSyllable str with
    | none => exact .inl rfl
    | some parts => exact .inr ⟨parts.1, parts.2, rfl, rfl⟩
  · exact .inl rfl

theorem takeWhile_ne_zero {str : Str} (h : 0 ∉ str) : str.takeWhile (· ≠ 0) = str :=
  takeWhile_eq_self_iff.mpr fun _ hc => decide_eq_true fun h0 => h (h0 ▸ hc)

theorem smallPieces_eq (tmp : Str) :
    smallPieces tmp = texts (((splitPieces 1 tmp).map content).flatMap cutSmall) := by
  rw [smallPieces, texts, map_flatMap, flatMap_map]

theorem flatten_cutSmall {str : Str} (hzero : 0 ∉ str) :
    ((cutSmall (content str)).map (·.str)).flatten = str := by
  obtain hcut | ⟨s₁, s₂, hsmall, hcut⟩ := cutSmall_content str
  · rw [hcut, map_singleton, flatten_singleton, content_str]
  · rw [hcut]
    have happend := (isSmallSyllable_spec hsmall).1
    rw [takeWhile_ne_zero hzero] at happend
    simpa using happend

theorem flatten_smallPieces {tmp : Str} (h : blank ∉ tmp) (hzero : 0 ∉ tmp) :
    (smallPieces tmp).flatten = tmp := by
  have hpieces (pieces : List Str) (hsub : ∀ str ∈ pieces, 0 ∉ str) :
      (pieces.flatMap fun str => (cutSmall (content str)).map (·.str)).flatten =
        pieces.flatten := by
    induction pieces with
    | nil => rfl
    | cons str pieces ih =>
      obtain ⟨hstr, hsub⟩ := forall_mem_cons.mp hsub
      rw [flatMap_cons, flatten_append, flatten_cutSmall hstr, ih hsub, flatten_cons]
  rw [smallPieces, hpieces _ fun str hstr hmem => hzero ?_, flatten_splitPieces 1 h]
  rw [← flatten_splitPieces 1 h]
  exact mem_flatten_of_mem hstr hmem

/-- The small syllables are cut in two where they stand. -/
theorem cuts_small {tmp : Str} (h : blank ∉ tmp) (hzero : 0 ∉ tmp) :
    Cuts (fun tmp => ((splitPieces 1 tmp).map content).flatMap cutSmall) tmp where
  flatten := by rw [← smallPieces_eq, flatten_smallPieces h hzero]
  ne_nil := by
    intro a ha
    rw [flatMap_map] at ha
    obtain ⟨str, hstr, ha⟩ := mem_flatMap.mp ha
    obtain hcut | ⟨s₁, s₂, hsmall, hcut⟩ := cutSmall_content str
    · rw [hcut, mem_singleton] at ha
      rw [ha, content_str]
      exact ne_nil_of_mem_splitPieces 1 h hstr
    · obtain ⟨-, ⟨hne₁, hne₂⟩, -⟩ := isSmallSyllable_spec hsmall
      rw [hcut] at ha
      obtain rfl | ha := mem_cons.mp ha
      · exact hne₁
      · rw [mem_singleton.mp ha]
        exact hne₂
  kind := by
    intro a ha
    rw [flatMap_map] at ha
    obtain ⟨str, hstr, ha⟩ := mem_flatMap.mp ha
    obtain hcut | ⟨s₁, s₂, hsmall, hcut⟩ := cutSmall_content str
    · rw [hcut, mem_singleton] at ha
      exact .inl (by rw [ha, content_str])
    · obtain ⟨-, -, hnot₁, hnot₂⟩ := isSmallSyllable_spec hsmall
      rw [hcut] at ha
      obtain rfl | ha := mem_cons.mp ha
      · exact .inr ⟨rfl, hnot₁⟩
      · rw [mem_singleton.mp ha]
        exact .inr ⟨rfl, hnot₂⟩

/-! ## The runs of a text -/

theorem mem_itemsOf {cs : List Str} {tmp : Str} (h : .letters tmp ∈ itemsOf cs) {b : UInt8}
    (hb : b ∈ tmp) : ∃ c ∈ cs, c.length ≤ 1 ∧ b ∈ c := by
  fun_induction itemsOf cs with
  | case1 => exact absurd h not_mem_nil
  | case2 c cs hlong ih =>
    obtain h | h := mem_cons.mp h
    · exact Item.noConfusion h
    · obtain ⟨c', hc', hb⟩ := ih h
      exact ⟨c', mem_cons_of_mem c hc', hb⟩
  | case3 c cs hshort ih =>
    obtain h | h := mem_cons.mp h
    · obtain rfl := Item.letters.inj h
      obtain hb | hb := mem_append.mp hb
      · exact ⟨c, mem_cons_self, not_lt.mp hshort, hb⟩
      · obtain ⟨c', hc', hb⟩ := mem_flatten.mp hb
        have hsingle := mem_takeWhile_imp hc'
        exact ⟨c', mem_cons_of_mem c (takeWhile_subset _ hc'), by simpa using hsingle, hb⟩
    · obtain ⟨c', hc', hb⟩ := ih h
      exact ⟨c', mem_cons_of_mem c (dropWhile_subset _ hc'), hb⟩

theorem mem_of_mem_charAt {data : Str} {i : Nat} {b : UInt8} (h : b ∈ charAt data i) :
    b ∈ data := by
  rw [charAt] at h
  split_ifs at h
  · exact absurd h not_mem_nil
  · exact mem_of_mem_drop (mem_of_mem_take h)

/-- A character of one byte is one that starts a character. -/
theorem zero_notMem_charAt {data : Str} {i : Nat} (hlength : (charAt data i).length ≤ 1) :
    0 ∉ charAt data i := by
  intro hzero
  have hone : charAt data i = [0] := by
    obtain ⟨c, hc⟩ := length_eq_one_iff.mp
      (le_antisymm hlength (length_pos_of_mem hzero))
    rw [hc, mem_singleton] at hzero
    rw [hc, hzero]
  rw [charAt] at hone
  split_ifs at hone with hi
  have hi := not_le.mp hi
  have hstart : starts (data.getD ((offerset data).getD i 0) 0) = true := by
    have hlt : i < ((List.range data.length).filter fun i => starts (data.getD i 0)).length := by
      rw [Segmentation.length, offerset, List.length_append, length_singleton,
        Nat.add_sub_cancel] at hi
      exact hi
    rw [offerset, getD_append _ _ _ _ hlt, getD_eq_getElem _ _ hlt]
    exact (mem_filter.mp (getElem_mem hlt)).2
  have hhead := congrArg List.head? hone
  rw [List.head?_take, List.head?_drop] at hhead
  split_ifs at hhead
  · exact absurd hhead (by simp)
  · rw [getD_eq_getElem?_getD, hhead] at hstart
    exact absurd hstart (by decide)

theorem items_letters (h : blank ∉ m_Data) {tmp : Str} (htmp : .letters tmp ∈ items m_Data) :
    blank ∉ tmp ∧ 0 ∉ tmp := by
  constructor
  · intro hmem
    obtain ⟨c, hc, -, hb⟩ := mem_itemsOf htmp hmem
    obtain ⟨i, -, rfl⟩ := mem_map.mp hc
    exact h (mem_of_mem_charAt hb)
  · intro hmem
    obtain ⟨c, hc, hlength, hb⟩ := mem_itemsOf htmp hmem
    obtain ⟨i, -, rfl⟩ := mem_map.mp hc
    exact zero_notMem_charAt hlength hb

theorem append_cancel_flatten {U V x y : List Str} (hflat : U.flatten = V.flatten)
    (hU : [] ∉ U) (hV : [] ∉ V) (h : U ++ x = V ++ y) : U = V ∧ x = y := by
  have hnil {W : List Str} (hW : [] ∉ W) (hflatten : W.flatten = []) : W = [] :=
    eq_nil_iff_forall_not_mem.mpr fun w hw =>
      hW (flatten_eq_nil_iff.mp hflatten w hw ▸ hw)
  obtain ⟨W, rfl, rfl⟩ | ⟨W, rfl, rfl⟩ := append_eq_append_iff.mp h
  · rw [flatten_append, self_eq_append_right] at hflat
    have hW := hnil (fun hmem => hV (mem_append_right _ hmem)) hflat
    rw [hW]
    simp
  · rw [flatten_append, append_right_eq_self] at hflat
    have hW := hnil (fun hmem => hU (mem_append_right _ hmem)) hflat
    rw [hW]
    simp

theorem Cuts.nil_notMem {f : Str → List Content} {tmp : Str} (h : Cuts f tmp) :
    [] ∉ texts (f tmp) :=
  fun hmem => by
    obtain ⟨a, ha, hnil⟩ := mem_map.mp hmem
    exact h.ne_nil a ha hnil

/-- Two passes give the same texts exactly if they cut every run alike. -/
theorem texts_pass_eq_iff {f g : Str → List Content} {items : List Item}
    (hf : ∀ tmp, .letters tmp ∈ items → Cuts f tmp)
    (hg : ∀ tmp, .letters tmp ∈ items → Cuts g tmp) :
    texts (pass f items) = texts (pass g items) ↔
      ∀ tmp, .letters tmp ∈ items → texts (f tmp) = texts (g tmp) := by
  induction items with
  | nil => simp [pass]
  | cons item items ih =>
    have ih := ih (fun tmp h => hf tmp (mem_cons_of_mem _ h))
      (fun tmp h => hg tmp (mem_cons_of_mem _ h))
    cases item with
    | chinese c =>
      simp only [mem_cons, reduceCtorEq, false_or]
      rw [← ih]
      simp [pass, texts]
    | letters tmp =>
      have hf := hf tmp mem_cons_self
      have hg := hg tmp mem_cons_self
      have hcons (f : Str → List Content) : texts (pass f (.letters tmp :: items)) =
          texts (f tmp) ++ texts (pass f items) := by simp [pass, texts]
      rw [hcons, hcons]
      constructor
      · intro heq
        obtain ⟨hhead, htail⟩ := append_cancel_flatten (hf.flatten.trans hg.flatten.symm)
          hf.nil_notMem hg.nil_notMem heq
        intro tmp' h
        obtain h | h := mem_cons.mp h
        · rw [Item.letters.inj h, hhead]
        · exact ih.mp htail tmp' h
      · intro heq
        rw [heq tmp mem_cons_self,
          ih.mpr fun tmp' h => heq tmp' (mem_cons_of_mem _ h)]

/-! ## The order on the splits of a text -/

variable {isPhonetic m_Data}

theorem cuts_splitPieces (h : blank ∉ m_Data) (type : Int) {tmp : Str}
    (htmp : .letters tmp ∈ items m_Data) :
    Cuts (fun tmp => (splitPieces type tmp).map content) tmp :=
  have hblank := (items_letters m_Data h htmp).1
  cuts_map_content (flatten_splitPieces type hblank) fun _ => ne_nil_of_mem_splitPieces type hblank

theorem cuts_fmm (tmp : Str) : Cuts (fun tmp => (fmm isPhonetic tmp).map content) tmp :=
  cuts_map_content (flatten_fmm isPhonetic tmp) fun _ => ne_nil_of_mem_fmm isPhonetic

/-- Each split is a pass that cuts the runs. -/
theorem exists_pass (h : blank ∉ m_Data) {u : List Content} (hu : u ∈ splits isPhonetic m_Data) :
    ∃ f, u = pass f (items m_Data) ∧ ∀ tmp, .letters tmp ∈ items m_Data → Cuts f tmp := by
  rw [splits] at hu
  split_ifs at hu
  · exact ⟨_, mem_singleton.mp hu, fun tmp => cuts_splitPieces h 1⟩
  · simp only [mem_cons, not_mem_nil, or_false] at hu
    obtain rfl | rfl | rfl | rfl := hu
    · exact ⟨_, rfl, fun tmp => cuts_splitPieces h 1⟩
    · refine ⟨_, flatMap_cutSmall _ _, fun tmp htmp => ?_⟩
      obtain ⟨hblank, hzero⟩ := items_letters m_Data h htmp
      exact cuts_small hblank hzero
    · exact ⟨_, rfl, fun tmp => cuts_splitPieces h 2⟩
    · exact ⟨_, rfl, fun tmp _ => cuts_fmm tmp⟩

theorem vecLt_splits (h : blank ∉ m_Data) {u v : List Content} (hu : u ∈ splits isPhonetic m_Data)
    (hv : v ∈ splits isPhonetic m_Data) : vecLt u v ↔ texts u < texts v := by
  obtain ⟨f, rfl, hf⟩ := exists_pass h hu
  obtain ⟨g, rfl, hg⟩ := exists_pass h hv
  exact (Aligned.pass (R := fun _ _ => True) hf hg (fun _ => trivial)
    fun _ _ _ _ _ _ _ => trivial).vecLt_iff

theorem not_vecLt_self (u : List Content) : ¬vecLt u u := by
  induction u with
  | nil => exact Bool.false_ne_true
  | cons a u ih =>
    have ha : ¬a.lt a := fun h => lt_irrefl _ (lt_iff.mp h).2
    rwa [vecLt, if_neg ha, if_neg ha]

/-- The order of vectors tells two of them apart by the first place where that of contents does, or
by their lengths. -/
theorem incomp_vecLt_iff {u v : List Content} :
    Incomp (fun u v => vecLt u v) u v ↔
      List.Forall₂ (Incomp fun a b : Content => a.lt b) u v := by
  induction u generalizing v with
  | nil => cases v <;> simp [Incomp, vecLt]
  | cons a u ih =>
    cases v with
    | nil => simp [Incomp, vecLt]
    | cons b v =>
      rw [forall₂_cons, ← ih, Incomp, Incomp, Incomp, vecLt, vecLt]
      by_cases hab : a.lt b
      · simp [hab]
      · by_cases hba : b.lt a
        · simp [hab, hba]
        · simp [hab, hba]

theorem vecLt_asymm {u v : List Content} (h : vecLt u v) : ¬vecLt v u := by
  induction u generalizing v with
  | nil => simp [vecLt]
  | cons a u ih =>
    cases v with
    | nil => exact absurd h Bool.false_ne_true
    | cons b v =>
      rw [vecLt] at h ⊢
      by_cases hab : a.lt b
      · have hba : ¬b.lt a := fun hba => lt_asymm (lt_iff.mp hab).2 (lt_iff.mp hba).2
        simp [hab, hba]
      · rw [if_neg hab] at h
        split_ifs at h with hba
        rw [if_neg hba, if_neg hab]
        exact ih h

/-- The set is usable exactly if the order tells the splits apart and no three of them stand in a
circle. -/
theorem usable_iff : Usable isPhonetic m_Data ↔
    (∀ u ∈ splits isPhonetic m_Data, ∀ v ∈ splits isPhonetic m_Data,
      List.Forall₂ (Incomp fun a b : Content => a.lt b) u v → u = v) ∧
    ∀ u ∈ splits isPhonetic m_Data, ∀ v ∈ splits isPhonetic m_Data,
      ∀ w ∈ splits isPhonetic m_Data, vecLt u v → vecLt v w → ¬vecLt w u := by
  have hcount := count_setOf_iff fun u (_ : u ∈ splits isPhonetic m_Data) => not_vecLt_self u
  simp only [incomp_vecLt_iff] at hcount
  constructor
  · intro h
    exact ⟨hcount.mp h.kept, fun u hu v hv w hw huv hvw =>
      vecLt_asymm (h.order.trans u hu v hv w hw huv hvw)⟩
  · rintro ⟨hinj, hcircle⟩
    have heq {u v : List Content} (hu : u ∈ splits isPhonetic m_Data)
        (hv : v ∈ splits isPhonetic m_Data) (h : Incomp (fun u v => vecLt u v) u v) : u = v :=
      hinj u hu v hv (incomp_vecLt_iff.mp h)
    refine ⟨⟨fun u _ => not_vecLt_self u, fun u _ v _ => vecLt_asymm,
      fun u hu v hv w hw huv hvw => ?_, fun u hu v hv w hw huv hvw => ?_⟩, hcount.mpr hinj⟩
    · by_contra huw
      have hne : u ≠ w := fun h => vecLt_asymm huv (h ▸ hvw)
      exact hne (heq hu hw ⟨huw, hcircle u hu v hv w hw huv hvw⟩)
    · rwa [heq hu hv huv]

/-- The set is usable exactly if the texts tell the splits apart. -/
theorem usable_iff_texts (h : blank ∉ m_Data) : Usable isPhonetic m_Data ↔
    ∀ u ∈ splits isPhonetic m_Data, ∀ v ∈ splits isPhonetic m_Data, texts u = texts v → u = v := by
  have hkey : ∀ u ∈ splits isPhonetic m_Data, ∀ v ∈ splits isPhonetic m_Data,
      vecLt u v ↔ texts u < texts v := fun u hu v hv => vecLt_splits h hu hv
  have hcount := count_setOf_iff fun u (_ : u ∈ splits isPhonetic m_Data) => not_vecLt_self u
  refine ⟨fun hu u hmem v hmem' htexts => ?_, fun hinj => ⟨.of_key hkey, ?_⟩⟩
  · exact hcount.mp hu.kept u hmem v hmem' ((incomp_iff_key hkey hmem hmem').mpr htexts)
  · exact hcount.mpr fun u hu v hv huv => hinj u hu v hv ((incomp_iff_key hkey hu hv).mp huv)

/-- Passes that type the pieces by their texts are told apart by these. -/
theorem pass_eq_of_texts {f g : Str → List Content} {items : List Item}
    (hf : ∀ tmp, .letters tmp ∈ items → Cuts f tmp) (hg : ∀ tmp, .letters tmp ∈ items → Cuts g tmp)
    (htyped : ∀ tmp, .letters tmp ∈ items → ∀ a ∈ f tmp ++ g tmp, a = content a.str)
    (heq : texts (pass f items) = texts (pass g items)) : pass f items = pass g items := by
  have haligned : Aligned Eq (pass f items) (pass g items) :=
    Aligned.pass hf hg (fun _ => rfl) fun tmp htmp a ha b hb hstr => by
      rw [htyped tmp htmp a (mem_append_left _ ha),
        htyped tmp htmp b (mem_append_right _ hb), hstr]
  exact forall₂_eq_eq_eq ▸ haligned.forall₂ heq

theorem typed_map_content {pieces : List Str} : ∀ a ∈ pieces.map content, a = content a.str := by
  intro a ha
  obtain ⟨str, -, rfl⟩ := mem_map.mp ha
  rw [content_str]

theorem small_syllable_items_typed : ∀ item ∈ small_syllable_items,
    ((ascii item.2.1).length = 1 ∨ content (ascii item.2.1) = ⟨WHOLE_SPELL, ascii item.2.1⟩) ∧
    ((ascii item.2.2).length = 1 ∨ content (ascii item.2.2) = ⟨WHOLE_SPELL, ascii item.2.2⟩) := by
  decide +kernel

/-- Where no part of one letter is cut off, the parts are typed by their texts. -/
theorem typed_small (h : ¬CutsLetter m_Data) {tmp : Str} (htmp : .letters tmp ∈ items m_Data) :
    ∀ a ∈ ((splitPieces 1 tmp).map content).flatMap cutSmall, a = content a.str := by
  intro a ha
  rw [flatMap_map] at ha
  obtain ⟨str, hstr, ha⟩ := mem_flatMap.mp ha
  have hlength (hwhole : a.type = WHOLE_SPELL) : a.str.length ≠ 1 := fun hone =>
    h ⟨tmp, htmp, str, hstr, a, ha, hwhole, hone⟩
  obtain hcut | ⟨s₁, s₂, hsmall, hcut⟩ := cutSmall_content str
  · rw [hcut, mem_singleton] at ha
    rw [ha, content_str]
  · obtain ⟨item, hfind, hparts⟩ := Option.map_eq_some_iff.mp hsmall
    obtain ⟨htyped₁, htyped₂⟩ := small_syllable_items_typed item (mem_of_find?_eq_some hfind)
    obtain ⟨rfl, rfl⟩ := Prod.mk.inj hparts
    rw [hcut] at ha
    obtain rfl | ha := mem_cons.mp ha
    · exact (htyped₁.resolve_left (hlength rfl)).symm
    · obtain rfl := mem_singleton.mp ha
      exact (htyped₂.resolve_left (hlength rfl)).symm

theorem cutAlike_iff {g : Str → List Str} : CutAlike m_Data g ↔ ∀ tmp, .letters tmp ∈ items m_Data →
    texts (((splitPieces 1 tmp).map content).flatMap cutSmall) = texts ((g tmp).map content) := by
  refine forall_congr' fun tmp => imp_congr_right fun _ => ?_
  rw [← smallPieces_eq, texts_map_content, eq_comm]

theorem length_smallPieces (tmp : Str) : (splitPieces 1 tmp).length ≤ (smallPieces tmp).length ∧
    ((∃ str ∈ splitPieces 1 tmp, (cutSmall (content str)).length = 2) →
      (splitPieces 1 tmp).length < (smallPieces tmp).length) := by
  rw [smallPieces]
  induction splitPieces 1 tmp with
  | nil => exact ⟨le_rfl, nofun⟩
  | cons str pieces ih =>
    obtain ⟨hle, hlt⟩ := ih
    have hone : 1 ≤ (cutSmall (content str)).length := by
      obtain hcut | ⟨s₁, s₂, -, hcut⟩ := cutSmall_content str <;> rw [hcut] <;> simp
    rw [flatMap_cons, List.length_append, length_cons, length_map]
    refine ⟨by omega, ?_⟩
    rintro ⟨str', hstr', htwo⟩
    obtain rfl | hstr' := mem_cons.mp hstr'
    · omega
    · have := hlt ⟨str', hstr', htwo⟩
      omega

/-- The split before the small syllables are cut is another one where a letter is cut off. -/
theorem not_cutAlike_result (h : CutsLetter m_Data) : ¬CutAlike m_Data (splitPieces 1) := by
  obtain ⟨tmp, htmp, str, hstr, c, hc, hwhole, hone⟩ := h
  intro halike
  have hlt := (length_smallPieces tmp).2 ⟨str, hstr, by
    obtain hcut | ⟨s₁, s₂, -, hcut⟩ := cutSmall_content str
    · rw [hcut, mem_singleton] at hc
      rw [hc, content_str] at hone
      rw [hc, content_type_of_length hone] at hwhole
      exact absurd hwhole (by decide)
    · rw [hcut]
      rfl⟩
  rw [halike tmp htmp] at hlt
  exact lt_irrefl _ hlt

/-- A text without blanks has a usable set of splits unless a part of one letter is cut off a small
syllable and another split cuts the text in the same places. -/
theorem usable_iff_cutAlike (h : blank ∉ m_Data) : Usable isPhonetic m_Data ↔
    ¬(CutsLetter m_Data ∧
      (CutAlike m_Data (fmm isPhonetic) ∨ CutAlike m_Data (splitPieces 2))) := by
  have hsmall (tmp : Str) (htmp : .letters tmp ∈ items m_Data) :
      Cuts (fun tmp => ((splitPieces 1 tmp).map content).flatMap cutSmall) tmp :=
    cuts_small (items_letters m_Data h htmp).1 (items_letters m_Data h htmp).2
  have hsyllable : (contents (splitPieces 1) (items m_Data)).flatMap cutSmall =
      pass (fun tmp => ((splitPieces 1 tmp).map content).flatMap cutSmall) (items m_Data) :=
    flatMap_cutSmall _ _
  have halike {g : Str → List Str}
      (hg : ∀ tmp, .letters tmp ∈ items m_Data → Cuts (fun tmp => (g tmp).map content) tmp) :
      CutAlike m_Data g ↔ texts ((contents (splitPieces 1) (items m_Data)).flatMap cutSmall) =
        texts (contents g (items m_Data)) := by
    rw [hsyllable, contents_eq, texts_pass_eq_iff hsmall hg, cutAlike_iff]
  rw [usable_iff_texts h]
  constructor
  · rintro hinj ⟨hletter, hg⟩
    have hnot : ¬(items m_Data).all fun | .chinese _ => true | .letters _ => false := by
      obtain ⟨tmp, htmp, -⟩ := hletter
      intro hall
      exact absurd (all_eq_true.mp hall _ htmp) (by simp)
    -- the syllables hold a letter typed as a syllable, which no other split does
    have hne {g : Str → List Str} : (contents (splitPieces 1) (items m_Data)).flatMap cutSmall ≠
        contents g (items m_Data) := by
      obtain ⟨tmp, htmp, str, hstr, c, hc, hwhole, hone⟩ := hletter
      intro heq
      have hmem : c ∈ contents g (items m_Data) := by
        rw [← heq]
        exact mem_flatMap.mpr ⟨content str,
          mem_flatMap.mpr ⟨_, htmp, mem_map_of_mem hstr⟩, hc⟩
      obtain ⟨item, -, hmem⟩ := mem_flatMap.mp hmem
      cases item with
      | chinese c' =>
        rw [mem_singleton.mp hmem] at hwhole
        exact absurd hwhole (show CHINESE ≠ WHOLE_SPELL by decide)
      | letters tmp' =>
        rw [typed_map_content c hmem, content_type_of_length hone] at hwhole
        exact absurd hwhole (by decide)
    have hsplits : splits isPhonetic m_Data = [contents (splitPieces 1) (items m_Data),
        (contents (splitPieces 1) (items m_Data)).flatMap cutSmall,
        contents (splitPieces 2) (items m_Data), contents (fmm isPhonetic) (items m_Data)] := by
      rw [splits, if_neg hnot]
    rw [hsplits] at hinj
    obtain hg | hg := hg
    · exact hne (hinj _ (by simp) _ (by simp) ((halike fun tmp _ => cuts_fmm tmp).mp hg))
    · exact hne (hinj _ (by simp) _ (by simp)
        ((halike fun tmp htmp => cuts_splitPieces h 2 htmp).mp hg))
  · intro hcond
    have hmain {g : Str → List Str}
        (hg : ∀ tmp, .letters tmp ∈ items m_Data → Cuts (fun tmp => (g tmp).map content) tmp)
        (hcond : ¬(CutsLetter m_Data ∧ CutAlike m_Data g))
        (htexts : texts ((contents (splitPieces 1) (items m_Data)).flatMap cutSmall) =
          texts (contents g (items m_Data))) :
        (contents (splitPieces 1) (items m_Data)).flatMap cutSmall =
          contents g (items m_Data) := by
      have hletter : ¬CutsLetter m_Data := fun hletter => hcond ⟨hletter, (halike hg).mpr htexts⟩
      rw [hsyllable] at htexts ⊢
      refine pass_eq_of_texts hsmall hg (fun tmp htmp a ha => ?_) htexts
      obtain ha | ha := mem_append.mp ha
      · exact typed_small hletter htmp a ha
      · exact typed_map_content a ha
    have hsplit (u : List Content) (hu : u ∈ splits isPhonetic m_Data) :
        u = (contents (splitPieces 1) (items m_Data)).flatMap cutSmall ∨
        ∃ g, u = contents g (items m_Data) ∧
          (∀ tmp, .letters tmp ∈ items m_Data → Cuts (fun tmp => (g tmp).map content) tmp) ∧
          ¬(CutsLetter m_Data ∧ CutAlike m_Data g) := by
      have hresult : ¬(CutsLetter m_Data ∧ CutAlike m_Data (splitPieces 1)) := fun h =>
        not_cutAlike_result h.1 h.2
      rw [splits] at hu
      split_ifs at hu
      · exact .inr ⟨_, mem_singleton.mp hu, fun tmp => cuts_splitPieces h 1, hresult⟩
      · simp only [mem_cons, not_mem_nil, or_false] at hu
        obtain rfl | rfl | rfl | rfl := hu
        · exact .inr ⟨_, rfl, fun tmp => cuts_splitPieces h 1, hresult⟩
        · exact .inl rfl
        · exact .inr ⟨_, rfl, fun tmp => cuts_splitPieces h 2, fun h => hcond ⟨h.1, .inr h.2⟩⟩
        · exact .inr ⟨_, rfl, fun tmp _ => cuts_fmm tmp, fun h => hcond ⟨h.1, .inl h.2⟩⟩
    intro u hu v hv htexts
    obtain rfl | ⟨g, rfl, hg, hgcond⟩ := hsplit u hu
    · obtain rfl | ⟨g', rfl, hg', hgcond'⟩ := hsplit v hv
      · rfl
      · exact hmain hg' hgcond' htexts
    · obtain rfl | ⟨g', rfl, hg', -⟩ := hsplit v hv
      · exact (hmain hg hgcond htexts.symm).symm
      · refine pass_eq_of_texts hg hg' (fun tmp _ a ha => ?_) htexts
        obtain ha | ha := mem_append.mp ha <;> exact typed_map_content a ha

end ISearch.Pinyin

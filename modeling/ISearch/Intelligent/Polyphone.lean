import ISearch.Intelligent.Defs
import ISearch.Lib.MixedRadix
import Mathlib.Data.List.Count
import Mathlib.Data.List.Induction
import Mathlib.Order.Nat

/-!
# The readings of a phrase

The index side stores one `IntelligentInfo` for each reading of a phrase: one syllable for each
Chinese character. The readings are counted in a mixed radix. Characters are stored at their
position in the phrase, syllables at their position among the Chinese characters only: a phrase
with a Chinese character behind a letter gets its syllables in wrong places.
-/

namespace ISearch.Intelligent

open Function List

/-- The first loop of `ConvertIntelligent`: the characters and letters of the contents from
position `i` on. -/
def basicInfo (d : Dictionary) : Nat → List Content → IntelligentInfo → IntelligentInfo
  | _, [], info => info
  | i, content :: result, info =>
    basicInfo d (i + 1) result
      (if content.type = .chinese then info.setCharact i (d.getCharactId content.str)
      else info.setInitial i [content.str.headD 0])

/-- `phonetic_id_vecs`: lists of no, one and several syllables are copied alike. -/
def phoneticIdVecs (d : Dictionary) (result : List Content) : List (List Bytes) :=
  (result.filter fun content => content.type = .chinese).map fun content =>
    d.getPhonetic content.str

/-- `totalLength`, an `int` that is multiplied by unsigned lengths. -/
def totalLength (vecs : List (List Bytes)) : Nat :=
  let product := vecs.foldl (fun total vec => total * vec.length % 2 ^ 32) 1
  if product < 2 ^ 31 then product else 0

/-- A syllable at a position. -/
def IntelligentInfo.setSyllable (d : Dictionary) (info : IntelligentInfo) (j : Nat)
    (phonetic : Bytes) : IntelligentInfo :=
  let info := info.setPhonetic j (d.getPhoneticId phonetic)
  if 1 < phonetic.length then info.setInitial j [phonetic.headD 0] else info

/-- The loop over the columns from `j` on. -/
def reading (d : Dictionary) : Nat → Nat → List (List Bytes) → IntelligentInfo → IntelligentInfo
  | _, _, [], info => info
  | j, k, vec :: vecs, info =>
    reading d (j + 1) (k / vec.length) vecs (info.setSyllable d j (vec.getD (k % vec.length) []))

/-- `ConvertIntelligent` of the index side, for an empty `info_vec`. -/
def convertIntelligent (d : Dictionary) (result : List Content) : List IntelligentInfo :=
  let info := basicInfo d 0 result {}
  let vecs := phoneticIdVecs d result
  let infos := (List.range (totalLength vecs)).map fun k => reading d 0 k vecs info
  if infos = [] ∧ vecs = [] then [info] else infos

/-- From position `p` on, the info carries the contents, with a syllable chosen for each Chinese
character. -/
inductive Carries (d : Dictionary) (info : IntelligentInfo) : Nat → List Content → List Bytes → Prop
  | nil {p : Nat} : Carries d info p [] []
  | chinese {p : Nat} {content : Content} {result : List Content} {s : Bytes} {choice : List Bytes}
      (type : content.type = .chinese)
      (charact : (info.charactId p).toNat = (d.getCharactId content.str).toNat)
      (phonetic : (info.phoneticId p).toNat = (d.getPhoneticId s).toNat)
      (initial : 1 < s.length → info.initialChar p = [s.headD 0])
      (rest : Carries d info (p + 1) result choice) :
      Carries d info p (content :: result) (s :: choice)
  | letter {p : Nat} {content : Content} {result : List Content} {choice : List Bytes}
      (type : content.type ≠ .chinese)
      (initial : info.initialChar p = [content.str.headD 0])
      (rest : Carries d info (p + 1) result choice) :
      Carries d info p (content :: result) choice

/-- One info for each choice of syllables. -/
def Enumerates (d : Dictionary) (result : List Content) (infos : List IntelligentInfo) : Prop :=
  ∃ choices, choices.Perm (phoneticIdVecs d result).sections ∧
    List.Forall₂ (fun choice info => Carries d info 0 result choice) choices infos

/-- A phrase whose characters and syllables are all known. -/
structure Known (d : Dictionary) (result : List Content) : Prop where
  charact : ∀ content ∈ result, content.type = .chinese → d.getCharactId content.str ≠ 0
  phonetic : ∀ content ∈ result, content.type = .chinese →
    ∀ s ∈ d.getPhonetic content.str, d.getPhoneticId s ≠ 0
  nonempty : ∀ content ∈ result, content.type = .chinese → d.getPhonetic content.str ≠ []

/-- The ids fit the 16 bits they are stored in. -/
def IdsFit (d : Dictionary) (result : List Content) : Prop :=
  ∀ content ∈ result, content.type = .chinese → (d.getCharactId content.str).toNat < 2 ^ 16 ∧
    ∀ s ∈ d.getPhonetic content.str, (d.getPhoneticId s).toNat < 2 ^ 16

instance (d : Dictionary) (result : List Content) : Decidable (IdsFit d result) :=
  inferInstanceAs (Decidable (∀ _ ∈ _, _))

/-- No Chinese character comes behind a letter. -/
def ChineseFirst (result : List Content) : Prop :=
  result.Pairwise fun a b => b.type = .chinese → a.type = .chinese

instance (result : List Content) : Decidable (ChineseFirst result) :=
  inferInstanceAs (Decidable (List.Pairwise _ _))

variable {d : Dictionary} {result : List Content} {vecs : List (List Bytes)}

/-- The syllables of a choice at the positions from `j` on. -/
def IntelligentInfo.setChoice (d : Dictionary) :
    IntelligentInfo → Nat → List Bytes → IntelligentInfo
  | info, _, [] => info
  | info, j, s :: choice => setChoice d (info.setSyllable d j s) (j + 1) choice

theorem reading_eq_setChoice (j k : Nat) (info : IntelligentInfo) :
    reading d j k vecs info = info.setChoice d j (MixedRadix.choice [] vecs k) := by
  induction vecs generalizing j k info with
  | nil => rfl
  | cons vec vecs ih => exact ih _ _ _

theorem foldl_mul_mod (vecs : List (List Bytes)) (n : Nat) :
    vecs.foldl (fun total vec => total * vec.length % 2 ^ 32) (n % 2 ^ 32) =
      n * (vecs.map List.length).prod % 2 ^ 32 := by
  induction vecs generalizing n with
  | nil => rw [foldl_nil, map_nil, prod_nil, Nat.mul_one]
  | cons vec vecs ih =>
    rw [foldl_cons, Nat.mod_mul_mod, ih, map_cons, prod_cons, Nat.mul_assoc]

theorem totalLength_eq (h : (vecs.map List.length).prod < 2 ^ 31) :
    totalLength vecs = (vecs.map List.length).prod := by
  have hfold := foldl_mul_mod vecs 1
  have h32 : (vecs.map List.length).prod < 2 ^ 32 := by omega
  rw [Nat.one_mul, Nat.mod_eq_of_lt h32, Nat.mod_eq_of_lt (by decide : 1 < 2 ^ 32)] at hfold
  simp only [totalLength, hfold, if_pos h]

/-- The infos are those of the choices, in the order of `List.sections`. -/
theorem convertIntelligent_eq (h : ((phoneticIdVecs d result).map List.length).prod < 2 ^ 31) :
    convertIntelligent d result =
      (phoneticIdVecs d result).sections.map ((basicInfo d 0 result {}).setChoice d 0) := by
  have hinfos : (List.range (totalLength (phoneticIdVecs d result))).map
      (fun k => reading d 0 k (phoneticIdVecs d result) (basicInfo d 0 result {})) =
      (phoneticIdVecs d result).sections.map ((basicInfo d 0 result {}).setChoice d 0) := by
    rw [totalLength_eq h, ← MixedRadix.map_choice_range [], map_map]
    exact map_congr_left fun k _ => reading_eq_setChoice 0 k _
  rw [convertIntelligent]
  simp only [hinfos]
  refine if_neg fun ⟨hnil, hvecs⟩ => ?_
  rw [hvecs] at hnil
  cases hnil

variable {info : IntelligentInfo} {j p q : Nat} {s : Bytes} {choice : List Bytes}

theorem setSyllable_charactId : (info.setSyllable d j s).charactId = info.charactId := by
  rw [IntelligentInfo.setSyllable]
  split <;> rfl

theorem setSyllable_phoneticId : (info.setSyllable d j s).phoneticId =
    update info.phoneticId j (d.getPhoneticId s).toUInt16 := by
  rw [IntelligentInfo.setSyllable]
  split <;> rfl

theorem setSyllable_initialChar_of_ne (h : q ≠ j) :
    (info.setSyllable d j s).initialChar q = info.initialChar q := by
  rw [IntelligentInfo.setSyllable]
  split
  · exact update_of_ne h _ _
  · rfl

theorem setChoice_charactId : (info.setChoice d j choice).charactId = info.charactId := by
  induction choice generalizing info j with
  | nil => rfl
  | cons s choice ih => exact ih.trans setSyllable_charactId

theorem setChoice_below (h : q < j) :
    (info.setChoice d j choice).phoneticId q = info.phoneticId q ∧
      (info.setChoice d j choice).initialChar q = info.initialChar q := by
  induction choice generalizing info j with
  | nil => exact ⟨rfl, rfl⟩
  | cons s choice ih =>
    obtain ⟨hphonetic, hinitial⟩ := @ih (info.setSyllable d j s) (j + 1) (Nat.lt_succ_of_lt h)
    refine ⟨hphonetic.trans ?_, hinitial.trans (setSyllable_initialChar_of_ne h.ne)⟩
    rw [setSyllable_phoneticId, update_of_ne h.ne]

/-- Syllables are stored at the first positions only. -/
theorem setChoice_above (h : j + choice.length ≤ q) :
    (info.setChoice d j choice).phoneticId q = info.phoneticId q := by
  induction choice generalizing info j with
  | nil => rfl
  | cons s choice ih =>
    rw [length_cons] at h
    refine (@ih (info.setSyllable d j s) (j + 1) (by omega)).trans ?_
    rw [setSyllable_phoneticId, update_of_ne (by omega)]

theorem basicInfo_phoneticId : (basicInfo d p result info).phoneticId = info.phoneticId := by
  induction result generalizing info p with
  | nil => rfl
  | cons content result ih =>
    refine ih.trans ?_
    split <;> rfl

theorem basicInfo_below (h : q < p) :
    (basicInfo d p result info).charactId q = info.charactId q ∧
      (basicInfo d p result info).initialChar q = info.initialChar q := by
  induction result generalizing info p with
  | nil => exact ⟨rfl, rfl⟩
  | cons content result ih =>
    obtain ⟨hcharact, hinitial⟩ := @ih (if content.type = .chinese then
        info.setCharact p (d.getCharactId content.str)
      else info.setInitial p [content.str.headD 0]) (p + 1) (Nat.lt_succ_of_lt h)
    refine ⟨hcharact.trans ?_, hinitial.trans ?_⟩ <;> split
    · exact update_of_ne h.ne _ _
    · rfl
    · rfl
    · exact update_of_ne h.ne _ _

/-- A syllable below the contents may as well be stored before them. -/
theorem basicInfo_setSyllable (h : q < p) :
    (basicInfo d p result info).setSyllable d q s =
      basicInfo d p result (info.setSyllable d q s) := by
  induction result generalizing info p with
  | nil => rfl
  | cons content result ih =>
    refine (ih (Nat.lt_succ_of_lt h)).trans (congrArg (basicInfo d (p + 1) result) ?_)
    by_cases hs : 1 < s.length <;> by_cases hc : content.type = .chinese <;>
      simp only [IntelligentInfo.setSyllable, IntelligentInfo.setPhonetic,
        IntelligentInfo.setInitial, IntelligentInfo.setCharact, hs, hc, if_true, if_false]
    rw [update_comm h.ne]

theorem toNat_toUInt16 {id : UInt32} (h : id.toNat < 2 ^ 16) : id.toUInt16.toNat = id.toNat := by
  rw [UInt32.toNat_toUInt16, Nat.mod_eq_of_lt h]

theorem phoneticIdVecs_cons_chinese {content : Content} (h : content.type = .chinese) :
    phoneticIdVecs d (content :: result) =
      d.getPhonetic content.str :: phoneticIdVecs d result := by
  simp only [phoneticIdVecs, filter_cons, h, decide_true, if_true, map_cons]

/-- The letters at the end of a phrase. -/
theorem carries_letters (h : ∀ content ∈ result, content.type ≠ .chinese) :
    Carries d (basicInfo d p result info) p result [] := by
  induction result generalizing info p with
  | nil => exact .nil
  | cons content result ih =>
    have hletter := h content mem_cons_self
    refine .letter hletter ?_ (ih fun c hc => h c (mem_cons_of_mem _ hc))
    refine (basicInfo_below p.lt_succ_self).2.trans ?_
    rw [if_neg hletter]
    exact update_self _ _ _

theorem carries_setChoice (hfirst : ChineseFirst result) (hfit : IdsFit d result)
    (hchoice : List.Forall₂ (· ∈ ·) choice (phoneticIdVecs d result)) :
    Carries d ((basicInfo d p result info).setChoice d p choice) p result choice := by
  induction result generalizing info p choice with
  | nil =>
    cases hchoice
    exact .nil
  | cons content result ih =>
    obtain ⟨hhead, hfirst⟩ := pairwise_cons.mp hfirst
    by_cases hc : content.type = .chinese
    · rw [phoneticIdVecs_cons_chinese hc] at hchoice
      cases hchoice with
      | cons hs hchoice =>
      rename_i s choice
      obtain ⟨hcharact, hphonetic⟩ := hfit content mem_cons_self hc
      have hrest := @ih ((info.setCharact p (d.getCharactId content.str)).setSyllable d p s) (p + 1)
        choice hfirst (fun c h => hfit c (mem_cons_of_mem _ h)) hchoice
      have heq : ((basicInfo d p (content :: result) info).setChoice d p (s :: choice)) =
          ((basicInfo d (p + 1) result ((info.setCharact p (d.getCharactId content.str)).setSyllable
            d p s)).setChoice d (p + 1) choice) := by
        rw [IntelligentInfo.setChoice, ← basicInfo_setSyllable p.lt_succ_self, basicInfo, if_pos hc]
      rw [heq]
      refine .chinese hc ?_ ?_ (fun hlong => ?_) hrest
      · rw [setChoice_charactId, (basicInfo_below p.lt_succ_self).1, setSyllable_charactId]
        refine (congrArg UInt16.toNat (update_self _ _ _)).trans (toNat_toUInt16 hcharact)
      · rw [(setChoice_below p.lt_succ_self).1, basicInfo_phoneticId, setSyllable_phoneticId,
          update_self]
        exact toNat_toUInt16 (hphonetic s hs)
      · rw [(setChoice_below p.lt_succ_self).2, (basicInfo_below p.lt_succ_self).2,
          IntelligentInfo.setSyllable, if_pos hlong]
        exact update_self _ _ _
    · have hletters : ∀ c ∈ content :: result, c.type ≠ .chinese := by
        intro c hmem hchinese
        obtain rfl | hmem := mem_cons.mp hmem
        · exact hc hchinese
        · exact hc (hhead c hmem hchinese)
      have hvecs : phoneticIdVecs d (content :: result) = [] := by
        rw [phoneticIdVecs, filter_eq_nil_iff.mpr fun c h => by simpa using hletters c h]
        rfl
      rw [hvecs] at hchoice
      cases hchoice
      exact carries_letters hletters

/-! ## And when they do not -/

/-- A syllable has its id at the position of the character it is chosen for. -/
theorem Carries.phonetic_mem (h : Carries d info p result choice) :
    ∀ s ∈ choice, ∃ q, (info.phoneticId q).toNat = (d.getPhoneticId s).toNat := by
  induction h with
  | nil => exact fun s hs => nomatch hs
  | chinese _ _ hphonetic _ _ ih =>
    rintro s (_ | ⟨_, hs⟩)
    · exact ⟨_, hphonetic⟩
    · exact ih s hs
  | letter _ _ _ ih => exact ih

theorem Carries.charact_lt (h : Carries d info p result choice) :
    ∀ content ∈ result, content.type = .chinese → (d.getCharactId content.str).toNat < 2 ^ 16 := by
  induction h with
  | nil => exact fun c hc => nomatch hc
  | chinese _ hcharact _ _ _ ih =>
    rintro c (_ | ⟨_, hc⟩) hchinese
    · rw [← hcharact]
      exact UInt16.toNat_lt _
    · exact ih c hc hchinese
  | letter htype _ _ ih =>
    rintro c (_ | ⟨_, hc⟩) hchinese
    · exact absurd hchinese htype
    · exact ih c hc hchinese

/-- Every Chinese character has a known syllable at its position. -/
theorem Carries.phoneticId_ne_zero (h : Carries d info p result choice)
    (hknown : ∀ s ∈ choice, d.getPhoneticId s ≠ 0) {i : Nat} {content : Content}
    (hi : result[i]? = some content) (hchinese : content.type = .chinese) :
    info.phoneticId (p + i) ≠ 0 := by
  induction h generalizing i with
  | nil => simp at hi
  | @chinese _ _ _ s _ _ _ hphonetic _ _ ih =>
    cases i with
    | zero =>
      intro hzero
      have hs := hknown s mem_cons_self
      rw [Nat.add_zero] at hzero
      rw [hzero] at hphonetic
      exact hs (UInt32.toNat_inj.mp hphonetic.symm)
    | succ i =>
      have := ih (fun s hs => hknown s (mem_cons_of_mem _ hs)) (i := i) (by simpa using hi)
      rwa [Nat.add_right_comm] at this
  | letter htype _ _ ih =>
    cases i with
    | zero =>
      cases hi
      exact absurd hchinese htype
    | succ i =>
      have := ih hknown (i := i) (by simpa using hi)
      rwa [Nat.add_right_comm] at this

/-- Chinese characters that all stand below their number stand first. -/
theorem chineseFirst_of_lt (h : ∀ i content, result[i]? = some content →
    content.type = .chinese → i < result.countP fun content => content.type = .chinese) :
    ChineseFirst result := by
  induction result using List.reverseRecOn with
  | nil => exact .nil
  | append_singleton result last ih =>
    rw [ChineseFirst, pairwise_append]
    by_cases hlast : last.type = .chinese
    · have hlen := h result.length last (by simp) hlast
      rw [countP_append, countP_singleton, if_pos (by simpa using hlast)] at hlen
      have hall : ∀ c ∈ result, c.type = .chinese := by
        have hcount : result.countP (fun content => content.type = .chinese) = result.length :=
          le_antisymm countP_le_length (Nat.lt_succ_iff.mp hlen)
        simpa using countP_eq_length.mp hcount
      exact ⟨pairwise_of_forall_mem_list fun a ha b _ _ => hall a ha,
        pairwise_singleton _ _, fun a ha b _ _ => hall a ha⟩
    · refine ⟨ih fun i content hi hc => ?_, pairwise_singleton _ _,
        fun a _ b hb hchinese => ?_⟩
      · have hi' : (result ++ [last])[i]? = some content := by
          rw [List.getElem?_append_left (List.getElem?_eq_some_iff.mp hi).1, hi]
        have hlt := h i content hi' hc
        rwa [countP_append, countP_singleton, if_neg (by simpa using hlast),
          Nat.add_zero] at hlt
      · rw [mem_singleton.mp hb] at hchinese
        exact absurd hchinese hlast

theorem forall₂_exists_right {α β : Type} {R : α → β → Prop} {as : List α} {bs : List β}
    (h : List.Forall₂ R as bs) {a : α} (ha : a ∈ as) : ∃ b ∈ bs, R a b := by
  induction h with
  | nil => cases ha
  | cons hab _ ih =>
    rcases mem_cons.mp ha with rfl | ha
    · exact ⟨_, mem_cons_self, hab⟩
    · obtain ⟨b, hb, h⟩ := ih ha
      exact ⟨b, mem_cons_of_mem _ hb, h⟩

theorem forall₂_mem_exists {α : Type} {ls : List (List α)} (h : ∀ l ∈ ls, l ≠ []) :
    ∃ choice, List.Forall₂ (· ∈ ·) choice ls := by
  induction ls with
  | nil => exact ⟨[], .nil⟩
  | cons l ls ih =>
    obtain ⟨choice, hchoice⟩ := ih fun l hl => h l (mem_cons_of_mem _ hl)
    obtain ⟨a, ha⟩ := exists_mem_of_ne_nil l (h l mem_cons_self)
    exact ⟨a :: choice, .cons ha hchoice⟩

theorem forall₂_mem_exists_mem {α : Type} {ls : List (List α)} (h : ∀ l ∈ ls, l ≠ [])
    {l : List α} (hl : l ∈ ls) {a : α} (ha : a ∈ l) :
    ∃ choice, List.Forall₂ (· ∈ ·) choice ls ∧ a ∈ choice := by
  induction ls with
  | nil => cases hl
  | cons l' ls ih =>
    have htail : ∀ l ∈ ls, l ≠ [] := fun l hl => h l (mem_cons_of_mem _ hl)
    rcases mem_cons.mp hl with rfl | hl
    · obtain ⟨choice, hchoice⟩ := forall₂_mem_exists htail
      exact ⟨a :: choice, .cons ha hchoice, mem_cons_self⟩
    · obtain ⟨choice, hchoice, hmem⟩ := ih htail hl
      obtain ⟨b, hb⟩ := exists_mem_of_ne_nil l' (h l' mem_cons_self)
      exact ⟨b :: choice, .cons hb hchoice, mem_cons_of_mem _ hmem⟩

theorem mem_phoneticIdVecs {vec : List Bytes} : vec ∈ phoneticIdVecs d result ↔
    ∃ content ∈ result, content.type = .chinese ∧ d.getPhonetic content.str = vec := by
  simp only [phoneticIdVecs, mem_map, mem_filter, decide_eq_true_eq, and_assoc]

theorem Known.vecs_ne_nil (h : Known d result) : ∀ vec ∈ phoneticIdVecs d result, vec ≠ [] := by
  intro vec hvec
  obtain ⟨content, hmem, hchinese, rfl⟩ := mem_phoneticIdVecs.mp hvec
  exact h.nonempty content hmem hchinese

theorem Known.choice_ne_zero (h : Known d result)
    (hchoice : List.Forall₂ (· ∈ ·) choice (phoneticIdVecs d result)) :
    ∀ s ∈ choice, d.getPhoneticId s ≠ 0 := by
  intro s hs
  obtain ⟨vec, hvec, hmem⟩ := forall₂_exists_right hchoice hs
  obtain ⟨content, hcontent, hchinese, rfl⟩ := mem_phoneticIdVecs.mp hvec
  exact h.phonetic content hcontent hchinese s hmem

/-- Every choice has an info among those of `ConvertIntelligent`. -/
theorem Enumerates.exists_carries
    (hprod : ((phoneticIdVecs d result).map List.length).prod < 2 ^ 31)
    (h : Enumerates d result (convertIntelligent d result))
    (hchoice : List.Forall₂ (· ∈ ·) choice (phoneticIdVecs d result)) :
    ∃ choice', choice'.length = choice.length ∧
      Carries d ((basicInfo d 0 result {}).setChoice d 0 choice') 0 result choice := by
  obtain ⟨choices, hperm, hall⟩ := h
  obtain ⟨info, hinfo, hcarries⟩ :=
    forall₂_exists_right hall (hperm.mem_iff.mpr (mem_sections.mpr hchoice))
  rw [convertIntelligent_eq hprod] at hinfo
  obtain ⟨choice', hmem, rfl⟩ := mem_map.mp hinfo
  exact ⟨choice', (mem_sections.mp hmem).length_eq.trans hchoice.length_eq.symm, hcarries⟩

theorem chineseFirst_of_enumerates (hknown : Known d result)
    (hprod : ((phoneticIdVecs d result).map List.length).prod < 2 ^ 31)
    (h : Enumerates d result (convertIntelligent d result)) : ChineseFirst result := by
  obtain ⟨choice, hchoice⟩ := forall₂_mem_exists hknown.vecs_ne_nil
  obtain ⟨choice', hlen, hcarries⟩ := h.exists_carries hprod hchoice
  refine chineseFirst_of_lt fun i content hi hchinese => ?_
  by_contra hge
  refine hcarries.phoneticId_ne_zero (hknown.choice_ne_zero hchoice) hi hchinese ?_
  have hcount : (phoneticIdVecs d result).length =
      result.countP fun content => content.type = .chinese := by
    rw [phoneticIdVecs, length_map, countP_eq_length_filter]
  rw [setChoice_above (by rw [hlen, hchoice.length_eq, hcount]; omega), basicInfo_phoneticId]

theorem idsFit_of_enumerates (hknown : Known d result)
    (hprod : ((phoneticIdVecs d result).map List.length).prod < 2 ^ 31)
    (h : Enumerates d result (convertIntelligent d result)) : IdsFit d result := by
  intro content hcontent hchinese
  refine ⟨?_, fun s hs => ?_⟩
  · obtain ⟨choice, hchoice⟩ := forall₂_mem_exists hknown.vecs_ne_nil
    obtain ⟨_, -, hcarries⟩ := h.exists_carries hprod hchoice
    exact hcarries.charact_lt content hcontent hchinese
  · obtain ⟨choice, hchoice, hmem⟩ := forall₂_mem_exists_mem hknown.vecs_ne_nil
      (mem_phoneticIdVecs.mpr ⟨content, hcontent, hchinese, rfl⟩) hs
    obtain ⟨_, -, hcarries⟩ := h.exists_carries hprod hchoice
    obtain ⟨q, hq⟩ := hcarries.phonetic_mem s hmem
    rw [← hq]
    exact UInt16.toNat_lt _

theorem enumerates_of_chineseFirst
    (hprod : ((phoneticIdVecs d result).map List.length).prod < 2 ^ 31)
    (hfirst : ChineseFirst result) (hfit : IdsFit d result) :
    Enumerates d result (convertIntelligent d result) := by
  refine ⟨_, .refl _, ?_⟩
  rw [convertIntelligent_eq hprod, forall₂_map_right_iff, forall₂_same]
  exact fun choice hchoice => carries_setChoice hfirst hfit (mem_sections.mp hchoice)

/-- `ConvertIntelligent` enumerates the readings of the phrases that have no Chinese character
behind a letter, as long as their ids have 16 bits. -/
theorem convertIntelligent_enumerates_iff (hknown : Known d result)
    (hprod : ((phoneticIdVecs d result).map List.length).prod < 2 ^ 31) :
    Enumerates d result (convertIntelligent d result) ↔ ChineseFirst result ∧ IdsFit d result :=
  ⟨fun h => ⟨chineseFirst_of_enumerates hknown hprod h, idsFit_of_enumerates hknown hprod h⟩,
    fun ⟨hfirst, hfit⟩ => enumerates_of_chineseFirst hprod hfirst hfit⟩

/-- One character, of two syllables: 重 is chong and zhong. -/
def heavyDictionary : Dictionary where
  charactMap charact := if charact = [0xe9, 0x87, 0x8d] then some 7 else none
  phoneticMap phonetic :=
    if phonetic = [99, 104, 111, 110, 103] then some 1
    else if phonetic = [122, 104, 111, 110, 103] then some 2 else none
  charactPhoneticMap charact :=
    if charact = [0xe9, 0x87, 0x8d] then [[99, 104, 111, 110, 103], [122, 104, 111, 110, 103]]
    else []

def heavy : Content := ⟨.chinese, [0xe9, 0x87, 0x8d]⟩

def letterA : Content := ⟨.initial, [97]⟩

theorem known_heavy (h : ∀ content ∈ result, content = heavy ∨ content = letterA) :
    Known heavyDictionary result := by
  refine ⟨fun content hc hchinese => ?_, fun content hc hchinese => ?_,
    fun content hc hchinese => ?_⟩ <;> obtain rfl | rfl := h content hc
  · decide
  · cases hchinese
  · decide
  · cases hchinese
  · decide
  · cases hchinese

theorem enumerates_heavy_a : Enumerates heavyDictionary [heavy, letterA]
    (convertIntelligent heavyDictionary [heavy, letterA]) :=
  (convertIntelligent_enumerates_iff (known_heavy (by decide)) (by decide)).mpr
    ⟨by decide, by decide⟩

/-- Behind a letter, the syllable stands in the wrong column. -/
theorem not_enumerates_a_heavy : ¬Enumerates heavyDictionary [letterA, heavy]
    (convertIntelligent heavyDictionary [letterA, heavy]) := fun h =>
  absurd (chineseFirst_of_enumerates (known_heavy (by decide)) (by decide) h) (by decide)

end ISearch.Intelligent

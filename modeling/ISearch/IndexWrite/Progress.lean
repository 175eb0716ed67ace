import ISearch.IndexWrite.Requests

/-!
# How far a request gets

The loop over the fields stops at the first field that cannot be converted, parsed or inserted.
`progress` says where, from the request and the postings that exist before; the keys that were
noted, the pinyin rows that were written and the command contexts that are left follow from it.
-/

namespace ISearch.IndexWrite

open List

variable {C : Type} (t : AddRequest C) (v : Nat)

/-- Where the loop over the fields stops. -/
inductive Stop where
  | done
  | convert (f : Field)
  | parse (f : Field)
  | hanpin (f : Field)
  | word (f : Field) (tried : List Word)
  deriving DecidableEq, Repr

/-- The words up to the first whose insert fails, and whether none fails. -/
def triedWords (present : KeywordRow → Bool) (field : Nat) : List Word → List Word × Bool
  | [] => ([], true)
  | w :: words =>
    let row := Manager.keywordRow t v field w.key
    if w.fails || present row then ([w], false)
    else
      let (tried, ok) := triedWords (Function.update present row true) field words
      (w :: tried, ok)

/-- The postings after the words of a field. -/
def withWords (present : KeywordRow → Bool) (field : Nat) (words : List Word) :
    KeywordRow → Bool :=
  fun row => present row || words.any fun w => row = Manager.keywordRow t v field w.key

/-- The fields that are indexed, and why there are no more. -/
def progress (present : KeywordRow → Bool) : List Field → List Field × Stop
  | [] => ([], .done)
  | f :: fields =>
    if f.indexed = false then
      let (fs, stop) := progress present fields
      (f :: fs, stop)
    else if f.converts = false then ([], .convert f)
    else if f.isReady = false ∨ f.generateError.isSome then ([], .parse f)
    else if f.intelligentInfo.any id then ([], .hanpin f)
    else match triedWords t v present f.fieldId f.words with
      | (_, true) =>
        let (fs, stop) := progress (withWords t v present f.fieldId f.words) fields
        (f :: fs, stop)
      | (tried, false) => ([], .word f tried)

theorem progress_of_done {present : KeywordRow → Bool} {fields : List Field}
    (h : (progress t v present fields).2 = .done) : (progress t v present fields).1 = fields := by
  induction fields generalizing present with
  | nil => rfl
  | cons f fields ih =>
    rw [progress] at h ⊢
    split at h
    next hindexed =>
      rw [if_pos hindexed]
      exact congrArg (f :: ·) (ih h)
    next hindexed =>
      rw [if_neg hindexed]
      split at h
      · cases h
      next hconverts =>
        rw [if_neg hconverts]
        split at h
        · cases h
        next hparse =>
          rw [if_neg hparse]
          split at h
          · cases h
          next hhanpin =>
            rw [if_neg hhanpin]
            split at h
            · exact congrArg (f :: ·) (ih h)
            · cases h

/-- The keys that an indexed field notes. -/
def Field.keys (f : Field) : FormatKey :=
  if f.indexed then f.words.map fun w => (f.fieldId, w.key) else []

/-- The pinyin row that an indexed field writes. -/
def Field.hanpinRows (f : Field) : List HanpinRow :=
  if f.indexed ∧ f.intelligentInfo ≠ [] then [Manager.hanpinRow t v f] else []

/-- The key for the rollback of it, in the parser of a type. -/
def Field.intelligentKeys (type : FieldType) (f : Field) : List Nat :=
  if f.indexed ∧ f.intelligentInfo ≠ [] ∧ f.fieldType = type then [f.fieldId] else []

namespace Stop

def keys : Stop → FormatKey
  | word f tried => tried.map fun w => (f.fieldId, w.key)
  | _ => []

/-- The pinyin rows are written before the words, as far as their inserts go. -/
def hanpinRows : Stop → List HanpinRow
  | hanpin f => if f.intelligentInfo.head? = some false then [Manager.hanpinRow t v f] else []
  | word f _ => if f.intelligentInfo ≠ [] then [Manager.hanpinRow t v f] else []
  | _ => []

def intelligentKeys (type : FieldType) : Stop → List Nat
  | word f _ => if f.intelligentInfo ≠ [] ∧ f.fieldType = type then [f.fieldId] else []
  | _ => []

/-- The command context of a type is cleared by every field of that type but one that cannot be
converted. -/
def insertParam (type : FieldType) : Stop → InsertParam
  | convert f =>
    if f.fieldType = type then { docId := t.doc.docId, transVersion := v } else {}
  | _ => {}

def code : Stop → RetCode
  | done => .ok
  | convert _ => .errorCmdTransform
  | parse f =>
    if f.isReady = false then .errorIllegalParseCmd
    else (f.generateError.map GenerateError.code).getD .errorFieldFormat
  | hanpin _ => .errorInsertIndexDtc
  | word _ _ => .errorInsertIndexDtc

theorem code_parse_ne (f : Field) : (parse f).code ≠ .ok := by
  rw [code]
  split
  · exact RetCode.noConfusion
  · cases f.generateError with
    | none => exact RetCode.noConfusion
    | some error => cases error <;> exact RetCode.noConfusion

theorem code_eq_ok {stop : Stop} : stop.code = .ok ↔ stop = .done := by
  constructor
  · intro h
    cases stop with
    | done => rfl
    | convert f => cases h
    | parse f => exact absurd h (code_parse_ne f)
    | hanpin f => cases h
    | word f tried => cases h
  · rintro rfl
    rfl

end Stop

namespace Manager

variable {t : AddRequest C} {v : Nat} {m m' m'' : Manager C} {keys keys' : FormatKey}
  {rows rows' : List HanpinRow}

/-- What the loop does on the way from `m` to `m'`: it notes keys and inserts postings of some of
them, and writes pinyin rows. -/
structure Wrote (t : AddRequest C) (v : Nat) (m m' : Manager C) (keys : FormatKey)
    (rows : List HanpinRow) : Prop where
  snapshot : m'.store.snapshot = m.store.snapshot
  docidIndex : m'.store.docidIndex = m.store.docidIndex
  pending : m'.store.pending = m.store.pending
  formatKey : m'.formatKey = m.formatKey ++ keys
  keeps : ∀ {row}, m.store.keyword row = true → m'.store.keyword row = true
  only : ∀ {row}, m'.store.keyword row = true →
    m.store.keyword row = true ∨ ∃ k ∈ keys, row = keywordRow t v k.1 k.2
  hanpin : ∀ {row}, m'.store.hanpin row = true ↔ m.store.hanpin row = true ∨ row ∈ rows

namespace Wrote

theorem refl (t : AddRequest C) (v : Nat) (m : Manager C) : Wrote t v m m [] [] where
  snapshot := rfl
  docidIndex := rfl
  pending := rfl
  formatKey := (append_nil _).symm
  keeps h := h
  only h := .inl h
  hanpin := by simp

theorem trans (h : Wrote t v m m' keys rows) (h' : Wrote t v m' m'' keys' rows') :
    Wrote t v m m'' (keys ++ keys') (rows ++ rows') where
  snapshot := h'.snapshot.trans h.snapshot
  docidIndex := h'.docidIndex.trans h.docidIndex
  pending := h'.pending.trans h.pending
  formatKey := by rw [h'.formatKey, h.formatKey, append_assoc]
  keeps hrow := h'.keeps (h.keeps hrow)
  only hrow := by
    rcases h'.only hrow with hrow | ⟨k, hk, rfl⟩
    · rcases h.only hrow with hrow | ⟨k, hk, rfl⟩
      · exact .inl hrow
      · exact .inr ⟨k, mem_append_left keys' hk, rfl⟩
    · exact .inr ⟨k, mem_append_right keys hk, rfl⟩
  hanpin := by
    intro row
    rw [h'.hanpin, h.hanpin, mem_append, or_assoc]

/-- The command contexts and the keys of the parsers do not matter. -/
theorem congr (h : Wrote t v m m' keys rows) (hstore : m''.store = m'.store)
    (hformat : m''.formatKey = m'.formatKey) : Wrote t v m m'' keys rows := by
  obtain ⟨store, cmdCont, intelligentKeys, formatKey⟩ := m''
  obtain rfl : store = m'.store := hstore
  obtain rfl : formatKey = m'.formatKey := hformat
  exact ⟨h.snapshot, h.docidIndex, h.pending, h.formatKey, h.keeps, h.only, h.hanpin⟩

theorem setCmdContext (h : Wrote t v m m' keys rows) (type : FieldType) (param : InsertParam) :
    Wrote t v m (m'.setCmdContext type param) keys rows :=
  h.congr rfl rfl

end Wrote

theorem andThen_of_eq {r : RetCode × Manager C} {next : Manager C → RetCode × Manager C}
    (h : r.1 = .ok) : andThen r next = next r.2 := by
  obtain ⟨ret, m⟩ := r
  cases h
  rfl

theorem andThen_of_ne {r : RetCode × Manager C} {next : Manager C → RetCode × Manager C}
    (h : r.1 ≠ .ok) : andThen r next = r := by
  unfold andThen
  split
  · exact absurd rfl h
  · rfl

/-! ### The words of a field -/

/-- One word, noted and perhaps inserted. -/
theorem wrote_word (field : Nat) (key : String) (inserted : Bool) :
    Wrote t v m
      { m with
        formatKey := m.formatKey ++ [(field, key)]
        store := if inserted then m.store.insertKeyword (keywordRow t v field key) else m.store }
      [(field, key)] [] := by
  cases inserted with
  | false => exact ⟨rfl, rfl, rfl, rfl, fun h => h, .inl, by simp⟩
  | true =>
    refine ⟨rfl, rfl, rfl, rfl, ?_, ?_, by simp [Store.insertKeyword]⟩
    · intro row hrow
      by_cases h : row = keywordRow t v field key
      · simp [Store.insertKeyword, h]
      · simpa [Store.insertKeyword, h] using hrow
    · intro row hrow
      by_cases h : row = keywordRow t v field key
      · exact .inr ⟨_, mem_singleton_self _, h⟩
      · exact .inl (by simpa [Store.insertKeyword, h] using hrow)

theorem insertWords_spec (m : Manager C) (field : Nat) (words : List Word) :
    (m.insertWords t v field words).1 =
        (if (triedWords t v m.store.keyword field words).2 then .ok else .errorInsertIndexDtc) ∧
      Wrote t v m (m.insertWords t v field words).2
        ((triedWords t v m.store.keyword field words).1.map fun w => (field, w.key)) [] ∧
      (m.insertWords t v field words).2.intelligentKeys = m.intelligentKeys := by
  induction words generalizing m with
  | nil => exact ⟨rfl, Wrote.refl t v m, rfl⟩
  | cons w words ih =>
    rw [insertWords, triedWords]
    dsimp only
    by_cases hfails : (w.fails || m.store.keyword (keywordRow t v field w.key)) = true
    · rw [if_pos hfails, if_pos hfails]
      exact ⟨rfl, wrote_word field w.key false, rfl⟩
    · rw [if_neg hfails, if_neg hfails]
      have hword := wrote_word (t := t) (v := v) (m := m) field w.key true
      obtain ⟨hret, hwrote, hkeys⟩ := ih _
      exact ⟨hret, hword.trans hwrote, hkeys⟩

theorem withWords_cons (present : KeywordRow → Bool) (field : Nat) (w : Word) (words : List Word) :
    withWords t v (Function.update present (keywordRow t v field w.key) true) field words =
      withWords t v present field (w :: words) := by
  funext row
  by_cases h : row = keywordRow t v field w.key
  · simp [withWords, h]
  · simp [withWords, h]

/-- When no insert fails, all words are in the table. -/
theorem keyword_insertWords (m : Manager C) (field : Nat) (words : List Word)
    (hok : (triedWords t v m.store.keyword field words).2 = true) :
    (m.insertWords t v field words).2.store.keyword =
        withWords t v m.store.keyword field words ∧
      (triedWords t v m.store.keyword field words).1 = words := by
  induction words generalizing m with
  | nil => exact ⟨by funext row; simp [withWords, insertWords], rfl⟩
  | cons w words ih =>
    rw [triedWords] at hok ⊢
    rw [insertWords]
    dsimp only at hok ⊢
    by_cases hfails : (w.fails || m.store.keyword (keywordRow t v field w.key)) = true
    · rw [if_pos hfails] at hok
      cases hok
    · rw [if_neg hfails] at hok ⊢
      rw [if_neg hfails, ← withWords_cons]
      obtain ⟨hkeyword, htried⟩ := ih { m with
        formatKey := m.formatKey ++ [(field, w.key)]
        store := m.store.insertKeyword (keywordRow t v field w.key) } hok
      exact ⟨hkeyword, congrArg (w :: ·) htried⟩

theorem doInsertIntelligent_fst (s : Store C) (row : HanpinRow) (fails : List Bool) :
    (doInsertIntelligent s row fails).1 = !fails.any id := by
  induction fails generalizing s with
  | nil => rfl
  | cons b fails ih =>
    cases b with
    | true => rfl
    | false => exact ih _

theorem doInsertIntelligent_snd (s : Store C) (row : HanpinRow) (fails : List Bool) :
    (doInsertIntelligent s row fails).2 =
      if fails.head? = some false then s.insertHanpin row else s := by
  induction fails generalizing s with
  | nil => rfl
  | cons b fails ih =>
    cases b with
    | true => rfl
    | false =>
      rw [doInsertIntelligent, if_neg Bool.false_ne_true, ih]
      simp [Store.insertHanpin]

theorem wrote_hanpin (m : Manager C) (row : HanpinRow) :
    Wrote t v m { m with store := m.store.insertHanpin row } [] [row] := by
  refine ⟨rfl, rfl, rfl, (append_nil _).symm, fun h => h, .inl, ?_⟩
  intro r
  by_cases h : r = row
  · simp [Store.insertHanpin, h]
  · simp [Store.insertHanpin, h]

/-! ### A field -/

theorem startParser_parse {f : Field} (m : Manager C)
    (hparse : f.isReady = false ∨ f.generateError.isSome = true) :
    m.startParser t v f = ((Stop.parse f).code, m.setCmdContext f.fieldType {}) := by
  rw [startParser, Stop.code]
  by_cases hready : f.isReady = false
  · rw [if_pos hready, if_pos hready]
  · rw [if_neg hready, if_neg hready]
    cases herror : f.generateError with
    | none => simp [hready, herror] at hparse
    | some error => rfl

theorem startParser_of_parsed {f : Field} (m : Manager C)
    (hparse : ¬ (f.isReady = false ∨ f.generateError.isSome = true)) :
    m.startParser t v f =
      ((m.insertDtcTable t v f).1, (m.insertDtcTable t v f).2.setCmdContext f.fieldType {}) := by
  obtain ⟨hready, herror⟩ := not_or.mp hparse
  unfold startParser
  rw [if_neg hready, Option.not_isSome_iff_eq_none.mp herror]

theorem cmdCont_insertWords (m : Manager C) (field : Nat) (words : List Word) :
    (m.insertWords t v field words).2.cmdCont = m.cmdCont := by
  induction words generalizing m with
  | nil => rfl
  | cons w words ih =>
    rw [insertWords]
    dsimp only
    split
    · rfl
    · exact ih _

theorem cmdCont_insertDtcTable (m : Manager C) (f : Field) :
    (m.insertDtcTable t v f).2.cmdCont = m.cmdCont := by
  unfold insertDtcTable
  split
  · exact cmdCont_insertWords m f.fieldId f.words
  · split
    · rfl
    · exact cmdCont_insertWords _ f.fieldId f.words

/-- A pinyin row cannot be inserted. -/
theorem insertDtcTable_hanpin {f : Field} (m : Manager C) (hany : f.intelligentInfo.any id = true) :
    (m.insertDtcTable t v f).1 = .errorInsertIndexDtc ∧
      Wrote t v m (m.insertDtcTable t v f).2 [] ((Stop.hanpin f).hanpinRows t v) ∧
      (m.insertDtcTable t v f).2.intelligentKeys = m.intelligentKeys := by
  have hne : f.intelligentInfo ≠ [] := by
    rintro hnil
    rw [hnil] at hany
    cases hany
  have hfst := doInsertIntelligent_fst m.store (hanpinRow t v f) f.intelligentInfo
  have hsnd := doInsertIntelligent_snd m.store (hanpinRow t v f) f.intelligentInfo
  unfold insertDtcTable
  rw [if_neg hne]
  rw [hany, Bool.not_true] at hfst
  split
  next store heq =>
    rw [heq] at hsnd
    refine ⟨rfl, ?_, rfl⟩
    unfold Stop.hanpinRows
    dsimp only at hsnd ⊢
    subst hsnd
    by_cases hhead : f.intelligentInfo.head? = some false
    · rw [if_pos hhead, if_pos hhead]
      exact wrote_hanpin m (hanpinRow t v f)
    · rw [if_neg hhead, if_neg hhead]
      exact Wrote.refl t v m
  next store heq =>
    rw [heq] at hfst
    cases hfst

/-- The words of a field are inserted after its pinyin rows. -/
theorem insertDtcTable_words {f : Field} (m : Manager C)
    (hany : ¬ f.intelligentInfo.any id = true) :
    (m.insertDtcTable t v f).1 =
        (if (triedWords t v m.store.keyword f.fieldId f.words).2 then .ok
          else .errorInsertIndexDtc) ∧
      Wrote t v m (m.insertDtcTable t v f).2
        ((triedWords t v m.store.keyword f.fieldId f.words).1.map fun w => (f.fieldId, w.key))
        (if f.intelligentInfo ≠ [] then [hanpinRow t v f] else []) ∧
      (∀ type, (m.insertDtcTable t v f).2.intelligentKeys type = m.intelligentKeys type ++
        if f.intelligentInfo ≠ [] ∧ f.fieldType = type then [f.fieldId] else []) ∧
      ((triedWords t v m.store.keyword f.fieldId f.words).2 = true →
        (m.insertDtcTable t v f).2.store.keyword =
          withWords t v m.store.keyword f.fieldId f.words) := by
  unfold insertDtcTable
  by_cases hnil : f.intelligentInfo = []
  · rw [if_pos hnil]
    obtain ⟨hret, hwrote, hkeys⟩ := insertWords_spec (t := t) (v := v) m f.fieldId f.words
    refine ⟨hret, ?_, ?_, fun hok => (keyword_insertWords m f.fieldId f.words hok).1⟩
    · simpa [hnil] using hwrote
    · intro type
      simp [hnil, hkeys]
  · rw [if_neg hnil]
    have hfst := doInsertIntelligent_fst m.store (hanpinRow t v f) f.intelligentInfo
    have hsnd := doInsertIntelligent_snd m.store (hanpinRow t v f) f.intelligentInfo
    have hhead : f.intelligentInfo.head? = some false := by
      cases hinfo : f.intelligentInfo with
      | nil => exact absurd hinfo hnil
      | cons b rest =>
        rw [hinfo, any_cons, Bool.or_eq_true, not_or] at hany
        simpa using hany.1
    rw [Bool.eq_false_iff.mpr hany, Bool.not_false] at hfst
    rw [if_pos hhead] at hsnd
    split
    next store heq =>
      rw [heq] at hfst
      cases hfst
    next store heq =>
      rw [heq] at hsnd
      subst hsnd
      let m₁ := { m with store := m.store.insertHanpin (hanpinRow t v f) }.pushIntelligentKey f
      have hhanpin : Wrote t v m m₁ [] [hanpinRow t v f] :=
        (wrote_hanpin m (hanpinRow t v f)).congr rfl rfl
      obtain ⟨hret, hwrote, hkeys⟩ := insertWords_spec (t := t) (v := v) m₁ f.fieldId f.words
      refine ⟨hret, ?_, ?_, fun hok => (keyword_insertWords m₁ f.fieldId f.words hok).1⟩
      · rw [if_pos hnil]
        exact hhanpin.trans hwrote
      · intro type
        rw [hkeys]
        by_cases htype : f.fieldType = type
        · subst htype
          simp [m₁, pushIntelligentKey, hnil]
        · simp [m₁, pushIntelligentKey, htype, Ne.symm htype]

/-! ### The loop -/

end Manager

/-- The keys noted by the fields that were indexed and where the loop stopped. -/
def notedKeys (p : List Field × Stop) : FormatKey := p.1.flatMap Field.keys ++ p.2.keys

def hanpinWritten (p : List Field × Stop) : List HanpinRow :=
  p.1.flatMap (Field.hanpinRows t v) ++ p.2.hanpinRows t v

def intelligentNoted (type : FieldType) (p : List Field × Stop) : List Nat :=
  p.1.flatMap (Field.intelligentKeys type) ++ p.2.intelligentKeys type

namespace Manager

variable {t v} {m : Manager C}

/-- The loop up to where it stops. -/
structure Indexed (t : AddRequest C) (v : Nat) (m : Manager C) (r : RetCode × Manager C)
    (p : List Field × Stop) : Prop where
  ret : r.1 = p.2.code
  wrote : Wrote t v m r.2 (notedKeys p) (hanpinWritten t v p)
  words : ∀ k ∈ p.1.flatMap Field.keys, r.2.store.keyword (keywordRow t v k.1 k.2) = true
  intelligentKeys : ∀ type, r.2.intelligentKeys type =
    m.intelligentKeys type ++ intelligentNoted type p
  cmdCont : ∀ type, m.cmdCont type = {} ∨ intelligentNoted type p ≠ [] →
    r.2.cmdCont type = p.2.insertParam t v type

theorem indexed_nil : Indexed t v m (.ok, m) ([], .done) where
  ret := rfl
  wrote := Wrote.refl t v m
  words _ hk := absurd hk not_mem_nil
  intelligentKeys _ := (append_nil _).symm
  cmdCont _ h := h.resolve_right fun hne => hne rfl

theorem cmdCont_setCmdContext (m : Manager C) (type type' : FieldType) (param : InsertParam) :
    (m.setCmdContext type param).cmdCont type' =
      if type' = type then param else m.cmdCont type' := by
  by_cases h : type' = type
  · subst h
    simp [setCmdContext]
  · simp [setCmdContext, h]

/-- A field that stops the loop leaves its command context cleared, unless it cannot be
converted. -/
theorem indexed_stop {f : Field} {stop : Stop} {r : RetCode × Manager C} (hret : r.1 = stop.code)
    (hwrote : Wrote t v m r.2 stop.keys (stop.hanpinRows t v))
    (hkeys : ∀ type, r.2.intelligentKeys type =
      m.intelligentKeys type ++ stop.intelligentKeys type)
    (hcont : ∀ type, r.2.cmdCont type =
      if type = f.fieldType then stop.insertParam t v type else m.cmdCont type)
    (hother : ∀ type, type ≠ f.fieldType →
      stop.intelligentKeys type = [] ∧ stop.insertParam t v type = {}) :
    Indexed t v m r ([], stop) where
  ret := hret
  wrote := hwrote
  words _ hk := absurd hk not_mem_nil
  intelligentKeys := hkeys
  cmdCont type h := by
    rw [hcont]
    split
    · rfl
    next htype =>
      obtain ⟨hnil, hclear⟩ := hother type htype
      rw [hclear]
      exact h.resolve_right fun hne => hne hnil

/-- A field that is indexed, or that is not to be, and the rest of the loop. -/
theorem Indexed.cons {f : Field} {m₁ : Manager C} {r : RetCode × Manager C}
    {p : List Field × Stop} (h : Indexed t v m₁ r p)
    (hwrote : Wrote t v m m₁ f.keys (f.hanpinRows t v))
    (hwords : ∀ k ∈ f.keys, m₁.store.keyword (keywordRow t v k.1 k.2) = true)
    (hkeys : ∀ type, m₁.intelligentKeys type = m.intelligentKeys type ++ f.intelligentKeys type)
    (hcont : ∀ type, m.cmdCont type = {} ∨ f.intelligentKeys type ≠ [] → m₁.cmdCont type = {}) :
    Indexed t v m r (f :: p.1, p.2) where
  ret := h.ret
  wrote := by
    have htrans := hwrote.trans h.wrote
    simpa only [notedKeys, hanpinWritten, flatMap_cons, append_assoc] using htrans
  words k hk := by
    rw [flatMap_cons, mem_append] at hk
    rcases hk with hk | hk
    · exact h.wrote.keeps (hwords k hk)
    · exact h.words k hk
  intelligentKeys type := by
    rw [h.intelligentKeys, hkeys]
    simp only [intelligentNoted, flatMap_cons, append_assoc]
  cmdCont type hclear := by
    apply h.cmdCont
    rcases hclear with hclear | hne
    · exact .inl (hcont type (.inl hclear))
    · by_cases hf : f.intelligentKeys type = []
      · right
        simpa [intelligentNoted, hf] using hne
      · exact .inl (hcont type (.inr hf))

theorem indexFields_spec (m : Manager C) (fields : List Field) :
    Indexed t v m (m.indexFields t v fields) (progress t v m.store.keyword fields) := by
  induction fields generalizing m with
  | nil => exact indexed_nil
  | cons f fields ih =>
    rw [indexFields, progress]
    by_cases hindexed : f.indexed = false
    · rw [if_pos hindexed, if_pos hindexed]
      have hskip : Wrote t v m m f.keys (f.hanpinRows t v) := by
        simpa [Field.keys, Field.hanpinRows, hindexed] using Wrote.refl t v m
      exact (ih m).cons hskip (by simp [Field.keys, hindexed])
        (by simp [Field.intelligentKeys, hindexed])
        (by simp [Field.intelligentKeys, hindexed])
    have hindexed' : f.indexed = true := by simpa using hindexed
    rw [if_neg hindexed, if_neg hindexed]
    dsimp only
    by_cases hconverts : f.converts = false
    · rw [if_pos hconverts, if_pos hconverts]
      apply indexed_stop (f := f)
      · rfl
      · exact (Wrote.refl t v m).setCmdContext _ _
      · exact fun type => (append_nil _).symm
      · intro type
        rw [cmdCont_setCmdContext]
        split
        next htype => simp [Stop.insertParam, htype]
        · rfl
      · exact fun type htype => ⟨rfl, by simp [Stop.insertParam, Ne.symm htype]⟩
    rw [if_neg hconverts, if_neg hconverts]
    let m₁ := m.setCmdContext f.fieldType { docId := t.doc.docId, transVersion := v }
    have hstart : Wrote t v m m₁ [] [] := (Wrote.refl t v m).setCmdContext _ _
    have hcont₁ : ∀ type, type ≠ f.fieldType → m₁.cmdCont type = m.cmdCont type := by
      intro type htype
      exact (cmdCont_setCmdContext m f.fieldType type _).trans (if_neg htype)
    have hcleared (m' : Manager C) (h : m'.cmdCont = m₁.cmdCont) (type : FieldType) :
        (m'.setCmdContext f.fieldType {}).cmdCont type =
          if type = f.fieldType then {} else m.cmdCont type := by
      rw [cmdCont_setCmdContext, h]
      split
      · rfl
      next htype => exact hcont₁ type htype
    by_cases hparse : f.isReady = false ∨ f.generateError.isSome = true
    · rw [if_pos hparse, startParser_parse _ hparse, andThen_of_ne (Stop.code_parse_ne f)]
      apply indexed_stop (f := f)
      · rfl
      · exact hstart.setCmdContext f.fieldType {}
      · exact fun type => (append_nil _).symm
      · exact hcleared m₁ rfl
      · exact fun type _ => ⟨rfl, rfl⟩
    rw [if_neg hparse, startParser_of_parsed _ hparse]
    have hcont := cmdCont_insertDtcTable (t := t) (v := v) m₁ f
    by_cases hany : f.intelligentInfo.any id = true
    · obtain ⟨hret, hwrote, hkeys⟩ := insertDtcTable_hanpin (t := t) (v := v) m₁ hany
      rw [if_pos hany, andThen_of_ne (by rw [hret]; exact RetCode.noConfusion)]
      apply indexed_stop (f := f)
      · exact hret
      · exact (hstart.trans hwrote).setCmdContext f.fieldType {}
      · intro type
        exact (congrFun hkeys type).trans (append_nil _).symm
      · exact hcleared _ hcont
      · exact fun type _ => ⟨rfl, rfl⟩
    rw [if_neg hany]
    obtain ⟨hret, hwrote, hkeys, hkeyword⟩ := insertDtcTable_words (t := t) (v := v) m₁ hany
    have hwrote := (hstart.trans hwrote).setCmdContext f.fieldType {}
    have hpresent : m₁.store.keyword = m.store.keyword := rfl
    rw [hpresent] at hret hwrote hkeyword
    obtain ⟨tried, ok, htried⟩ : ∃ tried ok,
      triedWords t v m.store.keyword f.fieldId f.words = (tried, ok) := ⟨_, _, rfl⟩
    rw [htried] at hret hwrote hkeyword ⊢
    cases ok with
    | false =>
      rw [andThen_of_ne (by rw [hret]; exact RetCode.noConfusion)]
      apply indexed_stop (f := f)
      · exact hret
      · exact hwrote
      · exact hkeys
      · exact hcleared _ hcont
      · intro type htype
        exact ⟨by simp [Stop.intelligentKeys, Ne.symm htype], rfl⟩
    | true =>
      obtain rfl : tried = f.words := by
        have hall := (keyword_insertWords m f.fieldId f.words (by rw [htried])).2
        rwa [htried] at hall
      let m₂ := (m₁.insertDtcTable t v f).2.setCmdContext f.fieldType {}
      have hrec := ih m₂
      have hkeyword₂ : m₂.store.keyword = withWords t v m.store.keyword f.fieldId f.words :=
        hkeyword rfl
      rw [hkeyword₂] at hrec
      rw [andThen_of_eq (show ((m₁.insertDtcTable t v f).1, m₂).1 = .ok from hret)]
      apply hrec.cons
      · simpa [Field.keys, Field.hanpinRows, hindexed'] using hwrote
      · intro k hk
        obtain ⟨w, hw, rfl⟩ := mem_map.mp (by simpa [Field.keys, hindexed'] using hk)
        have hany : (f.words.any fun w' => keywordRow t v f.fieldId w.key =
            keywordRow t v f.fieldId w'.key) = true := any_eq_true.mpr ⟨w, hw, by simp⟩
        rw [hkeyword₂, withWords, hany, Bool.or_true]
      · intro type
        have hf : f.intelligentKeys type =
            if f.intelligentInfo ≠ [] ∧ f.fieldType = type then [f.fieldId] else [] := by
          simp [Field.intelligentKeys, hindexed']
        rw [hf]
        exact hkeys type
      · intro type hclear
        rw [hcleared _ hcont]
        split
        · rfl
        next htype =>
          apply hclear.resolve_right
          simp [Field.intelligentKeys, Ne.symm htype]

end Manager

end ISearch.IndexWrite

import ISearch.Protocol.RoundTrip

/-!
# Safety on any input

The bytes and the lengths of a section come from the peer. Simple sections and field lists are
decoded without an access outside their buffers. The ids of a field set and of a result set are
copied into a buffer that is allocated for the fields of the table, and the command of the header is
an index into `cmd2type`; both are unchecked, and it is said for which inputs they stay inside.
-/

namespace ISearch.Protocol

open List
open DTCBinary (next_cons eq_cons_of_len within_advance)
open KeyFormat (Bytes)

variable {F : Type} (lib : FloatFormat F)

/-- The bytes name the field `id`: by its id, as the key, or by its name. -/
inductive SpellsId (tdef : TableDefinition) : Nat → Bytes → Prop
  | id {n : UInt8} : n ≠ 0 → SpellsId tdef n.toNat [n]
  | key : SpellsId tdef 0 [0, 0]
  | name {n : UInt8} {name : Bytes} {fid : Nat} : n ≠ 0 → name.length = n.toNat →
    tdef.fieldId name = some fid → SpellsId tdef fid (0 :: n :: name)

/-- The bytes name the fields one after the other. -/
def Spells (tdef : TableDefinition) (ids : List Nat) (bs : Bytes) : Prop :=
  ∃ codes, List.Forall₂ (SpellsId tdef) ids codes ∧ codes.flatten = bs

theorem decodeFieldId_spells {tdef : TableDefinition} {id : Nat} {code : Bytes}
    (h : SpellsId tdef id code) (ptr : Nat) (rest : Bytes) :
    ∃ nd, decodeFieldId tdef ⟨ptr, code ++ rest⟩ = .ok (id, nd, ⟨ptr + code.length, rest⟩) := by
  cases h with
  | @id n hn =>
    refine ⟨false, ?_⟩
    rw [singleton_append, decodeFieldId, if_neg (by simp), next_cons, ok_bind]
    dsimp only
    rw [if_pos hn]
    rfl
  | key => exact ⟨false, rfl⟩
  | @name n name fid hn hlen hfid =>
    refine ⟨true, ?_⟩
    rw [cons_append, cons_append, decodeFieldId, if_neg (by simp), next_cons,
      ok_bind]
    dsimp only
    rw [if_neg (by simp), if_neg (by simp), next_cons, ok_bind]
    dsimp only
    rw [if_neg hn, if_neg (by simp [hlen]), DTCBinary.read_append _ _ hlen, ok_bind, hfid,
      DTCBinary.advance_append _ _ hlen, length_cons, length_cons, hlen]
    simp only [pure_eq_ok]
    congr 4
    omega

/-- What is read names the field that is returned. -/
theorem decodeFieldId_inside (tdef : TableDefinition) (bin : DTCBinary) :
    Inside (fun r => ∃ code, SpellsId tdef r.1 code ∧ bin.bytes = code ++ r.2.2.bytes ∧
      r.2.2 = bin.advance code.length) (decodeFieldId tdef bin) := by
  rw [decodeFieldId]
  refine .ite (by simp) fun hlen => ?_
  obtain ⟨n, bs, hbin⟩ := eq_cons_of_len hlen
  rw [hbin, next_cons, ok_bind]
  dsimp only
  refine .ite (fun hn => ⟨[n], .id hn, rfl, rfl⟩) fun hn => ?_
  obtain rfl : n = 0 := not_not.mp hn
  refine .ite (by simp) fun hlen => ?_
  obtain ⟨m, name, hbin⟩ := eq_cons_of_len hlen
  obtain rfl : bs = m :: name := congrArg DTCBinary.bytes hbin
  rw [next_cons, ok_bind]
  dsimp only
  refine .ite ?_ fun hm => ?_
  · rintro rfl
    exact ⟨[0, 0], .key, rfl, rfl⟩
  · refine .ite (by simp) fun hlen => ?_
    have hle : m.toNat ≤ name.length := not_lt.mp hlen
    refine (DTCBinary.read_inside hle).bind ?_
    rintro _ rfl
    dsimp only
    split
    · simp
    · next fid hfid =>
      have htake : (name.take m.toNat).length = m.toNat := by simpa using hle
      refine ⟨0 :: m :: name.take m.toNat, .name hm htake hfid, ?_, ?_⟩
      · simp [DTCBinary.advance]
      · simp [DTCBinary.advance, htake, Nat.add_assoc]
        omega

/-! ## Field sets -/

/-- The ids so far, and one more if it is new. -/
def addId (idtab : List Nat) (id : Nat) : List Nat := if id ∈ idtab then idtab else idtab ++ [id]

theorem mem_foldl_addId {ids idtab : List Nat} {i : Nat} :
    i ∈ ids.foldl addId idtab ↔ i ∈ idtab ∨ i ∈ ids := by
  induction ids generalizing idtab with
  | nil => simp
  | cons id ids ih =>
    rw [foldl_cons, ih, mem_cons, addId]
    split
    · next hmem => exact ⟨by tauto, by rintro (h | rfl | h) <;> tauto⟩
    · rw [mem_append, mem_singleton, or_assoc]

theorem nodup_foldl_addId {ids idtab : List Nat} (h : idtab.Nodup) :
    (ids.foldl addId idtab).Nodup := by
  induction ids generalizing idtab with
  | nil => exact h
  | cons id ids ih =>
    rw [foldl_cons]
    refine ih ?_
    rw [addId]
    split
    · exact h
    · next hmem => exact h.append (nodup_singleton id) (by simpa using hmem)

theorem length_foldl_addId (ids : List Nat) :
    (ids.foldl addId []).length = ids.dedup.length :=
  ((perm_ext_iff_of_nodup (nodup_foldl_addId nodup_nil) ids.nodup_dedup).mpr
    fun i => by simp [mem_foldl_addId]).length_eq

theorem decodeIds_spells {tdef : TableDefinition} {ids : List Nat} {codes : List Bytes}
    (h : List.Forall₂ (SpellsId tdef) ids codes) (ptr : Nat) (rest : Bytes) (idtab : List Nat)
    (nd : Bool) : ∃ nd', decodeIds tdef ids.length ⟨ptr, codes.flatten ++ rest⟩ idtab nd =
      .ok (ids.foldl addId idtab, nd', ⟨ptr + codes.flatten.length, rest⟩) := by
  induction h generalizing ptr idtab nd with
  | nil => exact ⟨nd, rfl⟩
  | @cons id code ids codes hid hids ih =>
    obtain ⟨nd₁, hdec⟩ := decodeFieldId_spells hid ptr (codes.flatten ++ rest)
    rw [length_cons, flatten_cons, append_assoc, decodeIds, hdec, ok_bind,
      foldl_cons, addId, length_append, ← Nat.add_assoc]
    dsimp only
    split
    · exact ih ..
    · exact ih ..

/-- What is read names the ids that are collected. -/
theorem decodeIds_inside (tdef : TableDefinition) (n : Nat) (bin : DTCBinary) (idtab : List Nat)
    (nd : Bool) : Inside (fun r => ∃ ids codes, ids.length = n ∧
      List.Forall₂ (SpellsId tdef) ids codes ∧ bin.bytes = codes.flatten ++ r.2.2.bytes ∧
      r.1 = ids.foldl addId idtab) (decodeIds tdef n bin idtab nd) := by
  induction n generalizing bin idtab nd with
  | zero => exact ⟨[], [], rfl, .nil, rfl, rfl⟩
  | succ n ih =>
    rw [decodeIds]
    refine (decodeFieldId_inside tdef bin).bind ?_
    rintro ⟨id, nd₁, bin₁⟩ ⟨code, hcode, hbytes, -⟩
    have hmore : ∀ idtab' nd', idtab' = addId idtab id → Inside (fun r => ∃ ids codes,
        ids.length = n + 1 ∧ List.Forall₂ (SpellsId tdef) ids codes ∧
        bin.bytes = codes.flatten ++ r.2.2.bytes ∧ r.1 = ids.foldl addId idtab)
        (decodeIds tdef n bin₁ idtab' nd') := by
      rintro _ nd' rfl
      refine (ih bin₁ _ nd').mono ?_
      rintro r ⟨ids, codes, hlen, hids, hrest, hr⟩
      refine ⟨id :: ids, code :: codes, by rw [length_cons, hlen], .cons hcode hids, ?_, hr⟩
      rw [hbytes, hrest, flatten_cons, append_assoc]
    exact .ite (fun hmem => hmore _ _ (if_pos hmem).symm) fun hmem => hmore _ _ (if_neg hmem).symm

/-- The ids that the buffer of the field set has room for. -/
def idCapacity (tdef : TableDefinition) : Option DTCFieldSet → Nat
  | none => tdef.numFields + 1
  | some fs => max fs.maxFields (tdef.numFields + 1)

theorem put_inside {tdef : TableDefinition} {old : Option DTCFieldSet} {idtab : List Nat}
    (hlen : idtab.length ≤ 255) :
    Inside (fun _ => True) (DTCFieldSet.put old tdef.numFields idtab) ↔
      idtab.length ≤ idCapacity tdef old := by
  have hmax := tdef.numFields_le
  have htake : idtab.take 255 = idtab := take_of_length_le hlen
  have hite : ∀ {c : Prop} [Decidable c] {fs : DTCFieldSet},
      Inside (fun _ => True) (if c then .error .outside else .ok fs) ↔ ¬ c := by
    intro c _ fs
    split <;> simp [*]
  cases old with
  | none =>
    rw [DTCFieldSet.put, DTCFieldSet.new, htake, hite, idCapacity]
    omega
  | some fs =>
    rw [DTCFieldSet.put, DTCFieldSet.set, htake, hite, idCapacity]
    split
    · rw [DTCFieldSet.realloc]
      dsimp only
      omega
    · omega

/-- The section spells ids, and those that are new fit in the buffer. -/
def FieldSetFits (tdef : TableDefinition) (old : Option DTCFieldSet) (bin : DTCBinary) : Prop :=
  ∀ num ids bs, bin.bytes = num :: bs → ids.length = num.toNat → Spells tdef ids bs →
    ids.dedup.length ≤ idCapacity tdef old

theorem decodeFieldSet_inside_iff (tdef : TableDefinition) (old : Option DTCFieldSet)
    (bin : DTCBinary) :
    Inside (fun _ => True) (decodeFieldSet tdef old bin) ↔ FieldSetFits tdef old bin := by
  rw [decodeFieldSet]
  constructor
  · rintro hsafe num ids _ hbytes hlen ⟨codes, hcodes, rfl⟩
    obtain ⟨nd, hdec⟩ := decodeIds_spells hcodes (bin.ptr + 1) [] [] false
    have hbin : bin = ⟨bin.ptr, num :: codes.flatten⟩ := by rw [← hbytes]
    by_cases h0 : num = 0
    · subst h0
      rw [eq_nil_of_length_eq_zero hlen]
      exact Nat.zero_le _
    · rw [hbin, if_neg (by simp), next_cons, ok_bind] at hsafe
      dsimp only at hsafe
      rw [append_nil] at hdec
      rw [if_neg h0, ← hlen, hdec, ok_bind] at hsafe
      dsimp only at hsafe
      rw [if_neg (by simp)] at hsafe
      rw [← length_foldl_addId]
      refine (put_inside ?_).mp hsafe.of_bind
      have hlt := num.toNat_lt
      have hle := ids.dedup_sublist.length_le
      rw [length_foldl_addId]
      omega
  · intro hfits
    refine .ite (by simp) fun hlen => ?_
    obtain ⟨num, bs, hbin⟩ := eq_cons_of_len hlen
    rw [hbin, next_cons, ok_bind]
    dsimp only
    refine .ite (fun _ => trivial) fun h0 => ?_
    refine (decodeIds_inside ..).bind ?_
    rintro ⟨idtab, nd, bin'⟩ ⟨ids, codes, hlen, hcodes, hbytes, hidtab⟩
    refine .ite (by simp) fun hrest => ?_
    have hnil : bin'.bytes = [] := eq_nil_of_length_eq_zero (not_not.mp hrest)
    have hspells : codes.flatten = bs := by
      rw [← append_nil codes.flatten, ← hnil]
      exact hbytes.symm
    have hids := hfits num ids bs (by rw [hbin]) hlen ⟨codes, hcodes, hspells⟩
    rw [← length_foldl_addId, ← hidtab] at hids
    refine ((put_inside ?_).mpr hids).bind fun _ _ => trivial
    have hnum := num.toNat_lt
    have hle := ids.dedup_sublist.length_le
    rw [hidtab, length_foldl_addId]
    omega

theorem within_of_field {tdef : TableDefinition} {whole bin : DTCBinary} (hbin : whole.Within bin) :
    Inside (fun r => whole.Within r.2.2) (decodeFieldId tdef bin) := by
  refine (decodeFieldId_inside tdef bin).mono ?_
  rintro ⟨id, nd, bin'⟩ ⟨code, -, hbytes, hbin'⟩
  dsimp only at hbytes hbin' ⊢
  rw [hbin']
  refine hbin.trans (within_advance ?_)
  rw [DTCBinary.len, hbytes, length_append]
  exact Nat.le_add_right ..

theorem checkEntry_inside (tdef : TableDefinition) (mode : Mode) (id op : Nat) (vt : DField) :
    Inside (fun _ => True) (checkEntry tdef mode id op vt) := by
  cases mode with
  | condition => exact .ite (by simp) fun _ => .ite (by simp) fun _ => .ite (by simp) (by simp)
  | insert => exact .ite (by simp) fun _ => .ite (by simp) (by simp)
  | update => exact .ite (by simp) fun _ => .ite (by simp) (by simp)

theorem decodeEntry_inside (tdef : TableDefinition) (mode : Mode)
    (old : (type : DField) → type.Value F) {whole bin : DTCBinary} (hbin : whole.Within bin) :
    Inside (fun r => DField.Value.Inside whole r.1.type r.1.val ∧ whole.Within r.2.2)
      (decodeEntry lib tdef mode old bin) := by
  rw [decodeEntry]
  refine .ite (by simp) fun hlen => ?_
  refine (DTCBinary.next_inside hlen).bind ?_
  rintro ⟨op, _⟩ rfl
  have hnext : whole.Within (bin.advance 1) :=
    hbin.trans (within_advance (Nat.pos_of_ne_zero hlen))
  refine (within_of_field hnext).bind ?_
  rintro ⟨id, nd, bin₂⟩ hbin₂
  refine .ite (by simp) fun _ => ?_
  dsimp only
  split
  · simp
  · next vt _ =>
    refine (checkEntry_inside tdef mode id _ vt).bind fun _ _ => ?_
    refine (decodeDataValue_inside lib hbin₂ vt (old vt)).bind ?_
    rintro ⟨v, bin₃⟩ ⟨hv, hbin₃, -⟩
    exact ⟨hv, hbin₃⟩

theorem decodeEntries_inside (tdef : TableDefinition) (mode : Mode)
    (old : (type : DField) → type.Value F) (n : Nat) {whole bin : DTCBinary}
    (hbin : whole.Within bin) {fv : FieldList F}
    (hfv : ∀ e ∈ fv.entries, DField.Value.Inside whole e.type e.val) :
    Inside (fun r => ∀ e ∈ r.1.entries, DField.Value.Inside whole e.type e.val)
      (decodeEntries lib tdef mode old n bin fv) := by
  induction n generalizing bin fv with
  | zero => exact hfv
  | succ n ih =>
    rw [decodeEntries]
    refine (decodeEntry_inside lib tdef mode old hbin).bind ?_
    rintro ⟨e, nd, bin'⟩ ⟨hv, hbin'⟩
    refine .ite (by simp) fun _ => ih hbin' ?_
    intro e' he'
    rcases mem_append.mp he' with he' | he'
    · exact hfv e' he'
    · rw [mem_singleton.mp he']
      exact hv

theorem decodeFieldValue_inside (tdef : TableDefinition) (mode : Mode)
    (old : (type : DField) → type.Value F) (bin : DTCBinary) :
    Inside (fun fv => ∀ e ∈ fv.entries, DField.Value.Inside bin e.type e.val)
      (decodeFieldValue lib tdef mode old bin) := by
  have hempty : ∀ e ∈ (FieldList.empty : FieldList F).entries,
    DField.Value.Inside bin e.type e.val := fun _ he => absurd he (by simp [FieldList.empty])
  rw [decodeFieldValue]
  refine .ite (by simp) fun hlen => ?_
  refine (DTCBinary.next_inside hlen).bind ?_
  rintro ⟨num, _⟩ rfl
  refine .ite (fun _ => hempty) fun _ => ?_
  refine (decodeEntries_inside lib tdef mode old num.toNat
    (within_advance (Nat.pos_of_ne_zero hlen)) hempty).bind ?_
  rintro ⟨fv, bin'⟩ hfv
  exact .ite (by simp) fun _ => hfv

/-- The definitions of the version, request and result sections. -/
def sectionDefinitions : List SectionDefinition :=
  [versionInfoDefinition, requestInfoDefinition, resultInfoDefinition]

theorem length_tagTypes_le : ∀ definition ∈ sectionDefinitions,
    definition.tagTypes.length ≤ maxStaticSection := by
  decide

theorem lt_maxStaticSection {definition : SectionDefinition} (hdef : definition ∈ sectionDefinitions)
    {kt : DField} {i : Nat} (htype : definition.typeOf kt i ≠ .none) : i < maxStaticSection := by
  by_contra hge
  rw [not_lt] at hge
  have hlen := (length_tagTypes_le definition hdef).trans hge
  have h0 : i ≠ 0 := by
    rintro rfl
    exact absurd hge (by decide)
  rw [SectionDefinition.typeOf, if_neg h0, SectionDefinition.tagType,
    getD_eq_getElem?_getD, List.getElem?_eq_none hlen] at htype
  exact htype rfl

/-- A decoded tag is stored. -/
theorem setTag_inside {definition : SectionDefinition} (hdef : definition ∈ sectionDefinitions)
    {kt : DField} {whole : DTCBinary} {ss : SimpleSection F definition kt}
    (hss : ∀ i, ss.tagPresent i → DField.Value.Inside whole _ (ss.tagValue i)) {id : Nat}
    {val : (definition.typeOf kt id).Value F} (hval : DField.Value.Inside whole _ val) :
    Inside (fun ss' => ∀ i, ss'.tagPresent i → DField.Value.Inside whole _ (ss'.tagValue i))
      (ss.setTag id val) := by
  rw [SimpleSection.setTag]
  refine .ite (fun _ => hss) fun htype => ?_
  rw [if_neg (not_le.mpr (lt_maxStaticSection hdef htype))]
  intro i hi
  by_cases hid : i = id
  · subst hid
    simpa using hval
  · dsimp only at hi ⊢
    rw [Function.update_of_ne hid] at hi ⊢
    exact hss i hi

theorem decodeTags_inside {definition : SectionDefinition} (hdef : definition ∈ sectionDefinitions)
    {kt : DField} {whole bin : DTCBinary} (hbin : whole.Within bin) (mask : List UInt8)
    {ss : SimpleSection F definition kt}
    (hss : ∀ i, ss.tagPresent i → DField.Value.Inside whole _ (ss.tagValue i)) :
    Inside (fun ss' => ∀ i, ss'.tagPresent i → DField.Value.Inside whole _ (ss'.tagValue i))
      (decodeTags lib bin mask ss) := by
  induction hn : bin.len using Nat.strong_induction_on generalizing bin mask ss with
  | _ n ih =>
    rw [decodeTags]
    split
    · exact hss
    · next hlen =>
      have hnext := DTCBinary.next_inside hlen
      split
      · next e herr => exact (herr ▸ hnext : Inside _ (.error e))
      · next id bin₁ hok =>
        obtain rfl := hnext.of_eq_ok hok
        have hbin₁ := hbin.trans (within_advance (Nat.pos_of_ne_zero hlen))
        have hdata := decodeDataValue_inside lib hbin₁ _ (ss.tagValue id.toNat)
        refine .ite (by simp) fun _ => ?_
        split
        · next e herr => exact (herr ▸ hdata : Inside _ (.error e))
        · next val bin₂ hok =>
          obtain ⟨hval, hbin₂, hshorter⟩ := hdata.of_eq_ok hok
          have hset := setTag_inside hdef hss hval
          dsimp only at hbin₂ hshorter
          rw [DTCBinary.len_advance] at hshorter
          split
          · next e herr => exact (herr ▸ hset : Inside _ (.error e))
          · next ss' hok => exact ih bin₂.len (by omega) hbin₂ _ (hset.of_eq_ok hok) rfl

/-! ## Result sets -/

theorem decodeLength_code {code : Bytes} (h : LengthCode code) (ptr : Nat) (rest : Bytes) :
    ∃ n, decodeLength ⟨ptr, code ++ rest⟩ = .ok (n, ⟨ptr + code.length, rest⟩) := by
  cases h with
  | one ha => exact ⟨_, decodeLength_one ptr rest ha⟩
  | two h240 h252 => exact ⟨_, decodeLength_two ptr rest h240 h252⟩
  | three => exact ⟨_, decodeLength_253 ptr rest⟩
  | four => exact ⟨_, decodeLength_254 ptr rest⟩
  | five hmax => exact ⟨_, decodeLength_255 ptr rest hmax⟩

theorem checkIds_inside (ids mask : List UInt8) :
    Inside (fun _ => ids.Nodup ∧ (∀ t ∈ ids, t ∉ mask) ∧ 255 ∉ ids) (checkIds ids mask) := by
  induction ids generalizing mask with
  | nil => simp [checkIds]
  | cons t ids ih =>
    rw [checkIds]
    refine .ite (by simp) fun h255 => .ite (by simp) fun hmem => (ih (t :: mask)).mono ?_
    rintro _ ⟨hnodup, hmask, hids⟩
    have ht : t ∉ ids := fun h => hmask t h mem_cons_self
    refine ⟨nodup_cons.mpr ⟨ht, hnodup⟩, ?_, ?_⟩
    · intro t' ht'
      rcases mem_cons.mp ht' with rfl | ht'
      · exact hmem
      · exact fun h => hmask t' ht' (mem_cons_of_mem _ h)
    · rw [mem_cons, not_or]
      exact ⟨fun h => h255 h.symm, hids⟩

theorem checkIds_of_nodup {ids mask : List UInt8} (hnodup : ids.Nodup)
    (hmask : ∀ t ∈ ids, t ∉ mask) (h255 : 255 ∉ ids) : checkIds ids mask = .ok () := by
  induction ids generalizing mask with
  | nil => rfl
  | cons t ids ih =>
    rw [nodup_cons] at hnodup
    rw [mem_cons, not_or] at h255
    rw [checkIds, if_neg (Ne.symm h255.1), if_neg (hmask t mem_cons_self)]
    refine ih hnodup.2 (fun t' ht' => ?_) h255.2
    rw [mem_cons, not_or]
    exact ⟨fun h => hnodup.1 (h ▸ ht'), hmask t' (mem_cons_of_mem _ ht')⟩

/-- The ids of the section, if it accepts them, fit in the buffer. -/
def ResultSetFits (tdef : TableDefinition) (old : Option DTCFieldSet) (bin : DTCBinary) : Prop :=
  ∀ code num ids values, LengthCode code → bin.bytes = code ++ num :: (ids ++ values) →
    ids.length = num.toNat → ids.Nodup → 255 ∉ ids → ids.length ≤ idCapacity tdef old

theorem decodeResultSet_inside_iff (tdef : TableDefinition) (old : Option DTCFieldSet)
    (bin : DTCBinary) :
    Inside (fun rs => bin.Within rs.curr) (decodeResultSet tdef old bin) ↔
      ResultSetFits tdef old bin := by
  rw [decodeResultSet]
  constructor
  · rintro hsafe code num ids values hcode hbytes hlen hnodup h255
    have hbin : bin = ⟨bin.ptr, code ++ num :: (ids ++ values)⟩ := by rw [← hbytes]
    obtain ⟨n, hdec⟩ := decodeLength_code hcode bin.ptr (num :: (ids ++ values))
    rw [hbin, hdec, ok_bind] at hsafe
    dsimp only at hsafe
    rw [if_neg (by simp), next_cons, ok_bind] at hsafe
    dsimp only at hsafe
    rw [if_neg (by simp [hlen]), DTCBinary.read_append _ _ hlen, ok_bind,
      checkIds_of_nodup hnodup (by simp) h255, ok_bind] at hsafe
    have hnum := num.toNat_lt
    have hput := (put_inside (by rw [length_map]; omega)).mp hsafe.of_bind
    rwa [length_map] at hput
  · intro hfits
    refine (decodeLength_inside bin).bind ?_
    rintro ⟨n, bin₁⟩ ⟨code, hcode, hbytes, hbin₁⟩
    dsimp only at hbytes hbin₁
    have hwithin₁ : bin.Within bin₁ := by
      rw [hbin₁]
      refine within_advance ?_
      rw [DTCBinary.len, hbytes, length_append]
      exact Nat.le_add_right ..
    refine .ite (by simp) fun hlen => ?_
    have hwithin₂ := hwithin₁.trans (within_advance (Nat.pos_of_ne_zero hlen))
    obtain ⟨num, bs, hcons⟩ := eq_cons_of_len hlen
    rw [hcons] at hbytes hwithin₂ ⊢
    rw [next_cons, ok_bind]
    dsimp only
    refine .ite (by simp) fun hnum => ?_
    have hle : num.toNat ≤ bs.length := not_lt.mp hnum
    refine (DTCBinary.read_inside hle).bind ?_
    rintro _ rfl
    dsimp only
    refine (checkIds_inside _ []).bind ?_
    rintro _ ⟨hnodup, -, h255⟩
    have htake : (bs.take num.toNat).length = num.toNat := length_take_of_le hle
    have hids := hfits code num (bs.take num.toNat) (bs.drop num.toNat) hcode
      (by rw [take_append_drop]; exact hbytes) htake hnodup h255
    rw [← length_map (f := UInt8.toNat)] at hids
    have hlt := num.toNat_lt
    refine ((put_inside (by rw [length_map, htake]; omega)).mpr hids).bind fun _ _ => ?_
    exact hwithin₂.trans (within_advance hle)

/-- The command has a place in `cmd2type`, or the header is rejected before. -/
def HeaderFits (header : PacketHeader) : Prop :=
  header.version = 1 → header.scts = 8 →
    ((List.finRange 8).map fun i => (header.len i).toNat).sum ≤ maxPacketSize →
    header.cmd.toNat < cmd2type.length

theorem decodeHeader_inside_iff (header : PacketHeader) :
    Inside (fun _ => True) (decodeHeader header) ↔ HeaderFits header := by
  have hreply : ∀ {cmd : UInt8}, cmd = 1 ∨ cmd = 2 → cmd.toNat < cmd2type.length := by
    rintro _ (rfl | rfl) <;> decide
  rw [decodeHeader, HeaderFits]
  split_ifs with hversion hscts hlen hcmd
  · exact iff_of_true trivial fun h => absurd h hversion
  · exact iff_of_true trivial fun _ h => absurd h hscts
  · exact iff_of_true trivial fun _ _ h => absurd h (not_le.mpr hlen)
  · exact iff_of_true trivial fun _ _ _ => hreply hcmd
  · rw [not_not] at hversion hscts
    rw [not_lt] at hlen
    split
    · next hnone =>
      refine iff_of_false (by simp) fun h => ?_
      exact absurd (h hversion hscts hlen) (not_lt.mpr (List.getElem?_eq_none_iff.mp hnone))
    · next type hsome =>
      exact iff_of_true trivial fun _ _ _ => (List.getElem?_eq_some_iff.mp hsome).1

/-- What the decoders are called with. A simple section has no tags before it is decoded. -/
inductive Input (F : Type) where
  | header (header : PacketHeader)
  | simpleSection (definition : SectionDefinition) (hdef : definition ∈ sectionDefinitions)
      (kt : DField) (ss : SimpleSection F definition kt) (hss : ∀ i, ss.tagPresent i = false)
      (bin : DTCBinary)
  | fieldSet (tdef : TableDefinition) (fieldList : Option DTCFieldSet) (bin : DTCBinary)
  | fieldValue (tdef : TableDefinition) (mode : Mode) (old : (type : DField) → type.Value F)
      (bin : DTCBinary)
  | resultSet (tdef : TableDefinition) (result : Option DTCFieldSet) (bin : DTCBinary)

/-- There is no access outside, and the strings of the result are inside the section. -/
def Input.Safe : Input F → Prop
  | .header hdr => Inside (fun _ => True) (decodeHeader hdr)
  | .simpleSection _ _ _ ss _ bin =>
    Inside (fun ss' => ∀ i, ss'.tagPresent i → DField.Value.Inside bin _ (ss'.tagValue i))
      (decodeSimpleSection lib bin ss)
  | .fieldSet tdef fieldList bin => Inside (fun _ => True) (decodeFieldSet tdef fieldList bin)
  | .fieldValue tdef mode old bin =>
    Inside (fun fv => ∀ e ∈ fv.entries, DField.Value.Inside bin e.type e.val)
      (decodeFieldValue lib tdef mode old bin)
  | .resultSet tdef result bin =>
    Inside (fun rs => bin.Within rs.curr) (decodeResultSet tdef result bin)

/-- What the code does not check. -/
def Input.Fits : Input F → Prop
  | .header hdr => HeaderFits hdr
  | .simpleSection .. => True
  | .fieldSet tdef fieldList bin => FieldSetFits tdef fieldList bin
  | .fieldValue .. => True
  | .resultSet tdef result bin => ResultSetFits tdef result bin

/-- Decoding reads and writes inside its buffers exactly for the inputs that meet what the code does
not check. -/
theorem safe_iff (input : Input F) : input.Safe lib ↔ input.Fits := by
  cases input with
  | header header => exact decodeHeader_inside_iff header
  | simpleSection definition hdef kt ss hss bin =>
    refine iff_of_true (decodeTags_inside lib hdef (.refl bin) [] fun i hi => ?_) trivial
    exact absurd hi (by simp [hss i])
  | fieldSet tdef fieldList bin => exact decodeFieldSet_inside_iff tdef fieldList bin
  | fieldValue tdef mode old bin =>
    exact iff_of_true (decodeFieldValue_inside lib tdef mode old bin) trivial
  | resultSet tdef result bin => exact decodeResultSet_inside_iff tdef result bin

/-- `Replicate`, a command that the table does not have. -/
theorem not_safe_replicate : ¬ (Input.header ⟨1, 8, 0, 17, fun _ => 0⟩ : Input SampleFloat).Safe
    sampleFormat := by
  intro h
  exact h (by decide)

end ISearch.Protocol

import ISearch.RawData.Defs
import Mathlib.Data.List.Forall2
import Mathlib.Tactic.NormNum

/-!
# The readers against the decoders

`get_lastcmod` steps over the fields that `decode_row` decodes. `get_expire_time` also steps over
the discarded fields, of which a row keeps nothing, and that of `TreeData` starts at the header of
the record, nine bytes before the first row.
-/

namespace ISearch.RawData

open Option

/-- The time that a reader returns is what the decoder puts into the field, and 0 if it puts nothing
there. -/
def IsTime (id : Option Nat) (row : List (Nat × DTCValue)) (time : Nat) : Prop :=
  (∀ j v, id = some j → (j, v) ∈ row → v.toInt? = some (time : Int)) ∧
    ((∀ j v, id = some j → (j, v) ∉ row) → time = 0)

/-- On every node, `RawData::get_expire_time` returns the time of the first row. -/
def ExpireAgrees (t : TableDef) : Prop :=
  ∀ content uiDataStart n row rows next,
    decodeRows (decodeRow t content) (n + 1) uiDataStart = some (row :: rows, next) →
    ∃ time, getExpireTime t content uiDataStart = some (0, time) ∧ IsTime t.expireId row time

/-- The same of `TreeData::get_expire_time`, on every record. -/
def TreeExpireAgrees (t : TableDef) : Prop :=
  ∀ content n row rows next, valueAt 1 content 0 = some dataTypeTreeNode →
    valueAt 4 content 1 = some next → valueAt 4 content 5 = some (n + 1) →
    decodeRows (decodeTreeRow t content) (n + 1) 9 = some (row :: rows, next) →
    ∃ time, getTreeExpireTime t content = some (0, time) ∧ IsTime t.expireId row time

/-- On every node, calls of `get_lastcmod` return the times of the rows one after the other, and end
where `decode_row` ends. -/
def LastcmodAgrees (t : TableDef) : Prop :=
  ∀ content uiDataStart n rows next,
    decodeRows (decodeRow t content) n uiDataStart = some (rows, next) →
    ∃ times, getLastcmods t content n uiDataStart = some (times, next) ∧
      List.Forall₂ (IsTime t.lcmodId) rows times

/-! ## Steps of the readers -/

theorem valueAt_lt {n offset v : Nat} {content : Bytes} (h : valueAt n content offset = some v) :
    v < 256 ^ n := by
  obtain ⟨hlen, hv⟩ := ite_none_right_eq_some.mp h
  rw [← Option.some.inj hv]
  refine (ofLeBytes_lt _).trans_le (Nat.pow_le_pow_right (by norm_num) ?_)
  rw [List.length_take]
  exact Nat.min_le_left ..

theorem skipField_of_decodeField {f : FieldDef} {content : Bytes} {offset next : Nat} {v : DTCValue}
    (h : decodeField f content offset = some (v, next)) : skipField f content offset = some next := by
  have hskip {n : Nat} {g : Nat × Nat → DTCValue × Nat} (hg : ∀ r, (g r).2 = r.2)
      (h : (getValue n content offset).map g = some (v, next)) :
      skipSize n content offset = some next := by
    obtain ⟨r, hr, hnext⟩ := map_eq_some_iff.mp h
    obtain ⟨value, hvalue, rfl⟩ := map_eq_some_iff.mp hr
    have hlen : offset + n ≤ content.length := by
      by_contra hlen
      simp [valueAt, hlen] at hvalue
    have hnext : offset + n = next := (hg _).symm.trans (congrArg Prod.snd hnext)
    rw [skipSize, if_pos hlen, hnext]
  rw [decodeField] at h
  rw [skipField]
  cases htype : f.type <;> simp only [htype] at h ⊢
  case signed | unsigned | float =>
    by_cases hsize : f.size > 4
    · rw [if_pos hsize] at h ⊢
      exact hskip (fun _ => rfl) h
    · rw [if_neg hsize] at h ⊢
      exact hskip (fun _ => rfl) h
  case string | binary =>
    cases hlen : getValue 4 content offset with
    | none => simp [hlen] at h
    | some r =>
      simp only [hlen, bind_eq_bind, bind_some, bind_eq_some_iff,
        pure_def, Option.some.injEq, Prod.mk.injEq] at h ⊢
      obtain ⟨_, hnext, -, rfl⟩ := h
      exact hnext

/-- An unsigned field of four bytes holds what the readers take for the time. -/
theorem decodeField_u32 {f : FieldDef} {content : Bytes} {offset next : Nat} {v : DTCValue}
    (hf : f.IsU32) (h : decodeField f content offset = some (v, next)) :
    ∃ time, valueAt 4 content offset = some time ∧ v.toInt? = some (time : Int) := by
  rw [decodeField, hf.1] at h
  simp only [if_neg (not_lt.mpr hf.2)] at h
  obtain ⟨r, hr, hvalue⟩ := map_eq_some_iff.mp h
  obtain ⟨time, htime, rfl⟩ := map_eq_some_iff.mp hr
  have hlt : time < 2 ^ 64 := (valueAt_lt htime).trans (by norm_num)
  refine ⟨time, htime, ?_⟩
  obtain ⟨rfl, -⟩ := Prod.mk.inj hvalue
  rw [DTCValue.toInt?, UInt64.toNat_ofNat_of_lt' hlt]

theorem decodeFields_cons {f : FieldDef} {fs : List FieldDef} {content : Bytes}
    {j offset next : Nat} {vs : List (Nat × DTCValue)}
    (h : decodeFields content (f :: fs) j offset = some (vs, next)) :
    f.discard = true ∧ decodeFields content fs (j + 1) offset = some (vs, next) ∨
      f.discard = false ∧ ∃ v mid ws, decodeField f content offset = some (v, mid) ∧
        decodeFields content fs (j + 1) mid = some (ws, next) ∧ vs = (j, v) :: ws := by
  rw [decodeFields] at h
  split at h
  · next hdiscard => exact .inl ⟨hdiscard, h⟩
  · next hkept =>
    simp only [bind_eq_bind, bind_eq_some_iff, pure_def, Option.some.injEq,
      Prod.mk.injEq, Prod.exists] at h
    obtain ⟨v, mid, hv, ws, last, hws, rfl, rfl⟩ := h
    exact .inr ⟨Bool.eq_false_iff.mpr hkept, v, mid, ws, hv, hws, rfl⟩

theorem le_of_mem_decodeFields {content : Bytes} {fs : List FieldDef} {j offset next : Nat}
    {vs : List (Nat × DTCValue)} (h : decodeFields content fs j offset = some (vs, next))
    {i : Nat} {v : DTCValue} (hv : (i, v) ∈ vs) :
    j ≤ i ∧ ∃ f, fs[i - j]? = some f ∧ f.discard = false := by
  induction fs generalizing j offset vs with
  | nil =>
    obtain ⟨rfl, -⟩ := Prod.mk.inj (Option.some.inj h)
    exact absurd hv List.not_mem_nil
  | cons f fs ih =>
    have hrest {vs : List (Nat × DTCValue)} {offset : Nat}
        (h : decodeFields content fs (j + 1) offset = some (vs, next)) (hv : (i, v) ∈ vs) :
        j ≤ i ∧ ∃ g, (f :: fs)[i - j]? = some g ∧ g.discard = false := by
      obtain ⟨hle, g, hg, hkept⟩ := ih h hv
      refine ⟨by omega, g, ?_, hkept⟩
      rw [show i - j = i - (j + 1) + 1 by omega, List.getElem?_cons_succ, hg]
    obtain ⟨-, h⟩ | ⟨hkept, w, mid, ws, -, hws, rfl⟩ := decodeFields_cons h
    · exact hrest h hv
    · rcases List.mem_cons.mp hv with hv | hv
      · obtain ⟨rfl, rfl⟩ := Prod.mk.inj hv
        exact ⟨le_rfl, f, by rw [Nat.sub_self]; rfl, hkept⟩
      · exact hrest hws hv

/-- Where no discarded field stands on its way, the loop comes to the time with the decoder. -/
theorem expireLoop_of_decodeFields {content : Bytes} {id : Nat} {fs : List FieldDef}
    {j offset next : Nat} {vs : List (Nat × DTCValue)}
    (h : decodeFields content fs j offset = some (vs, next))
    (hkept : ∀ i g, j ≤ i → (j ≤ id → i < id) → fs[i - j]? = some g → g.discard = false)
    (hu32 : ∀ g, j ≤ id → fs[id - j]? = some g → g.discard = false ∧ g.IsU32) :
    ∃ time, expireLoop content id fs j offset = some (0, time) ∧ IsTime (some id) vs time := by
  induction fs generalizing j offset vs with
  | nil =>
    obtain ⟨rfl, -⟩ := Prod.mk.inj (Option.some.inj h)
    exact ⟨0, rfl, fun _ _ _ hv => absurd hv List.not_mem_nil, fun _ => rfl⟩
  | cons f fs ih =>
    rw [expireLoop]
    by_cases hj : j = id
    · subst hj
      obtain ⟨hf, hf32⟩ := hu32 f le_rfl (by rw [Nat.sub_self]; rfl)
      obtain ⟨hdiscard, -⟩ | ⟨-, w, mid, ws, hw, hws, rfl⟩ := decodeFields_cons h
      · rw [hf] at hdiscard
        cases hdiscard
      · obtain ⟨time, htime, hint⟩ := decodeField_u32 hf32 hw
        refine ⟨time, by rw [if_pos rfl, htime]; rfl, fun i v hi hv => ?_,
          fun hnone => absurd List.mem_cons_self (hnone j w rfl)⟩
        obtain rfl : j = i := Option.some.inj hi
        rcases List.mem_cons.mp hv with hv | hv
        · obtain ⟨-, rfl⟩ := Prod.mk.inj hv
          exact hint
        · exact absurd (le_of_mem_decodeFields hws hv).1 (by omega)
    · have hf : f.discard = false :=
        hkept j f le_rfl (fun hle => lt_of_le_of_ne hle hj) (by rw [Nat.sub_self]; rfl)
      obtain ⟨hdiscard, -⟩ | ⟨-, w, mid, ws, hw, hws, rfl⟩ := decodeFields_cons h
      · rw [hf] at hdiscard
        cases hdiscard
      · rw [if_neg hj, skipField_of_decodeField hw]
        have hshift {i : Nat} (hi : j + 1 ≤ i) : (f :: fs)[i - j]? = fs[i - (j + 1)]? := by
          rw [show i - j = i - (j + 1) + 1 by omega, List.getElem?_cons_succ]
        obtain ⟨time, htime, hvalue, hzero⟩ := ih hws
          (fun i g hi hlt hg => hkept i g (by omega) (fun hle => hlt (by omega))
            ((hshift hi).trans hg))
          (fun g hle hg => hu32 g (by omega) ((hshift hle).trans hg))
        refine ⟨time, htime, fun i v hi hv => ?_,
          fun hnone => hzero fun i v hi hv => hnone i v hi (List.mem_cons_of_mem _ hv)⟩
        rcases List.mem_cons.mp hv with hv | hv
        · exact absurd ((congrArg Prod.fst hv).symm.trans (Option.some.inj hi).symm) hj
        · exact hvalue i v hi hv

/-- `get_lastcmod` reads the time where the decoder does; without one `lastcmod` stays. -/
theorem lastcmodLoop_of_decodeFields {content : Bytes} {id : Option Nat} {fs : List FieldDef}
    {j offset next : Nat} {vs : List (Nat × DTCValue)}
    (h : decodeFields content fs j offset = some (vs, next))
    (hu32 : ∀ i g, id = some i → j ≤ i → fs[i - j]? = some g → g.discard = false → g.IsU32)
    (lastcmod : Nat) :
    ∃ time, lastcmodLoop content id fs j offset lastcmod = some (0, time, next) ∧
      (∀ i v, id = some i → (i, v) ∈ vs → v.toInt? = some (time : Int)) ∧
      ((∀ i v, id = some i → (i, v) ∉ vs) → time = lastcmod) := by
  induction fs generalizing j offset vs lastcmod with
  | nil =>
    obtain ⟨rfl, rfl⟩ := Prod.mk.inj (Option.some.inj h)
    exact ⟨lastcmod, rfl, fun _ _ _ hv => absurd hv List.not_mem_nil, fun _ => rfl⟩
  | cons f fs ih =>
    have hrest : ∀ i g, id = some i → j + 1 ≤ i → fs[i - (j + 1)]? = some g →
        g.discard = false → g.IsU32 := by
      intro i g hid hi hg
      refine hu32 i g hid (by omega) ?_
      rw [show i - j = i - (j + 1) + 1 by omega, List.getElem?_cons_succ, hg]
    rw [lastcmodLoop]
    obtain ⟨hdiscard, h⟩ | ⟨hkept, w, mid, ws, hw, hws, rfl⟩ := decodeFields_cons h
    · rw [if_pos hdiscard]
      exact ih h hrest lastcmod
    rw [if_neg (Bool.eq_false_iff.mp hkept)]
    by_cases hid : id = some j
    · obtain ⟨now, hnow, hint⟩ :=
        decodeField_u32 (hu32 j f hid le_rfl (by rw [Nat.sub_self]; rfl) hkept) hw
      have hlater : ∀ i v, id = some i → (i, v) ∉ ws := by
        intro i v hi hv
        obtain rfl : j = i := Option.some.inj (hid.symm.trans hi)
        exact absurd (le_of_mem_decodeFields hws hv).1 (by omega)
      obtain ⟨time, htime, -, hsame⟩ := ih hws hrest now
      obtain rfl := hsame hlater
      refine ⟨time, ?_, ?_, ?_⟩
      · simp only [if_pos hid, hnow, bind_eq_bind, bind_some,
          skipField_of_decodeField hw, htime]
      · intro i v hi hv
        rcases List.mem_cons.mp hv with hv | hv
        · obtain ⟨-, rfl⟩ := Prod.mk.inj hv
          exact hint
        · exact absurd hv (hlater i v hi)
      · exact fun hnone => absurd (List.mem_cons_self ..) (hnone j w hid)
    · obtain ⟨time, htime, htimes, hsame⟩ := ih hws hrest lastcmod
      refine ⟨time, ?_, ?_, ?_⟩
      · simp only [if_neg hid, bind_eq_bind, bind_some,
          skipField_of_decodeField hw, htime]
      · intro i v hi hv
        rcases List.mem_cons.mp hv with hv | hv
        · obtain ⟨rfl, -⟩ := Prod.mk.inj hv
          exact absurd hi hid
        · exact htimes i v hi hv
      · exact fun hnone => hsame fun i v hi hv => hnone i v hi (List.mem_cons_of_mem _ hv)

/-- The expire time, if there is one, is kept, unsigned and of four bytes, and no discarded field
stands before it; a key has none behind it at all. -/
def ExpireReadable (t : TableDef) : Prop :=
  ∀ j, t.expireId = some j →
    (∀ f, t.keyFields ≤ j → t.fields[j]? = some f → f.discard = false ∧ f.IsU32) ∧
    ∀ i g, t.keyFields ≤ i → (t.keyFields ≤ j → i < j) → t.fields[i]? = some g → g.discard = false

/-- The last-modified time is unsigned and of four bytes. -/
def LastcmodReadable (t : TableDef) : Prop :=
  ∀ j f, t.lcmodId = some j → t.keyFields ≤ j → t.fields[j]? = some f → f.discard = false → f.IsU32

theorem decodeRow_eq {t : TableDef} {content : Bytes} {offset next : Nat}
    {row : List (Nat × DTCValue)} (h : decodeRow t content offset = some (row, next)) :
    skipSize 1 content offset = some (offset + 1) ∧
      decodeFields content (t.fields.drop t.keyFields) t.keyFields (offset + 1) =
        some (row, next) := by
  simp only [decodeRow, bind_eq_bind, bind_eq_some_iff, Prod.exists] at h
  obtain ⟨flag, mid, hflag, hrow⟩ := h
  obtain ⟨value, hvalue, hmid⟩ := map_eq_some_iff.mp hflag
  obtain ⟨hlen, -⟩ := ite_none_right_eq_some.mp hvalue
  obtain ⟨-, rfl⟩ := Prod.mk.inj hmid
  exact ⟨if_pos hlen, hrow⟩

theorem decodeRows_succ {decode : Nat → Option (List (Nat × DTCValue) × Nat)} {n offset next : Nat}
    {rows : List (List (Nat × DTCValue))} (h : decodeRows decode (n + 1) offset = some (rows, next)) :
    ∃ row mid rest, decode offset = some (row, mid) ∧ decodeRows decode n mid = some (rest, next) ∧
      rows = row :: rest := by
  simp only [decodeRows, bind_eq_bind, bind_eq_some_iff, pure_def,
    Option.some.injEq, Prod.mk.injEq, Prod.exists] at h
  obtain ⟨row, mid, hrow, rest, last, hrest, rfl, rfl⟩ := h
  exact ⟨row, mid, rest, hrow, hrest, rfl⟩

theorem isTime_none (row : List (Nat × DTCValue)) : IsTime none row 0 := ⟨nofun, fun _ => rfl⟩

theorem expireAgrees_of_readable {t : TableDef} (h : ExpireReadable t) : ExpireAgrees t := by
  intro content uiDataStart n row rows next hrows
  obtain ⟨row', mid, rest, hrow, -, hcons⟩ := decodeRows_succ hrows
  obtain ⟨rfl, -⟩ := List.cons.inj hcons
  obtain ⟨hskip, hfields⟩ := decodeRow_eq hrow
  rw [getExpireTime, getExpireTimeFrom]
  cases hid : t.expireId with
  | none => exact ⟨0, rfl, isTime_none row⟩
  | some j =>
    have hdrop {i : Nat} (hi : t.keyFields ≤ i) :
        (t.fields.drop t.keyFields)[i - t.keyFields]? = t.fields[i]? := by
      rw [List.getElem?_drop, Nat.add_sub_cancel' hi]
    obtain ⟨hu32, hbefore⟩ := h j hid
    rw [hskip]
    exact expireLoop_of_decodeFields hfields
      (fun i g hi hlt hg => hbefore i g hi hlt ((hdrop hi).symm.trans hg))
      (fun g hle hg => hu32 g hle ((hdrop hle).symm.trans hg))

theorem lastcmodAgrees_of_readable {t : TableDef} (h : LastcmodReadable t) : LastcmodAgrees t := by
  intro content uiDataStart n
  induction n generalizing uiDataStart with
  | zero =>
    intro rows next hrows
    obtain ⟨rfl, rfl⟩ := Prod.mk.inj (Option.some.inj hrows)
    exact ⟨[], rfl, .nil⟩
  | succ n ih =>
    intro rows next hrows
    obtain ⟨row, mid, rest, hrow, hrest, rfl⟩ := decodeRows_succ hrows
    obtain ⟨hskip, hfields⟩ := decodeRow_eq hrow
    have hu32 : ∀ i g, t.lcmodId = some i → t.keyFields ≤ i →
        (t.fields.drop t.keyFields)[i - t.keyFields]? = some g → g.discard = false → g.IsU32 := by
      intro i g hid hi hg
      refine h i g hid hi ?_
      rwa [List.getElem?_drop, Nat.add_sub_cancel' hi] at hg
    obtain ⟨time, htime, hint⟩ := lastcmodLoop_of_decodeFields hfields hu32 0
    obtain ⟨times, htimes, hints⟩ := ih mid rest next hrest
    have hget : getLastcmod t content uiDataStart = some (0, time, mid) := by
      simp only [getLastcmod, hskip, htime]
    refine ⟨time :: times, ?_, .cons hint hints⟩
    rw [getLastcmods, hget]
    simp [htimes]

end ISearch.RawData

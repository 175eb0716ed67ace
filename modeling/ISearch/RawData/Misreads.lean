import ISearch.RawData.Readers
import Mathlib.Tactic.IntervalCases

/-!
# Where the readers fail

For every table whose times a reader may miss there is a node on which it does. The rows of these
nodes are 0 but for one field, or all their bytes are 1.
-/

namespace ISearch.RawData

open List Option

/-! ## Rows of one byte -/

namespace FieldDef

/-- The bytes of a field that is 0 or empty. -/
def width (f : FieldDef) : Nat :=
  match f.type with
  | .string | .binary => 4
  | _ => if f.size > 4 then 8 else 4

theorem width_eq (f : FieldDef) : f.width = 4 ∨ f.width = 8 := by
  rw [width]
  split
  · exact .inl rfl
  · exact .inl rfl
  · split
    · exact .inr rfl
    · exact .inl rfl

/-- The bytes of a field that are all `b`, those of a length as well. -/
def widthOf (b : UInt8) (f : FieldDef) : Nat :=
  match f.type with
  | .string | .binary => 4 + ofLeBytes (replicate 4 b)
  | _ => if f.size > 4 then 8 else 4

theorem widthOf_zero (f : FieldDef) : f.widthOf 0 = f.width := by
  rw [widthOf, width]
  cases f.type <;> rfl

end FieldDef

def rowWidth : List FieldDef → Nat
  | [] => 0
  | f :: fs => (if f.discard then 0 else f.width) + rowWidth fs

def rowWidthOf (b : UInt8) : List FieldDef → Nat
  | [] => 0
  | f :: fs => (if f.discard then 0 else f.widthOf b) + rowWidthOf b fs

theorem rowWidthOf_zero (fs : List FieldDef) : rowWidthOf 0 fs = rowWidth fs := by
  induction fs with
  | nil => rfl
  | cons f fs ih => rw [rowWidthOf, rowWidth, ih, f.widthOf_zero]

theorem rowWidth_mod (fs : List FieldDef) : rowWidth fs % 4 = 0 := by
  induction fs with
  | nil => rfl
  | cons f fs ih =>
    have hwidth := f.width_eq
    rw [rowWidth]
    split <;> omega

theorem rowWidth_le (fs : List FieldDef) : rowWidth fs ≤ 8 * fs.length := by
  induction fs with
  | nil => exact le_rfl
  | cons f fs ih =>
    have hwidth := f.width_eq
    rw [rowWidth, length_cons]
    split <;> omega

theorem valueAt_append (p bs q : Bytes) :
    valueAt bs.length (p ++ bs ++ q) p.length = some (ofLeBytes bs) := by
  rw [valueAt, if_pos (by simp), append_assoc, drop_left, take_left]

theorem ofLeBytes_replicate_zero (n : Nat) : ofLeBytes (replicate n 0) = 0 := by
  induction n with
  | zero => rfl
  | succ n ih =>
    rw [replicate_succ, ofLeBytes, ih]
    rfl

theorem getValue_replicate (n : Nat) (b : UInt8) (p q : Bytes) :
    getValue n (p ++ replicate n b ++ q) p.length =
      some (ofLeBytes (replicate n b), p.length + n) := by
  have h := valueAt_append p (replicate n b) q
  rw [length_replicate] at h
  rw [getValue, h]
  rfl

theorem decodeField_replicate (b : UInt8) (f : FieldDef) (p q : Bytes)
    (hp : p.length + f.widthOf b < 2 ^ 32) :
    ∃ v, decodeField f (p ++ replicate (f.widthOf b) b ++ q) p.length =
      some (v, p.length + f.widthOf b) := by
  rw [FieldDef.widthOf] at hp ⊢
  rw [decodeField]
  cases htype : f.type <;> simp only [htype] at hp ⊢
  case signed | unsigned | float =>
    by_cases hsize : f.size > 4
    · rw [if_pos hsize, if_pos hsize, getValue_replicate]
      exact ⟨_, rfl⟩
    · rw [if_neg hsize, if_neg hsize, getValue_replicate]
      exact ⟨_, rfl⟩
  case string | binary =>
    have hvalue := getValue_replicate 4 b p (replicate (ofLeBytes (replicate 4 b)) b ++ q)
    generalize ofLeBytes (replicate 4 b) = len at hp hvalue ⊢
    rw [← append_assoc, append_assoc p, ← replicate_add] at hvalue
    have hnext : skipLen len (p ++ replicate (4 + len) b ++ q) (p.length + 4) =
        some (p.length + (4 + len)) := by
      rw [skipLen, Nat.add_assoc, Nat.mod_eq_of_lt hp, if_pos (by simp)]
    rw [hvalue]
    simp only [bind_eq_bind, bind_some, hnext]
    exact ⟨_, rfl⟩

theorem decodeFields_replicate (b : UInt8) (fs : List FieldDef) (j : Nat) (p q : Bytes)
    (hp : p.length + rowWidthOf b fs < 2 ^ 32) :
    ∃ vs, decodeFields (p ++ replicate (rowWidthOf b fs) b ++ q) fs j p.length =
      some (vs, p.length + rowWidthOf b fs) := by
  induction fs generalizing j p with
  | nil => exact ⟨[], rfl⟩
  | cons f fs ih =>
    rw [decodeFields]
    by_cases hdiscard : f.discard
    · have hwidth : rowWidthOf b (f :: fs) = rowWidthOf b fs := by
        rw [rowWidthOf, if_pos hdiscard, Nat.zero_add]
      rw [hwidth] at hp ⊢
      rw [if_pos hdiscard]
      exact ih (j + 1) p hp
    · have hwidth : rowWidthOf b (f :: fs) = f.widthOf b + rowWidthOf b fs := by
        rw [rowWidthOf, if_neg hdiscard]
      rw [hwidth] at hp ⊢
      obtain ⟨v, hv⟩ :=
        decodeField_replicate b f p (replicate (rowWidthOf b fs) b ++ q) (by omega)
      obtain ⟨vs, hvs⟩ := ih (j + 1) (p ++ replicate (f.widthOf b) b) (by
        rw [length_append, length_replicate]
        omega)
      have hcontent : p ++ replicate (f.widthOf b + rowWidthOf b fs) b ++ q =
          p ++ replicate (f.widthOf b) b ++ (replicate (rowWidthOf b fs) b ++ q) := by
        rw [replicate_add, append_assoc, append_assoc, append_assoc]
      rw [length_append, length_replicate, append_assoc (p ++ _)] at hvs
      rw [if_neg hdiscard, hcontent, hv]
      simp only [bind_eq_bind, bind_some, hvs]
      exact ⟨_, by rw [Nat.add_assoc]; rfl⟩

theorem decodeFields_zeros (fs : List FieldDef) (j : Nat) (p q : Bytes)
    (hp : p.length + rowWidth fs < 2 ^ 32) :
    ∃ vs, decodeFields (p ++ replicate (rowWidth fs) 0 ++ q) fs j p.length =
      some (vs, p.length + rowWidth fs) := by
  rw [← rowWidthOf_zero] at hp ⊢
  exact decodeFields_replicate 0 fs j p q hp

theorem decodeFields_append {content : Bytes} {fs gs : List FieldDef} {j offset mid next : Nat}
    {vs ws : List (Nat × DTCValue)} (hfs : decodeFields content fs j offset = some (vs, mid))
    (hgs : decodeFields content gs (j + fs.length) mid = some (ws, next)) :
    decodeFields content (fs ++ gs) j offset = some (vs ++ ws, next) := by
  induction fs generalizing j offset vs with
  | nil =>
    obtain ⟨rfl, rfl⟩ := Prod.mk.inj (Option.some.inj hfs)
    exact hgs
  | cons f fs ih =>
    rw [length_cons, ← Nat.add_assoc, Nat.add_right_comm] at hgs
    rw [cons_append, decodeFields]
    obtain ⟨hdiscard, hfs⟩ | ⟨hkept, v, here, us, hv, hus, rfl⟩ := decodeFields_cons hfs
    · rw [if_pos hdiscard]
      exact ih hfs hgs
    · rw [if_neg (Bool.eq_false_iff.mp hkept), hv]
      simp only [bind_eq_bind, bind_some, ih hus hgs]
      rfl

/-- What the decoder makes of the number in an integer field. -/
def intValue (f : FieldDef) (n : Nat) : DTCValue :=
  match f.type with
  | .signed =>
    if f.size > 4 then .s64 (UInt64.ofNat n).toInt64 else .s64 (UInt32.ofNat n).toInt32.toInt64
  | _ => .u64 (UInt64.ofNat n)

theorem decodeField_integer {f : FieldDef} (hf : f.IsInteger) {x : Bytes} (hx : x.length = f.width)
    (p q : Bytes) :
    decodeField f (p ++ x ++ q) p.length = some (intValue f (ofLeBytes x), p.length + f.width) := by
  have hvalue := valueAt_append p x q
  rw [FieldDef.width] at hx ⊢
  rw [decodeField, intValue]
  rcases hf with htype | htype <;> simp only [htype] at hx ⊢
  · by_cases hsize : f.size > 4
    · rw [if_pos hsize] at hx
      rw [if_pos hsize, if_pos hsize, getValue, ← hx, hvalue]
      rfl
    · rw [if_neg hsize] at hx
      rw [if_neg hsize, if_neg hsize, getValue, ← hx, hvalue]
      rfl
  · by_cases hsize : f.size > 4
    · rw [if_pos hsize] at hx
      rw [if_pos hsize, if_pos hsize, if_pos hsize, getValue, ← hx, hvalue]
      rfl
    · rw [if_neg hsize] at hx
      rw [if_neg hsize, if_neg hsize, if_neg hsize, getValue, ← hx, hvalue]
      rfl

/-- The row of zeros with `x` in one integer field. -/
def rowWith (before : List FieldDef) (x : Bytes) (after : List FieldDef) : Bytes :=
  0 :: replicate (rowWidth before) 0 ++ x ++ replicate (rowWidth after) 0

theorem decodeFields_rowWith {f : FieldDef} (hf : f.IsInteger) (hkept : f.discard = false)
    {x : Bytes} (hx : x.length = f.width) (before after : List FieldDef) (j : Nat) (p q : Bytes)
    (hlen : p.length + (rowWith before x after).length < 2 ^ 32) :
    ∃ row, decodeFields (p ++ rowWith before x after ++ q) (before ++ f :: after) j (p.length + 1) =
        some (row, p.length + (rowWith before x after).length) ∧
      (j + before.length, intValue f (ofLeBytes x)) ∈ row := by
  have hrow : (rowWith before x after).length =
      1 + rowWidth before + f.width + rowWidth after := by
    simp only [rowWith, cons_append, length_cons, length_append,
      length_replicate, hx]
    omega
  rw [hrow] at hlen ⊢
  obtain ⟨vs, hvs⟩ := decodeFields_zeros before j (p ++ [0])
    (x ++ replicate (rowWidth after) 0 ++ q) (by
      rw [length_append, length_singleton]
      omega)
  have hv := decodeField_integer hf hx (p ++ [0] ++ replicate (rowWidth before) 0)
    (replicate (rowWidth after) 0 ++ q)
  obtain ⟨ws, hws⟩ := decodeFields_zeros after (j + before.length + 1)
    (p ++ [0] ++ replicate (rowWidth before) 0 ++ x) q (by
      simp only [length_append, length_singleton, length_replicate, hx]
      omega)
  have hcontent : p ++ rowWith before x after ++ q =
      p ++ ([0] ++ (replicate (rowWidth before) 0 ++
        (x ++ (replicate (rowWidth after) 0 ++ q)))) := by
    simp only [rowWith, cons_append, append_assoc, nil_append]
  simp only [append_assoc, length_append, length_singleton, length_replicate,
    hx, ← Nat.add_assoc] at hvs hv hws
  have htail : decodeFields (p ++ rowWith before x after ++ q) (f :: after) (j + before.length)
      (p.length + 1 + rowWidth before) =
      some ((j + before.length, intValue f (ofLeBytes x)) :: ws,
        p.length + 1 + rowWidth before + f.width + rowWidth after) := by
    rw [hcontent, decodeFields, if_neg (Bool.eq_false_iff.mp hkept), hv]
    simp only [bind_eq_bind, bind_some, hws]
    rfl
  rw [← hcontent] at hvs
  refine ⟨vs ++ (j + before.length, intValue f (ofLeBytes x)) :: ws, ?_,
    mem_append_right vs (mem_cons_self ..)⟩
  rw [decodeFields_append hvs htail]
  simp only [Nat.add_assoc]

theorem length_rowWith {x : Bytes} (before after : List FieldDef) :
    (rowWith before x after).length = 1 + rowWidth before + x.length + rowWidth after := by
  simp only [rowWith, cons_append, length_cons, length_append,
    length_replicate]
  omega

/-- A number of an integer field, other than one of four bytes without a sign, that is no
`uint32_t`. -/
theorem exists_unreadable {f : FieldDef} (hf : f.IsInteger) (hu32 : ¬ f.IsU32) :
    ∃ x : Bytes, x.length = f.width ∧
      ∃ z, (intValue f (ofLeBytes x)).toInt? = some z ∧ (z < 0 ∨ 2 ^ 32 ≤ z) := by
  rcases hf with htype | htype
  · have hsize : f.size > 4 := not_le.mp fun h => hu32 ⟨htype, h⟩
    refine ⟨[0, 0, 0, 0, 1, 0, 0, 0], ?_, 2 ^ 32, ?_, .inr le_rfl⟩
    · simp [FieldDef.width, htype, hsize]
    · simp only [intValue, htype]
      decide
  · by_cases hsize : f.size > 4
    · refine ⟨replicate 8 255, ?_, -1, ?_, .inl (by norm_num)⟩
      · simp [FieldDef.width, htype, hsize]
      · simp only [intValue, htype, if_pos hsize]
        decide
    · refine ⟨replicate 4 255, ?_, -1, ?_, .inl (by norm_num)⟩
      · simp [FieldDef.width, htype, hsize]
      · simp only [intValue, htype, if_neg hsize]
        decide

theorem expireLoop_lt {content : Bytes} {id j offset time : Nat} {fs : List FieldDef} {iRet : Int}
    (h : expireLoop content id fs j offset = some (iRet, time)) : time < 2 ^ 32 := by
  induction fs generalizing j offset with
  | nil =>
    obtain ⟨-, rfl⟩ := Prod.mk.inj (Option.some.inj h)
    norm_num
  | cons f fs ih =>
    rw [expireLoop] at h
    split at h
    · obtain ⟨v, hv, htime⟩ := map_eq_some_iff.mp h
      obtain ⟨-, rfl⟩ := Prod.mk.inj htime
      exact valueAt_lt hv
    · split at h
      · obtain ⟨-, rfl⟩ := Prod.mk.inj (Option.some.inj h)
        norm_num
      · exact ih h

theorem lastcmodLoop_lt {content : Bytes} {id : Option Nat} {j offset acc time next : Nat}
    {fs : List FieldDef} {iRet : Int} (hacc : acc < 2 ^ 32)
    (h : lastcmodLoop content id fs j offset acc = some (iRet, time, next)) : time < 2 ^ 32 := by
  induction fs generalizing j offset acc with
  | nil =>
    obtain ⟨-, hnext⟩ := Prod.mk.inj (Option.some.inj h)
    obtain ⟨rfl, -⟩ := Prod.mk.inj hnext
    exact hacc
  | cons f fs ih =>
    rw [lastcmodLoop] at h
    split at h
    · exact ih hacc h
    · have hlast {now : Nat} (hlt : now < 2 ^ 32)
          (h : some ((-100 : Int), now, offset) = some (iRet, time, next)) : time < 2 ^ 32 := by
        obtain ⟨-, hnext⟩ := Prod.mk.inj (Option.some.inj h)
        obtain ⟨rfl, -⟩ := Prod.mk.inj hnext
        exact hlt
      by_cases hid : id = some j
      · simp only [if_pos hid, bind_eq_bind, bind_eq_some_iff] at h
        obtain ⟨now, hnow, h⟩ := h
        cases hskip : skipField f content offset <;> rw [hskip] at h
        · exact hlast (valueAt_lt hnow) h
        · exact ih (valueAt_lt hnow) h
      · simp only [if_neg hid, bind_eq_bind, bind_some] at h
        cases hskip : skipField f content offset <;> rw [hskip] at h
        · exact hlast hacc h
        · exact ih hacc h

/-! ## The nodes -/

section Node

variable {t : TableDef} {first j : Nat} {f : FieldDef}

theorem drop_eq_append (hle : first ≤ j) (hf : t.fields[j]? = some f) :
    t.fields.drop first =
      (t.fields.drop first).take (j - first) ++ f :: t.fields.drop (j + 1) := by
  obtain ⟨hlt, rfl⟩ := List.getElem?_eq_some_iff.mp hf
  have hdrop : (t.fields.drop first).drop (j - first) = t.fields.drop j := by
    rw [drop_drop, Nat.add_sub_cancel' hle]
  conv_lhs => rw [← take_append_drop (j - first) (t.fields.drop first), hdrop,
    drop_eq_getElem_cons hlt]

/-- A row of a table with `x` in the field `j`, the other fields being 0. -/
def rowOf (t : TableDef) (first j : Nat) (x : Bytes) : Bytes :=
  rowWith ((t.fields.drop first).take (j - first)) x (t.fields.drop (j + 1))

theorem length_rowOf_le (first : Nat) (hf : t.fields[j]? = some f) {x : Bytes}
    (hx : x.length = f.width) :
    (rowOf t first j x).length ≤ 1 + 8 * 240 := by
  obtain ⟨hlt, -⟩ := List.getElem?_eq_some_iff.mp hf
  have hbefore := rowWidth_le ((t.fields.drop first).take (j - first))
  have hafter := rowWidth_le (t.fields.drop (j + 1))
  have hwidth := f.width_eq
  have hfields := t.fields_le
  rw [length_take, length_drop] at hbefore
  rw [length_drop] at hafter
  rw [rowOf, length_rowWith, hx]
  omega

theorem decodeFields_rowOf (hle : first ≤ j) (hf : t.fields[j]? = some f) (hint : f.IsInteger)
    (hkept : f.discard = false) {x : Bytes} (hx : x.length = f.width) (p q : Bytes)
    (hlen : p.length + (rowOf t first j x).length < 2 ^ 32) :
    ∃ row, decodeFields (p ++ rowOf t first j x ++ q) (t.fields.drop first) first (p.length + 1) =
        some (row, p.length + (rowOf t first j x).length) ∧
      (j, intValue f (ofLeBytes x)) ∈ row := by
  obtain ⟨hlt, -⟩ := List.getElem?_eq_some_iff.mp hf
  obtain ⟨row, hrow, hmem⟩ := decodeFields_rowWith hint hkept hx
    ((t.fields.drop first).take (j - first)) (t.fields.drop (j + 1)) first p q hlen
  rw [← drop_eq_append hle hf] at hrow
  refine ⟨row, hrow, ?_⟩
  rwa [length_take, length_drop, min_eq_left (by omega), Nat.add_sub_cancel' hle] at hmem

theorem getValue_rowOf (x p q : Bytes) :
    getValue 1 (p ++ rowOf t first j x ++ q) p.length = some (0, p.length + 1) := by
  have hcontent : p ++ rowOf t first j x ++ q =
      p ++ replicate 1 0 ++ ((rowOf t first j x).tail ++ q) := by
    simp [rowOf, rowWith]
  rw [hcontent, getValue_replicate]
  rfl

/-- `decode_row` and `decode_tree_row` of such a row. -/
theorem decode_rowOf (hle : first ≤ j) (hf : t.fields[j]? = some f) (hint : f.IsInteger)
    (hkept : f.discard = false) {x : Bytes} (hx : x.length = f.width) (p q : Bytes)
    (hp : p.length < 2 ^ 31) :
    ∃ row, ((getValue 1 (p ++ rowOf t first j x ++ q) p.length).bind fun r =>
        decodeFields (p ++ rowOf t first j x ++ q) (t.fields.drop first) first r.2) =
        some (row, p.length + (rowOf t first j x).length) ∧ (j, intValue f (ofLeBytes x)) ∈ row := by
  have hlen := length_rowOf_le first hf hx
  obtain ⟨row, hrow, hmem⟩ := decodeFields_rowOf hle hf hint hkept hx p q (by omega)
  exact ⟨row, by rw [getValue_rowOf]; exact hrow, hmem⟩

/-- A node of one row, behind a header with a key of four bytes. -/
theorem decodeRows_node (hle : t.keyFields ≤ j) (hf : t.fields[j]? = some f) (hint : f.IsInteger)
    (hkept : f.discard = false) {x : Bytes} (hx : x.length = f.width) :
    ∃ row next, decodeRows (decodeRow t (replicate 20 0 ++ rowOf t t.keyFields j x)) 1 20 =
        some ([row], next) ∧ (j, intValue f (ofLeBytes x)) ∈ row := by
  obtain ⟨row, hrow, hmem⟩ :=
    decode_rowOf hle hf hint hkept hx (replicate 20 0) [] (by simp)
  rw [append_nil, length_replicate] at hrow
  refine ⟨row, 20 + (rowOf t t.keyFields j x).length, ?_, hmem⟩
  simp only [decodeRows, decodeRow, bind_eq_bind, hrow, bind_some]
  rfl

theorem isU32_of_expireAgrees (h : ExpireAgrees t) (hid : t.expireId = some j)
    (hle : t.keyFields ≤ j) (hf : t.fields[j]? = some f) (hkept : f.discard = false) : f.IsU32 := by
  by_contra hu32
  have hint := t.expire_integer j f hid hf
  obtain ⟨x, hx, z, hz, hout⟩ := exists_unreadable hint hu32
  obtain ⟨row, next, hrows, hmem⟩ := decodeRows_node hle hf hint hkept hx
  obtain ⟨time, htime, hvalue, -⟩ := h _ _ 0 row [] next hrows
  have hlt : time < 2 ^ 32 := by
    simp only [getExpireTime, getExpireTimeFrom, hid] at htime
    split at htime
    · simp at htime
    · exact expireLoop_lt htime
  obtain rfl : z = time := Option.some.inj (hz.symm.trans (hvalue j _ hid hmem))
  omega

theorem lastcmodReadable_of_agrees (h : LastcmodAgrees t) : LastcmodReadable t := by
  intro j f hid hle hf hkept
  by_contra hu32
  have hint := t.lcmod_integer j f hid hf
  obtain ⟨x, hx, z, hz, hout⟩ := exists_unreadable hint hu32
  obtain ⟨row, next, hrows, hmem⟩ := decodeRows_node hle hf hint hkept hx
  obtain ⟨times, htimes, hall⟩ := h _ _ 1 [row] next hrows
  obtain ⟨time, rest, htime, hrest, rfl⟩ := forall₂_cons_left_iff.mp hall
  obtain rfl := forall₂_nil_left_iff.mp hrest
  have hlt : time < 2 ^ 32 := by
    rw [getLastcmods] at htimes
    split at htimes
    · next last mid hget =>
      obtain ⟨hsame, -⟩ := Prod.mk.inj (Option.some.inj htimes)
      rw [getLastcmod] at hget
      split at hget
      · simp at hget
      · exact (List.cons.inj hsame).1 ▸ lastcmodLoop_lt (by norm_num) hget
    · simp at htimes
  obtain rfl : z = time := Option.some.inj (hz.symm.trans (htime.1 j _ hid hmem))
  omega

end Node

/-! ## Reading at the wrong place -/

theorem valueAt_four {content : Bytes} {o v : Nat} (h : valueAt 4 content o = some v) :
    ∃ a b c d : UInt8, content[o]? = some a ∧ content[o + 1]? = some b ∧
      content[o + 2]? = some c ∧ content[o + 3]? = some d ∧
      v = a.toNat + 256 * (b.toNat + 256 * (c.toNat + 256 * d.toNat)) := by
  obtain ⟨hlen, hv⟩ := ite_none_right_eq_some.mp h
  have hget (i : Nat) : (content.drop o)[i]? = content[o + i]? := List.getElem?_drop
  have hdrop : 4 ≤ (content.drop o).length := by
    rw [length_drop]
    omega
  match hbytes : content.drop o with
  | [] | [_] | [_, _] | [_, _, _] => simp [hbytes] at hdrop
  | a :: b :: c :: d :: rest =>
    rw [hbytes] at hget hv
    refine ⟨a, b, c, d, (hget 0).symm, (hget 1).symm, (hget 2).symm, (hget 3).symm, ?_⟩
    simpa [ofLeBytes, eq_comm] using hv

/-- From `s` on there is a 1 at `p`, and nothing else but zeros. -/
structure OneAt (content : Bytes) (s p : Nat) : Prop where
  one : content[p]? = some 1
  zero : ∀ i b, s ≤ i → i ≠ p → content[i]? = some b → b = 0

namespace OneAt

variable {content : Bytes} {s p o v : Nat}

theorem valueAt_eq (h : OneAt content s p) (hs : s ≤ o) (hv : valueAt 4 content o = some v) :
    v = if o ≤ p ∧ p < o + 4 then 256 ^ (p - o) else 0 := by
  obtain ⟨a, b, c, d, ha, hb, hc, hd, rfl⟩ := valueAt_four hv
  have hbyte {i : Nat} {x : UInt8} (hx : content[o + i]? = some x) :
      x.toNat = if o + i = p then 1 else 0 := by
    split
    · next hi =>
      rw [hi, h.one] at hx
      rw [← Option.some.inj hx]
      rfl
    · next hi =>
      rw [h.zero (o + i) x (by omega) hi hx]
      rfl
  rw [hbyte (i := 0) ha, hbyte hb, hbyte hc, hbyte hd]
  by_cases hwindow : o ≤ p ∧ p < o + 4
  · obtain ⟨k, rfl⟩ := Nat.exists_eq_add_of_le hwindow.1
    have hk : k < 4 := by omega
    rw [if_pos hwindow, Nat.add_sub_cancel_left]
    simp only [Nat.add_left_cancel_iff]
    interval_cases k <;> rfl
  · rw [if_neg hwindow]
    have hne (i : Nat) (hi : i < 4) : o + i ≠ p := by omega
    rw [if_neg (hne 0 (by omega)), if_neg (hne 1 (by omega)), if_neg (hne 2 (by omega)),
      if_neg (hne 3 (by omega))]

theorem valueAt_le (h : OneAt content s p) (hs : s ≤ o) (hv : valueAt 4 content o = some v) :
    v ≤ 256 ^ 3 := by
  rw [h.valueAt_eq hs hv]
  split
  · exact Nat.pow_le_pow_right (by norm_num) (by omega)
  · exact Nat.zero_le _

end OneAt

/-- A reader steps over a field by its width, or by what it takes for the length of a string. -/
theorem skipField_step {f : FieldDef} {content : Bytes} {o o' : Nat}
    (h : skipField f content o = some o') :
    o' = o + f.width ∨ f.width = 4 ∧ ∃ len, valueAt 4 content o = some len ∧
      o' = (o + 4 + len) % 2 ^ 32 ∧ o' ≤ content.length := by
  rw [skipField] at h
  rw [FieldDef.width]
  cases htype : f.type <;> simp only [htype] at h ⊢
  case signed | unsigned | float =>
    left
    split at h
    · next hsize =>
      rw [if_pos hsize]
      exact (Option.some.inj (ite_none_right_eq_some.mp h).2).symm
    · next hsize =>
      rw [if_neg hsize]
      exact (Option.some.inj (ite_none_right_eq_some.mp h).2).symm
  case string | binary =>
    right
    simp only [bind_eq_bind, bind_eq_some_iff, Prod.exists, getValue,
      map_eq_some_iff, Prod.mk.injEq] at h
    obtain ⟨_, o₁, ⟨len, hlen, rfl, rfl⟩, h⟩ := h
    obtain ⟨hle, hnext⟩ := ite_none_right_eq_some.mp h
    exact ⟨trivial, len, hlen, (Option.some.inj hnext).symm, Option.some.inj hnext ▸ hle⟩

/-- A length read behind `s` does not wrap around. -/
theorem OneAt.skipField_cases {content : Bytes} {s p o o' : Nat} (h : OneAt content s p)
    (hlen : content.length < 2 ^ 31) (hs : s ≤ o) {f : FieldDef}
    (hskip : skipField f content o = some o') :
    o' = o + f.width ∨ f.width = 4 ∧ o ≤ p ∧ p < o + 4 ∧ p + 1 < o' ∧ o + 4 < o' := by
  obtain hnext | ⟨hwidth, len, hvalue, hnext, -⟩ := skipField_step hskip
  · exact .inl hnext
  have hle := h.valueAt_le hs hvalue
  have hin := (ite_none_right_eq_some.mp hvalue).1
  rw [Nat.mod_eq_of_lt (by omega)] at hnext
  have heq := h.valueAt_eq hs hvalue
  split at heq
  · next hwindow =>
    have hpos : 0 < len := heq ▸ Nat.pow_pos (by norm_num)
    exact .inr ⟨hwidth, hwindow.1, hwindow.2, by omega, by omega⟩
  · exact .inl (by omega)

/-- Once `get_expire_time` is ahead of the decoder, which is so behind a discarded field, it reads
the time behind its place. -/
theorem OneAt.expireLoop_ahead {content : Bytes} {s p id : Nat} (h : OneAt content s p)
    (hlen : content.length < 2 ^ 31) {fs : List FieldDef} {j t o : Nat} (hj : j ≤ id)
    (hp : p = t + rowWidth (fs.take (id - j))) (hs : s ≤ o)
    (hahead : t + 4 ≤ o ∨ o = t ∧ ∃ g ∈ fs.take (id - j), g.discard = true) :
    expireLoop content id fs j o ≠ some (0, 1) := by
  induction fs generalizing j t o with
  | nil => simp [expireLoop]
  | cons f fs ih =>
    rw [expireLoop]
    by_cases hid : j = id
    · subst hid
      simp only [Nat.sub_self, take_zero, rowWidth, Nat.add_zero, not_mem_nil, false_and,
        exists_false, and_false, or_false] at hp hahead
      rw [if_pos rfl]
      cases hvalue : valueAt 4 content o with
      | none => simp
      | some v =>
        have hv := h.valueAt_eq hs hvalue
        rw [if_neg (by omega)] at hv
        simp [hv]
    · rw [if_neg hid]
      have htake : (f :: fs).take (id - j) = f :: fs.take (id - (j + 1)) := by
        rw [show id - j = id - (j + 1) + 1 by omega, take_succ_cons]
      rw [htake, rowWidth] at hp
      rw [htake] at hahead
      cases hskip : skipField f content o with
      | none => simp
      | some o' =>
        have hwidth := f.width_eq
        refine ih (t := t + if f.discard then 0 else f.width) (by omega) (by omega) ?_ ?_
        · rcases h.skipField_cases hlen hs hskip with hnext | ⟨-, -, -, -, hnext⟩ <;> omega
        have hstep := h.skipField_cases hlen hs hskip
        rcases hahead with hahead | ⟨rfl, g, hg, hdiscard⟩
        · left
          split <;> omega
        · by_cases hf : f.discard
          · left
            rw [if_pos hf]
            omega
          · rw [if_neg hf] at hp ⊢
            refine .inr ⟨by omega, g, ?_, hdiscard⟩
            rcases mem_cons.mp hg with rfl | hg
            · exact absurd hdiscard hf
            · exact hg

/-- In a record `get_expire_time` starts nine bytes early, and neither the fields nor the header
make up for them. -/
theorem OneAt.expireLoop_tree {content : Bytes} {p id : Nat} (h : OneAt content 9 p)
    (hp : p % 4 = 2) (hlen : content.length < 2 ^ 31) (hlong : 10 ≤ content.length)
    (hsize : valueAt 4 content 1 = some content.length) (hrows : valueAt 4 content 5 = some 4)
    {fs : List FieldDef} {j o : Nat} (ho : o = 1 ∨ o = 5 ∨ 9 ≤ o ∧ (o % 4 = 1 ∨ p < o)) :
    expireLoop content id fs j o ≠ some (0, 1) := by
  induction fs generalizing j o with
  | nil => simp [expireLoop]
  | cons f fs ih =>
    rw [expireLoop]
    split
    · cases hvalue : valueAt 4 content o with
      | none => simp
      | some v =>
        have hv : v ≠ 1 := by
          rcases ho with rfl | rfl | ⟨hs, ho⟩
          · have hv := Option.some.inj (hsize.symm.trans hvalue)
            omega
          · have hv := Option.some.inj (hrows.symm.trans hvalue)
            omega
          · rw [h.valueAt_eq hs hvalue]
            split
            · obtain ⟨k, rfl⟩ := Nat.exists_eq_add_of_lt (show o < p by omega)
              rw [show o + k + 1 - o = k + 1 by omega, pow_succ]
              omega
            · norm_num
        simp [hv]
    · cases hskip : skipField f content o with
      | none => simp
      | some o' =>
        have hwidth := f.width_eq
        refine ih ?_
        rcases ho with rfl | rfl | ⟨hs, ho⟩
        · obtain hnext | ⟨-, len, hvalue, hnext, hle⟩ := skipField_step hskip
          · omega
          · rw [hsize] at hvalue
            obtain rfl := Option.some.inj hvalue
            rw [Nat.mod_eq_of_lt (by omega)] at hnext
            omega
        · obtain hnext | ⟨-, len, hvalue, hnext, -⟩ := skipField_step hskip
          · omega
          · rw [hrows] at hvalue
            obtain rfl := Option.some.inj hvalue
            rw [Nat.mod_eq_of_lt (by norm_num)] at hnext
            omega
        · have hstep := h.skipField_cases hlen hs hskip
          omega

theorem oneAt_zeros (q : Bytes) (a b : Nat) :
    OneAt (q ++ replicate a 0 ++ 1 :: replicate b 0) q.length (q.length + a) := by
  constructor
  · rw [List.getElem?_append_right (by simp)]
    simp
  · intro i c hi hne hc
    rw [append_assoc, List.getElem?_append_right hi] at hc
    obtain ⟨k, rfl⟩ := Nat.exists_eq_add_of_le hi
    rw [Nat.add_sub_cancel_left] at hc
    rw [List.getElem?_append] at hc
    split at hc
    · exact eq_of_mem_replicate (mem_of_getElem? hc)
    · next hk =>
      obtain ⟨m, hm⟩ := Nat.exists_eq_succ_of_ne_zero (show k - a ≠ 0 by
        rw [length_replicate] at hk
        omega)
      rw [length_replicate, hm, List.getElem?_cons_succ] at hc
      exact eq_of_mem_replicate (mem_of_getElem? hc)

/-- The bytes of a field that is 1. -/
def oneBytes (f : FieldDef) : Bytes := 1 :: replicate (f.width - 1) 0

theorem length_oneBytes (f : FieldDef) : (oneBytes f).length = f.width := by
  have hwidth := f.width_eq
  rw [oneBytes, length_cons, length_replicate]
  omega

theorem intValue_one {f : FieldDef} (hf : f.IsInteger) :
    (intValue f (ofLeBytes (oneBytes f))).toInt? = some (1 : Nat) := by
  have hone : ofLeBytes (oneBytes f) = 1 := by
    rw [oneBytes, ofLeBytes, ofLeBytes_replicate_zero]
    rfl
  rw [hone, intValue]
  rcases hf with htype | htype <;> simp only [htype]
  · rfl
  · split <;> rfl

theorem rowOf_one {t : TableDef} {f : FieldDef} (first j : Nat) :
    rowOf t first j (oneBytes f) =
      replicate (1 + rowWidth ((t.fields.drop first).take (j - first))) 0 ++
        1 :: replicate (f.width - 1 + rowWidth (t.fields.drop (j + 1))) 0 := by
  rw [rowOf, rowWith, oneBytes, replicate_add, replicate_add, replicate_one]
  simp only [cons_append, append_assoc, nil_append]

/-! ### Bytes that are all 1 -/

/-- From `s` on all bytes are 1. -/
def OnesFrom (content : Bytes) (s : Nat) : Prop := ∀ i b, s ≤ i → content[i]? = some b → b = 1

theorem onesFrom_append (p : Bytes) (n : Nat) :
    OnesFrom (p ++ replicate n 1) p.length := by
  intro i b hi hb
  rw [List.getElem?_append_right hi] at hb
  exact eq_of_mem_replicate (mem_of_getElem? hb)

theorem OnesFrom.valueAt_eq {content : Bytes} {s o v : Nat} (h : OnesFrom content s) (hs : s ≤ o)
    (hv : valueAt 4 content o = some v) : v = 16843009 := by
  obtain ⟨a, b, c, d, ha, hb, hc, hd, rfl⟩ := valueAt_four hv
  rw [h o a hs ha, h _ b (by omega) hb, h _ c (by omega) hc, h _ d (by omega) hd]
  rfl

/-- The readers step over a field as the decoder does. -/
theorem OnesFrom.skipField_eq {content : Bytes} {s o o' : Nat} (h : OnesFrom content s)
    (hlen : content.length + 16843009 < 2 ^ 32) (hs : s ≤ o) {f : FieldDef}
    (hskip : skipField f content o = some o') :
    o' = o + f.widthOf 1 ∧ o' ≤ content.length := by
  rw [skipField] at hskip
  rw [FieldDef.widthOf]
  have hsize {n : Nat} (h : skipSize n content o = some o') :
      o' = o + n ∧ o' ≤ content.length := by
    obtain ⟨hle, hnext⟩ := ite_none_right_eq_some.mp h
    obtain rfl := Option.some.inj hnext
    exact ⟨rfl, hle⟩
  cases htype : f.type <;> simp only [htype] at hskip ⊢
  case signed | unsigned | float =>
    split_ifs at hskip ⊢
    · exact hsize hskip
    · exact hsize hskip
  case string | binary =>
    simp only [bind_eq_bind, bind_eq_some_iff, Prod.exists, getValue,
      map_eq_some_iff, Prod.mk.injEq] at hskip
    obtain ⟨_, _, ⟨len, hvalue, rfl, rfl⟩, hskip⟩ := hskip
    obtain ⟨hle, hnext⟩ := ite_none_right_eq_some.mp hskip
    have hin := (ite_none_right_eq_some.mp hvalue).1
    obtain rfl := h.valueAt_eq hs hvalue
    rw [Nat.mod_eq_of_lt (by omega)] at hnext hle
    rw [← Option.some.inj hnext]
    exact ⟨Nat.add_assoc _ _ _, hle⟩

theorem widthOf_one_pos (f : FieldDef) : 4 ≤ f.widthOf 1 ∧ f.widthOf 1 ≤ 16843013 := by
  rw [FieldDef.widthOf, show ofLeBytes (replicate 4 1) = 16843009 from rfl]
  cases f.type <;> dsimp only <;> (try split_ifs) <;> omega

theorem rowWidthOf_one_le (fs : List FieldDef) : rowWidthOf 1 fs ≤ 16843013 * fs.length := by
  induction fs with
  | nil => exact le_rfl
  | cons f fs ih =>
    have hwidth := (widthOf_one_pos f).2
    rw [rowWidthOf, length_cons]
    split <;> omega

/-- In a row of ones with a discarded field the loop reads such bytes or comes to the end of the
chunk. -/
theorem OnesFrom.expireLoop_ahead {content : Bytes} {s id : Nat} (h : OnesFrom content s)
    (hlen : content.length + 16843009 < 2 ^ 32) {fs : List FieldDef} {j t o : Nat}
    (ht : content.length = t + rowWidthOf 1 fs) (hs : s ≤ o) (ho : o ≤ content.length)
    (hahead : t < o ∨ o = t ∧ ∃ g ∈ fs, g.discard = true) :
    expireLoop content id fs j o ≠ some (0, 0) := by
  induction fs generalizing j t o with
  | nil =>
    rw [rowWidthOf] at ht
    obtain hlt | ⟨-, g, hg, -⟩ := hahead
    · omega
    · exact absurd hg not_mem_nil
  | cons f fs ih =>
    rw [expireLoop]
    split
    · cases hvalue : valueAt 4 content o with
      | none => simp
      | some v => simp [h.valueAt_eq hs hvalue]
    · cases hskip : skipField f content o with
      | none => simp
      | some o' =>
        obtain ⟨rfl, hle⟩ := h.skipField_eq hlen hs hskip
        have hwidth := (widthOf_one_pos f).1
        rw [rowWidthOf, ← Nat.add_assoc] at ht
        refine ih ht (by omega) hle ?_
        obtain hlt | ⟨rfl, g, hg, hdiscard⟩ := hahead
        · left
          split <;> omega
        · by_cases hf : f.discard
          · left
            rw [if_pos hf]
            omega
          · rw [if_neg hf]
            refine .inr ⟨rfl, g, ?_, hdiscard⟩
            rcases mem_cons.mp hg with rfl | hg
            · exact absurd hdiscard hf
            · exact hg

theorem notMem_of_discarded {t : TableDef} {content : Bytes} {first j o next : Nat}
    {row : List (Nat × DTCValue)}
    (hrow : decodeFields content (t.fields.drop first) first o = some (row, next))
    (hnone : ∀ f, first ≤ j → t.fields[j]? = some f → f.discard = true) (v : DTCValue) :
    (j, v) ∉ row := by
  intro hv
  obtain ⟨hle, f, hf, hkept⟩ := le_of_mem_decodeFields hrow hv
  rw [List.getElem?_drop, Nat.add_sub_cancel' hle] at hf
  rw [hnone f hle hf] at hkept
  cases hkept

/-- A row whose bytes are all `b`. -/
theorem decode_replicate (b : UInt8) (fs : List FieldDef) (j : Nat) (p : Bytes)
    (hp : p.length + (1 + rowWidthOf b fs) < 2 ^ 32) :
    ∃ flag row, getValue 1 (p ++ replicate (1 + rowWidthOf b fs) b) p.length =
        some (flag, p.length + 1) ∧
      decodeFields (p ++ replicate (1 + rowWidthOf b fs) b) fs j (p.length + 1) =
        some (row, p.length + (1 + rowWidthOf b fs)) := by
  have hflag := getValue_replicate 1 b p (replicate (rowWidthOf b fs) b)
  obtain ⟨row, hrow⟩ := decodeFields_replicate b fs j (p ++ replicate 1 b) [] (by
    rw [length_append, length_replicate]
    omega)
  rw [append_nil, length_append, length_replicate] at hrow
  rw [append_assoc, ← replicate_add] at hflag hrow
  exact ⟨_, row, hflag, by rw [hrow, Nat.add_assoc]⟩

/-- Where the rows keep no expire time, a discarded field leads the reader off. -/
theorem ExpireAgrees.discard_eq_false {t : TableDef} (h : ExpireAgrees t) {j : Nat}
    (hid : t.expireId = some j)
    (hnone : ∀ f, t.keyFields ≤ j → t.fields[j]? = some f → f.discard = true) {i : Nat}
    {g : FieldDef} (hi : t.keyFields ≤ i) (hg : t.fields[i]? = some g) : g.discard = false := by
  by_contra hdiscard
  have hle := rowWidthOf_one_le (t.fields.drop t.keyFields)
  have hfields := t.fields_le
  rw [length_drop] at hle
  have hmem : g ∈ t.fields.drop t.keyFields := by
    refine mem_of_getElem? (i := i - t.keyFields) ?_
    rw [List.getElem?_drop, Nat.add_sub_cancel' hi, hg]
  have hahead {content : Bytes} (hone : OnesFrom content 20)
      (hlength : content.length = 20 + 1 + rowWidthOf 1 (t.fields.drop t.keyFields)) :
      expireLoop content j (t.fields.drop t.keyFields) t.keyFields 21 ≠ some (0, 0) :=
    hone.expireLoop_ahead (by omega) hlength (by norm_num) (by omega)
      (.inr ⟨rfl, g, hmem, by simpa using hdiscard⟩)
  obtain ⟨_, row, hflag, hrow⟩ := decode_replicate 1 (t.fields.drop t.keyFields) t.keyFields
    (replicate 20 0) (by rw [length_replicate]; omega)
  generalize rowWidthOf 1 (t.fields.drop t.keyFields) = n at hflag hrow hahead
  have hone := onesFrom_append (replicate 20 0) (1 + n)
  have hlength : (replicate 20 0 ++ replicate (1 + n) 1 : Bytes).length = 20 + 1 + n := by
    rw [length_append, length_replicate, length_replicate, Nat.add_assoc]
  rw [length_replicate] at hflag hrow hone
  obtain ⟨time, htime, -, hzero⟩ := h _ 20 0 row [] _ (by
    rw [decodeRows, decodeRow, hflag]
    simp only [bind_eq_bind, bind_some, hrow]
    rfl)
  obtain rfl := hzero fun k v hk => Option.some.inj (hid.symm.trans hk) ▸
    notMem_of_discarded hrow hnone v
  simp only [getExpireTime, getExpireTimeFrom, hid] at htime
  rw [skipSize, if_pos (by omega)] at htime
  exact hahead hone hlength htime

theorem ExpireAgrees.before_kept {t : TableDef} (h : ExpireAgrees t) {j : Nat} {f : FieldDef}
    (hid : t.expireId = some j) (hle : t.keyFields ≤ j) (hf : t.fields[j]? = some f)
    (hkept : f.discard = false) {i : Nat} {g : FieldDef} (hi : t.keyFields ≤ i) (hlt : i < j)
    (hg : t.fields[i]? = some g) : g.discard = false := by
  by_contra hdiscard
  have hint := t.expire_integer j f hid hf
  have hx := length_oneBytes f
  obtain ⟨row, next, hrows, hmem⟩ := decodeRows_node hle hf hint hkept hx
  obtain ⟨time, htime, hvalue, -⟩ := h _ _ 0 row [] next hrows
  have htoInt := hvalue j _ hid hmem
  rw [intValue_one hint] at htoInt
  obtain rfl : 1 = time := Int.ofNat_inj.mp (Option.some.inj htoInt)
  have hlen : (replicate 20 0 ++ rowOf t t.keyFields j (oneBytes f)).length < 2 ^ 31 := by
    have hrow := length_rowOf_le t.keyFields hf hx
    rw [length_append, length_replicate]
    omega
  have hbefore : g ∈ (t.fields.drop t.keyFields).take (j - t.keyFields) := by
    refine mem_of_getElem? (i := i - t.keyFields) ?_
    rw [List.getElem?_take_of_lt (by omega), List.getElem?_drop, Nat.add_sub_cancel' hi, hg]
  rw [rowOf_one, ← append_assoc, ← replicate_add] at htime hlen
  have hone := oneAt_zeros [] (20 + (1 + rowWidth ((t.fields.drop t.keyFields).take
    (j - t.keyFields)))) (f.width - 1 + rowWidth (t.fields.drop (j + 1)))
  rw [nil_append, length_nil, Nat.zero_add] at hone
  simp only [getExpireTime, getExpireTimeFrom, hid] at htime
  split at htime
  · simp at htime
  · next o hskip =>
    obtain rfl : 20 + 1 = o := Option.some.inj (ite_none_right_eq_some.mp hskip).2
    exact hone.expireLoop_ahead hlen hle (by omega) (Nat.zero_le _)
      (.inr ⟨rfl, g, hbefore, by simpa using hdiscard⟩) htime

theorem expireReadable_of_agrees {t : TableDef} (h : ExpireAgrees t) : ExpireReadable t := by
  intro j hid
  have hkept {f : FieldDef} (hle : t.keyFields ≤ j) (hf : t.fields[j]? = some f) :
      f.discard = false := by
    by_contra hdiscard
    refine hdiscard (h.discard_eq_false hid (fun f' _ hf' => ?_) hle hf)
    rw [← Option.some.inj (hf.symm.trans hf')]
    simpa using hdiscard
  refine ⟨fun f hle hf => ⟨hkept hle hf, isU32_of_expireAgrees h hid hle hf (hkept hle hf)⟩,
    fun i g hi hlt hg => ?_⟩
  by_cases hrow : ∃ f, t.keyFields ≤ j ∧ t.fields[j]? = some f
  · obtain ⟨f, hle, hf⟩ := hrow
    exact h.before_kept hid hle hf (hkept hle hf) hi (hlt hle) hg
  · exact h.discard_eq_false hid (fun f hle hf => absurd ⟨f, hle, hf⟩ hrow) hi hg

end ISearch.RawData

import ISearch.RocksProcess.Operations
import Mathlib.Data.UInt

/-!
# Replace (`db_process_rocks.cc`)

`process_replace` completes the row of the request with defaults and stores it. An addition is meant
to start from the default of its field; the code takes the default of the column whose number is the
position of the operation in the list.

`none` stands for an access the code must not make. The default of a String column that is read as a
number is the first word of the string in memory, `word`.
-/

namespace ISearch.RocksProcess

open List (map_cons mem_cons forall_mem_cons)
open KeyFormat Function

variable {t : Table}

structure ReplaceRequest (t : Table) where
  key : (t.type 0).Value
  operation : UpdateInfo t

/-- `"unkonwn field type!"`. -/
inductive ReplaceError where
  | unknownFieldType

/-- The `s64` of a `DTCValue`. -/
def wordOf (word : Bytes → UInt64) : (ty : FieldType) → ty.Value → UInt64
  | .signed, v => Int64.toUInt64 v
  | .unsigned, v => v
  | .string, v | .binary, v => word v

/-- The sum of an `Add`, in the type of the addend. -/
def addDefault (defValue : UInt64) : (ty : FieldType) → ty.Value → Option Bytes
  | .signed, v => some (toStringS64 ((show Int64 from v) + defValue.toInt64))
  | .unsigned, v => some (toStringU64 ((show UInt64 from v) + defValue))
  | .string, _ | .binary, _ => none

/-- The loop of `process_replace` over the operations, from the position `idx` on. -/
def replaceLoop (word : Bytes → UInt64) : Nat → UpdateInfo t → (t.FieldId → Bytes) →
    Option (Except ReplaceError (t.FieldId → Bytes))
  | _, [], strs => some (.ok strs)
  | idx, ⟨i, .set value⟩ :: ops, strs =>
    replaceLoop word (idx + 1) ops (update strs i ((t.type i).toStr value))
  | idx, ⟨i, .add type value⟩ :: ops, strs =>
    if h : idx < t.numFields + 1 then
      match addDefault
        (wordOf word (t.type ⟨idx, h⟩) (t.column ⟨idx, h⟩).defaultValue) type value with
      | some fieldValue => replaceLoop word (idx + 1) ops (update strs i fieldValue)
      | none => some (.error .unknownFieldType)
    else none
  | idx, ⟨i, .unsupported⟩ :: ops, strs =>
    replaceLoop word (idx + 1) ops (update strs i [])

/-- The strings of the fields, after the default values are set. -/
def withDefaults (updateInfo : UpdateInfo t) (strs : t.FieldId → Bytes) (i : t.FieldId) : Bytes :=
  if i = 0 ∨ (updateInfo.any fun op => op.1 = i) then strs i
  else (t.type i).toStr (t.column i).defaultValue

def processReplace (word : Bytes → UInt64) (db : Db) (req : ReplaceRequest t) :
    Option (Except ReplaceError Db) := do
  match ← replaceLoop word 0 req.operation
      (update (fun _ => []) 0 ((t.type 0).toStr req.key)) with
  | .error e => return .error e
  | .ok strs =>
    let strs := withDefaults req.operation strs
    let (rocksKey, rocksValue) ← t.rocksEntry (t.uniqFields.map strs) (t.valueFields.map strs)
    return .ok (db.put rocksKey rocksValue)

/-- What an operation makes of the row: an addition starts from the default of its field. -/
def completeField (row : Row t) : (i : t.FieldId) × Operation t i → Row t
  | ⟨i, .set value⟩ => row.set i value
  | ⟨i, .add type value⟩ => row.set i (addBits (t.type i) (t.defaultRow i) (bitsOf type value))
  | ⟨_, .unsupported⟩ => row

def ReplaceRequest.completed (req : ReplaceRequest t) : Row t :=
  req.operation.foldl completeField (t.defaultRow.set 0 req.key)

/-- The request to insert a row. -/
def insertRequest (row : Row t) : InsertRequest t where
  key := row 0
  operation := (List.finRange (t.numFields + 1)).map fun i => ⟨i, row i⟩

theorem row_insertRequest (row : Row t) : (insertRequest row).row = row := by
  funext i
  rw [InsertRequest.row, insertRequest]
  by_cases h0 : i = 0
  · subst h0
    exact (foldl_set_zero _ _).trans (Row.set_self ..)
  · exact foldl_set_eq row h0 (.inl (List.mem_finRange i))

/-- The completed row is stored, as an insert would store it. -/
def ReplaceOk (word : Bytes → UInt64) (db : Db) (req : ReplaceRequest t) : Prop :=
  processReplace word db req =
      some (.ok (db.put req.completed.rocksKey req.completed.rocksValue)) ∧
    (db.get? req.completed.rocksKey = none →
      processInsert db (insertRequest req.completed) =
        some (.ok (db.put req.completed.rocksKey req.completed.rocksValue)))

/-- A string that is assigned to a field, beside the value that is meant. -/
abbrev Assignment (t : Table) : Type := (i : t.FieldId) × (Bytes × (t.type i).Value)

def assignStrs (strs : t.FieldId → Bytes) (as : List (Assignment t)) : t.FieldId → Bytes :=
  as.foldl (fun strs a => update strs a.1 a.2.1) strs

def assignRow (row : Row t) (as : List (Assignment t)) : Row t :=
  as.foldl (fun row a => row.set a.1 a.2.2) row

/-- The last assignment to every field is as `P` says. -/
def LastAll (P : (i : t.FieldId) → Bytes → (t.type i).Value → Prop) : List (Assignment t) → Prop
  | [] => True
  | a :: as => (a.1 ∉ as.map Sigma.fst → P a.1 a.2.1 a.2.2) ∧ LastAll P as

section Assignments

variable {P : (i : t.FieldId) → Bytes → (t.type i).Value → Prop} {as : List (Assignment t)}
  {strs : t.FieldId → Bytes} {row : Row t} {i : t.FieldId}

theorem assignStrs_of_notMem (h : i ∉ as.map Sigma.fst) : assignStrs strs as i = strs i := by
  induction as generalizing strs with
  | nil => rfl
  | cons a as ih =>
    rw [map_cons, mem_cons, not_or] at h
    obtain ⟨hne, hrest⟩ := h
    exact (ih hrest).trans (update_of_ne hne _ _)

theorem assignRow_of_notMem (h : i ∉ as.map Sigma.fst) : assignRow row as i = row i := by
  induction as generalizing row with
  | nil => rfl
  | cons a as ih =>
    rw [map_cons, mem_cons, not_or] at h
    obtain ⟨hne, hrest⟩ := h
    exact (ih hrest).trans (Row.set_of_ne _ hne _)

theorem lastAll_iff (strs : t.FieldId → Bytes) (row : Row t) : LastAll P as ↔
    ∀ i ∈ as.map Sigma.fst, P i (assignStrs strs as i) (assignRow row as i) := by
  induction as generalizing strs row with
  | nil => simp [LastAll]
  | cons a as ih =>
    rw [LastAll, ih (update strs a.1 a.2.1) (row.set a.1 a.2.2),
      map_cons, forall_mem_cons]
    refine and_congr_left fun hrest => ⟨fun h => ?_, fun h hlast => ?_⟩
    · by_cases hlater : a.1 ∈ as.map Sigma.fst
      · exact hrest a.1 hlater
      · have hs : assignStrs strs (a :: as) a.1 = a.2.1 :=
          (assignStrs_of_notMem hlater).trans (update_self ..)
        have hx : assignRow row (a :: as) a.1 = a.2.2 :=
          (assignRow_of_notMem hlater).trans (Row.set_self ..)
        rw [hs, hx]
        exact h hlater
    · have hs : assignStrs strs (a :: as) a.1 = a.2.1 :=
        (assignStrs_of_notMem hlast).trans (update_self ..)
      have hx : assignRow row (a :: as) a.1 = a.2.2 :=
        (assignRow_of_notMem hlast).trans (Row.set_self ..)
      rwa [hs, hx] at h

theorem lastAll_of_forall (h : ∀ a ∈ as, P a.1 a.2.1 a.2.2) : LastAll P as := by
  induction as with
  | nil => trivial
  | cons a as ih =>
    rw [forall_mem_cons] at h
    exact ⟨fun _ => h.1, ih h.2⟩

end Assignments

/-! ## What is stored of a sum -/

def IntegerType (ty : FieldType) : Prop := ty = .signed ∨ ty = .unsigned

/-- A sum that the field clamps: an Unsigned one for a Signed field. -/
def Clamped (ty type : FieldType) (sum : UInt64) : Prop :=
  ty = .signed ∧ type = .unsigned ∧ 2 ^ 63 ≤ sum.toNat

instance (ty type : FieldType) (sum : UInt64) : Decidable (Clamped ty type sum) :=
  inferInstanceAs (Decidable (_ ∧ _ ∧ _))

theorem strtoll_toStringU64 (u : UInt64) :
    (strtoll (toStringU64 u)).toUInt64 = if 2 ^ 63 ≤ u.toNat then 2 ^ 63 - 1 else u := by
  split_ifs with h
  · rw [toStringU64, strtoll, strtonum_decimal]
    have hmin : min (2 ^ 63 - 1) (u.toNat : Int) = 2 ^ 63 - 1 := by omega
    simp only [Bool.false_eq_true, if_false, hmin]
    decide +kernel
  · rw [toStringU64_of_lt (Nat.lt_of_not_le h), strtoll_toStringS64]
    rfl

theorem bitsOf_addDefault {ty type : FieldType} (hty : IntegerType ty) {v : type.Value}
    {d : UInt64} {s : Bytes} (h : addDefault d type v = some s) :
    bitsOf ty (str2Value s ty) =
      if Clamped ty type (bitsOf type v + d) then 2 ^ 63 - 1 else bitsOf type v + d := by
  cases type with
  | signed =>
    cases h
    rw [if_neg (by rintro ⟨-, hne, -⟩; cases hne)]
    rcases hty with rfl | rfl
    · exact congrArg Int64.toUInt64 (strtoll_toStringS64 _)
    · exact strtoull_toStringS64 _
  | unsigned =>
    cases h
    rcases hty with rfl | rfl
    · exact (strtoll_toStringU64 _).trans (if_congr ⟨fun hle => ⟨rfl, rfl, hle⟩, (·.2.2)⟩ rfl rfl)
    · rw [if_neg (by rintro ⟨hne, -⟩; cases hne)]
      exact strtoull_toStringU64 _
  | string => cases h
  | binary => cases h

theorem bitsOf_addBits {ty : FieldType} (hty : IntegerType ty) (x : ty.Value) (b : UInt64) :
    bitsOf ty (addBits ty x b) = bitsOf ty x + b := by
  rcases hty with rfl | rfl <;> rfl

theorem bitsOf_injective {ty : FieldType} (hty : IntegerType ty) :
    Function.Injective (bitsOf ty) := by
  rcases hty with rfl | rfl
  · intro x y h
    exact congrArg UInt64.toInt64 h
  · exact fun _ _ h => h

/-- A string is stored for a field as the value is. -/
def SameStored (i : t.FieldId) (s : Bytes) (x : (t.type i).Value) : Prop :=
  if i ∈ t.uniqFields then str2Value s (t.type i) = x
  else storeValue (t.field i) s = storeValue (t.field i) ((t.type i).toStr x)

/-- The values that an integer field can tell apart. -/
def modulus (i : t.FieldId) : Nat := 256 ^ (if i ∈ t.uniqFields then 8 else (t.field i).width)

theorem storeValue_iff {f : Field} (hty : IntegerType f.type) (x y : f.type.Value) :
    storeValue f (f.type.toStr x) = storeValue f (f.type.toStr y) ↔
      (bitsOf f.type x).toNat % 256 ^ f.width = (bitsOf f.type y).toNat % 256 ^ f.width := by
  obtain ⟨ty, size⟩ := f
  have hstore : ∀ z : ty.Value, storeValue ⟨ty, size⟩ (ty.toStr z) =
      leBytes (Field.width ⟨ty, size⟩) (bitsOf ty z).toNat := by
    intro z
    rcases hty with h | h
    · obtain rfl : ty = .signed := h
      exact congrArg (fun y : Int64 => leBytes (Field.width ⟨.signed, size⟩) y.toUInt64.toNat)
        (strtoll_toStringS64 z)
    · obtain rfl : ty = .unsigned := h
      exact congrArg (fun y : UInt64 => leBytes (Field.width ⟨.unsigned, size⟩) y.toNat)
        (strtoull_toStringU64 z)
  rw [hstore, hstore]
  constructor
  · exact leBytes_inj_mod
  · intro h
    rw [← leBytes_mod, h, leBytes_mod]

theorem sameStored_iff {i : t.FieldId} (hty : IntegerType (t.type i)) (s : Bytes)
    (x : (t.type i).Value) : SameStored i s x ↔
      (bitsOf (t.type i) (str2Value s (t.type i))).toNat % modulus i =
        (bitsOf (t.type i) x).toNat % modulus i := by
  rw [SameStored, modulus]
  split_ifs with hi
  · rw [toNat_mod_256_pow_8, toNat_mod_256_pow_8, UInt64.toNat_inj, (bitsOf_injective hty).eq_iff]
  · rw [storeValue_str2Value]
    exact storeValue_iff hty _ _

/-- The default at the position of an addition does for the default of the field: as far as the
field tells them apart, or else the clamped sum does. -/
def AddAgrees (word : Bytes → UInt64) (p i : t.FieldId) (type : FieldType) (value : type.Value) :
    Prop :=
  let defValue := wordOf word (t.type p) (t.defaultRow p)
  let own := bitsOf (t.type i) (t.defaultRow i)
  if Clamped (t.type i) type (bitsOf type value + defValue) then
    (2 ^ 63 - 1) % modulus i = (bitsOf type value + own).toNat % modulus i
  else defValue.toNat % modulus i = own.toNat % modulus i

theorem modulus_cases (i : t.FieldId) : modulus i = 2 ^ 64 ∨ modulus i = 2 ^ 32 := by
  rw [modulus]
  split_ifs with h
  · exact .inl rfl
  · rcases (t.field i).width_cases with ⟨-, hw⟩ | ⟨-, hw⟩
    · exact .inl (by rw [hw]; rfl)
    · exact .inr (by rw [hw]; rfl)

theorem add_mod_iff {i : t.FieldId} (a b c : UInt64) :
    (a + b).toNat % modulus i = (a + c).toNat % modulus i ↔
      b.toNat % modulus i = c.toNat % modulus i := by
  rw [UInt64.toNat_add, UInt64.toNat_add]
  have hb := b.toNat_lt
  have hc := c.toNat_lt
  rcases modulus_cases i with h | h <;> rw [h] <;> omega

theorem sameStored_add {word : Bytes → UInt64} {p i : t.FieldId} {type : FieldType}
    {value : type.Value} (hty : IntegerType (t.type i)) {s : Bytes}
    (hs : addDefault (wordOf word (t.type p) (t.defaultRow p)) type value = some s) :
    SameStored i s (addBits (t.type i) (t.defaultRow i) (bitsOf type value)) ↔
      AddAgrees word p i type value := by
  rw [sameStored_iff hty, bitsOf_addDefault hty hs, bitsOf_addBits hty, AddAgrees]
  split_ifs with hclamped
  · have hmax : UInt64.toNat (2 ^ 63 - 1) = 2 ^ 63 - 1 := by decide +kernel
    rw [hmax, UInt64.add_comm]
  · rw [UInt64.add_comm (bitsOf (t.type i) (t.defaultRow i)), add_mod_iff]

/-! ## The loop -/

/-- `Set`, or an integer addition. -/
def SetOrAdd : (i : t.FieldId) × Operation t i → Prop
  | ⟨_, .set _⟩ => True
  | ⟨i, .add type _⟩ => IntegerType (t.type i) ∧ IntegerType type
  | ⟨_, .unsupported⟩ => False

/-- The assignment of the operation at the position `idx`. -/
def assignment (word : Bytes → UInt64) (idx : Nat) :
    (i : t.FieldId) × Operation t i → Option (Assignment t)
  | ⟨i, .set value⟩ => some ⟨i, (t.type i).toStr value, value⟩
  | ⟨i, .add type value⟩ =>
    if h : idx < t.numFields + 1 then
      (addDefault (wordOf word (t.type ⟨idx, h⟩) (t.defaultRow ⟨idx, h⟩)) type value).map fun s =>
        ⟨i, s, addBits (t.type i) (t.defaultRow i) (bitsOf type value)⟩
    else none
  | ⟨_, .unsupported⟩ => none

def assignments (word : Bytes → UInt64) : Nat → UpdateInfo t → Option (List (Assignment t))
  | _, [] => some []
  | idx, op :: ops => do return (← assignment word idx op) :: (← assignments word (idx + 1) ops)

/-- Every addition that is the last operation on its field has a column at its position whose
default does for the default of the field. -/
def AddsAgree (word : Bytes → UInt64) : Nat → UpdateInfo t → Prop
  | _, [] => True
  | idx, ⟨i, .add type value⟩ :: ops =>
    (∃ h : idx < t.numFields + 1,
      i ∉ ops.map Sigma.fst → AddAgrees word ⟨idx, h⟩ i type value) ∧ AddsAgree word (idx + 1) ops
  | idx, ⟨_, .set _⟩ :: ops | idx, ⟨_, .unsupported⟩ :: ops => AddsAgree word (idx + 1) ops

section Loop

variable {word : Bytes → UInt64} {ops : UpdateInfo t} {idx : Nat} {as : List (Assignment t)}

theorem isSome_addDefault {type : FieldType} (h : IntegerType type) (d : UInt64)
    (value : type.Value) : ∃ s, addDefault d type value = some s := by
  rcases h with rfl | rfl <;> exact ⟨_, rfl⟩

theorem replaceLoop_cons {op : (i : t.FieldId) × Operation t i} (hop : SetOrAdd op)
    (strs : t.FieldId → Bytes) : replaceLoop word idx (op :: ops) strs =
      (assignment word idx op).bind fun a =>
        replaceLoop word (idx + 1) ops (update strs a.1 a.2.1) := by
  obtain ⟨i, op⟩ := op
  cases op with
  | set value => rfl
  | add type value =>
    rw [replaceLoop, assignment]
    split_ifs with h
    · obtain ⟨s, hs⟩ := isSome_addDefault hop.2
        (wordOf word (t.type ⟨idx, h⟩) (t.defaultRow ⟨idx, h⟩)) value
      have hs' : addDefault (wordOf word (t.type ⟨idx, h⟩) (t.column ⟨idx, h⟩).defaultValue) type
          value = some s := hs
      rw [hs, hs']
      rfl
    · rfl
  | unsupported => exact hop.elim

theorem replaceLoop_eq (hops : ∀ op ∈ ops, SetOrAdd op) (strs : t.FieldId → Bytes) :
    replaceLoop word idx ops strs =
      (assignments word idx ops).map fun as => .ok (assignStrs strs as) := by
  induction ops generalizing idx strs with
  | nil => rfl
  | cons op ops ih =>
    obtain ⟨hop, hrest⟩ := forall_mem_cons.mp hops
    rw [replaceLoop_cons hop, assignments]
    cases assignment word idx op with
    | none => rfl
    | some a =>
      simp only [Option.bind_eq_bind, Option.bind_some, ih hrest]
      cases assignments word (idx + 1) ops <;> rfl

/-- What the assignment of an operation does, and that it is exact for a String. -/
theorem assignment_spec {op : (i : t.FieldId) × Operation t i} {a : Assignment t}
    (h : assignment word idx op = some a) :
    a.1 = op.1 ∧ (∀ row, completeField row op = row.set a.1 a.2.2) ∧
      (SetOrAdd op → ¬ IntegerType (t.type a.1) → a.2.1 = (t.type a.1).toStr a.2.2) := by
  obtain ⟨i, op⟩ := op
  cases op with
  | set value =>
    cases h
    exact ⟨rfl, fun _ => rfl, fun _ _ => rfl⟩
  | add type value =>
    rw [assignment] at h
    split_ifs at h
    obtain ⟨s, -, rfl⟩ := Option.map_eq_some_iff.mp h
    exact ⟨rfl, fun _ => rfl, fun hop hty => absurd hop.1 hty⟩
  | unsupported => cases h

theorem assignments_cons {op : (i : t.FieldId) × Operation t i} :
    assignments word idx (op :: ops) = some as ↔ ∃ a as', assignment word idx op = some a ∧
      assignments word (idx + 1) ops = some as' ∧ as = a :: as' := by
  rw [assignments]
  cases assignment word idx op <;> cases assignments word (idx + 1) ops <;>
    simp [Option.bind_eq_bind, eq_comm]

theorem fields_assignments (h : assignments word idx ops = some as) :
    as.map Sigma.fst = ops.map Sigma.fst := by
  induction ops generalizing idx as with
  | nil =>
    cases h
    rfl
  | cons op ops ih =>
    obtain ⟨a, as', ha, has', rfl⟩ := assignments_cons.mp h
    rw [map_cons, map_cons, ih has', (assignment_spec ha).1]

theorem foldl_completeField (h : assignments word idx ops = some as) (row : Row t) :
    ops.foldl completeField row = assignRow row as := by
  induction ops generalizing idx as row with
  | nil =>
    cases h
    rfl
  | cons op ops ih =>
    obtain ⟨a, as', ha, has', rfl⟩ := assignments_cons.mp h
    rw [List.foldl_cons, (assignment_spec ha).2.1]
    exact ih has' _

theorem exact_assignments (hops : ∀ op ∈ ops, SetOrAdd op)
    (h : assignments word idx ops = some as) :
    ∀ a ∈ as, ¬ IntegerType (t.type a.1) → a.2.1 = (t.type a.1).toStr a.2.2 := by
  induction ops generalizing idx as with
  | nil =>
    cases h
    exact nofun
  | cons op ops ih =>
    obtain ⟨hop, hrest⟩ := forall_mem_cons.mp hops
    obtain ⟨a, as', ha, has', rfl⟩ := assignments_cons.mp h
    exact forall_mem_cons.mpr ⟨(assignment_spec ha).2.2 hop, ih hrest has'⟩

theorem sameStored_toStr (i : t.FieldId) (x : (t.type i).Value) :
    SameStored i ((t.type i).toStr x) x := by
  rw [SameStored, str2Value_toStr]
  split <;> rfl

theorem addsAgree_iff (hops : ∀ op ∈ ops, SetOrAdd op) : AddsAgree word idx ops ↔
    ∃ as, assignments word idx ops = some as ∧ LastAll SameStored as := by
  induction ops generalizing idx with
  | nil => simp [AddsAgree, assignments, LastAll]
  | cons op ops ih =>
    obtain ⟨hop, hrest⟩ := forall_mem_cons.mp hops
    simp only [assignments_cons]
    obtain ⟨i, op⟩ := op
    cases op with
    | set value =>
      rw [AddsAgree, ih hrest]
      constructor
      · rintro ⟨as, has, hlast⟩
        exact ⟨_, ⟨_, as, rfl, has, rfl⟩, fun _ => sameStored_toStr i value, hlast⟩
      · rintro ⟨_, ⟨_, as, ha, has, rfl⟩, hlast⟩
        exact ⟨as, has, hlast.2⟩
    | add type value =>
      rw [AddsAgree, ih hrest, assignment]
      by_cases h : idx < t.numFields + 1
      · obtain ⟨s, hs⟩ := isSome_addDefault hop.2
          (wordOf word (t.type ⟨idx, h⟩) (t.defaultRow ⟨idx, h⟩)) value
        rw [dif_pos h, hs]
        constructor
        · rintro ⟨⟨_, hagrees⟩, as, has, hlast⟩
          refine ⟨_, ⟨_, as, rfl, has, rfl⟩, fun hlater => ?_, hlast⟩
          rw [fields_assignments has] at hlater
          exact (sameStored_add hop.1 hs).mpr (hagrees hlater)
        · rintro ⟨_, ⟨_, as, ha, has, rfl⟩, hlast⟩
          cases ha
          refine ⟨⟨h, fun hlater => (sameStored_add hop.1 hs).mp (hlast.1 ?_)⟩, as, has, hlast.2⟩
          rwa [fields_assignments has]
      · rw [dif_neg h]
        exact iff_of_false (fun hagree => h hagree.1.1)
          (by rintro ⟨_, ⟨_, _, ha, -, -⟩, -⟩; cases ha)
    | unsupported => exact hop.elim

end Loop

/-- The row that is read from strings. -/
def rowOf (strs : t.FieldId → Bytes) : Row t := fun i => str2Value (strs i) (t.type i)

theorem rocksEntry_strs (strs : t.FieldId → Bytes) :
    t.rocksEntry (t.uniqFields.map strs) (t.valueFields.map strs) = some (rowOf strs).entry := by
  obtain ⟨hkey, hbitmap⟩ := encode_strs (rowOf strs) strs fun i _ => rfl
  have hshrunk : shrinkValue (t.valueFields.map t.field) (t.valueFields.map strs) =
      (rowOf strs).shrunk := shrinkValue_strs fun i _ => rfl
  simp only [Table.rocksEntry, hkey, hbitmap, hshrunk]
  rfl

theorem shrinkValue_inj {ids : List t.FieldId} {strs strs' : t.FieldId → Bytes}
    (hlen : ∀ i ∈ ids, (storeValue (t.field i) (strs i)).length =
      (storeValue (t.field i) (strs' i)).length) :
    shrinkValue (ids.map t.field) (ids.map strs) = shrinkValue (ids.map t.field) (ids.map strs') ↔
      ∀ i ∈ ids, storeValue (t.field i) (strs i) = storeValue (t.field i) (strs' i) := by
  induction ids with
  | nil => simp
  | cons i ids ih =>
    obtain ⟨hfirst, hrest⟩ := forall_mem_cons.mp hlen
    simp only [map_cons, shrinkValue, forall_mem_cons, ← ih hrest]
    exact ⟨fun h => List.append_inj h hfirst, fun h => by rw [h.1, h.2]⟩

theorem entry_eq_iff (row row' : Row t) :
    row.entry = row'.entry ↔ (∀ i ∈ t.uniqFields, row i = row' i) ∧ row.shrunk = row'.shrunk := by
  constructor
  · intro h
    obtain ⟨hkey, hvalue⟩ := Prod.mk.inj h
    have hlower : row.lower.keys = row'.lower.keys := by
      have := row.decode_rocksKey
      rw [hkey, row'.decode_rocksKey] at this
      exact (Option.some.inj this).symm
    have hdecode := row.decodeBitmapKeys_rocksValue
    rw [hvalue, hlower, row'.decodeBitmapKeys_rocksValue] at hdecode
    obtain ⟨hkeys, hshrunk⟩ := Prod.mk.inj (Option.some.inj hdecode)
    refine ⟨fun i hi => toStr_injective _ ?_, hshrunk.symm⟩
    exact (List.map_inj_left.mp hkeys.symm) i hi
  · rintro ⟨hkeys, hshrunk⟩
    have hstrs : row.keys = row'.keys := by
      apply List.map_congr_left
      intro i hi
      rw [Row.str, Row.str, hkeys i hi]
    rw [Row.entry, Row.entry, rocksKey_congr hkeys, Row.rocksValue, Row.rocksValue, hstrs, hshrunk]

theorem length_storeValue {f : Field} (hty : IntegerType f.type) (s : Bytes) :
    (storeValue f s).length = f.width := by
  obtain ⟨ty, size⟩ := f
  rcases hty with h | h
  · obtain rfl : ty = .signed := h
    exact length_leBytes ..
  · obtain rfl : ty = .unsigned := h
    exact length_leBytes ..

/-- The entry is the one of a row if it holds every field as the row does. -/
theorem entry_rowOf_iff {strs : t.FieldId → Bytes} {row : Row t}
    (hstr : ∀ i, ¬ IntegerType (t.type i) → strs i = row.str i) :
    (rowOf strs).entry = row.entry ↔ ∀ i, SameStored i (strs i) (row i) := by
  have hstored : ∀ i, storeValue (t.field i) ((rowOf strs).str i) =
    storeValue (t.field i) (strs i) :=
    fun i => (storeValue_str2Value _ _).symm
  have hlen : ∀ i, (storeValue (t.field i) ((rowOf strs).str i)).length =
      (storeValue (t.field i) (row.str i)).length := by
    intro i
    by_cases hty : IntegerType (t.type i)
    · rw [length_storeValue hty, length_storeValue hty]
    · rw [hstored, hstr i hty]
  rw [entry_eq_iff, Row.shrunk, Row.shrunk, Row.values, Row.values,
    shrinkValue_inj fun i _ => hlen i]
  constructor
  · rintro ⟨hkeys, hvalues⟩ i
    rw [SameStored]
    split_ifs with hi
    · exact hkeys i hi
    · rw [← hstored]
      exact hvalues i (by simpa [Table.valueFields] using hi)
  · intro h
    refine ⟨fun i hi => ?_, fun i hi => ?_⟩
    · have := h i
      rwa [SameStored, if_pos hi] at this
    · have hnot : i ∉ t.uniqFields := by simpa [Table.valueFields] using hi
      have := h i
      rw [SameStored, if_neg hnot] at this
      rw [hstored, this]
      rfl

/-! ## Replace -/

section Replace

variable {word : Bytes → UInt64} {req : ReplaceRequest t} {as : List (Assignment t)}

/-- The string of the primary key, before the operations. -/
def ReplaceRequest.start (req : ReplaceRequest t) : t.FieldId → Bytes :=
  update (fun _ => []) 0 ((t.type 0).toStr req.key)

theorem withDefaults_eq (has : assignments word 0 req.operation = some as) (i : t.FieldId) :
    withDefaults req.operation (assignStrs req.start as) i =
      if i ∈ as.map Sigma.fst then assignStrs req.start as i
        else (t.defaultRow.set 0 req.key).str i := by
  have hany : (req.operation.any fun op => op.1 = i) = true ↔ i ∈ as.map Sigma.fst := by
    rw [fields_assignments has]
    simp
  rw [withDefaults]
  by_cases hi : i ∈ as.map Sigma.fst
  · rw [if_pos hi, if_pos (.inr (hany.mpr hi))]
  · rw [if_neg hi]
    by_cases h0 : i = 0
    · subst h0
      rw [if_pos (.inl rfl), assignStrs_of_notMem hi, ReplaceRequest.start, update_self,
        Row.str, Row.set_self]
    · rw [if_neg (not_or.mpr ⟨h0, mt hany.mp hi⟩), Row.str, Row.set_of_ne _ h0]
      rfl

theorem processReplace_eq (hops : ∀ op ∈ req.operation, SetOrAdd op) (db : Db) :
    processReplace word db req = (assignments word 0 req.operation).map fun as =>
      .ok (db.put (rowOf (withDefaults req.operation (assignStrs req.start as))).rocksKey
        (rowOf (withDefaults req.operation (assignStrs req.start as))).rocksValue) := by
  rw [processReplace, replaceLoop_eq hops]
  cases assignments word 0 req.operation with
  | none => rfl
  | some as =>
    simp only [Option.map_some, Option.bind_eq_bind, Option.bind_some]
    have hentry := rocksEntry_strs (withDefaults req.operation (assignStrs req.start as))
    rw [ReplaceRequest.start] at hentry
    rw [hentry]
    rfl

/-- Every field is stored as it is meant if those are that an operation names last. -/
theorem sameStored_completed (has : assignments word 0 req.operation = some as) :
    (∀ i, SameStored i (withDefaults req.operation (assignStrs req.start as) i)
      (req.completed i)) ↔ LastAll SameStored as := by
  have hcompleted : req.completed = assignRow (t.defaultRow.set 0 req.key) as :=
    foldl_completeField has _
  rw [lastAll_iff req.start (t.defaultRow.set 0 req.key), hcompleted]
  constructor
  · intro h i hi
    have := h i
    rwa [withDefaults_eq has, if_pos hi] at this
  · intro h i
    rw [withDefaults_eq has]
    split_ifs with hi
    · exact h i hi
    · rw [assignRow_of_notMem hi]
      exact sameStored_toStr i _

/-- A String has the string that is meant. -/
theorem str_completed (hops : ∀ op ∈ req.operation, SetOrAdd op)
    (has : assignments word 0 req.operation = some as) {i : t.FieldId}
    (hty : ¬ IntegerType (t.type i)) :
    withDefaults req.operation (assignStrs req.start as) i = req.completed.str i := by
  have hcompleted : req.completed = assignRow (t.defaultRow.set 0 req.key) as :=
    foldl_completeField has _
  rw [withDefaults_eq has, hcompleted]
  split_ifs with hi
  · exact (lastAll_iff _ _).mp (lastAll_of_forall
      (P := fun i s x => ¬ IntegerType (t.type i) → s = (t.type i).toStr x)
      (exact_assignments hops has)) i hi hty
  · rw [Row.str, Row.str, assignRow_of_notMem hi]

/-- On an empty database every slip shows. -/
theorem addsAgree_of_replaceOk (hops : ∀ op ∈ req.operation, SetOrAdd op)
    (h : ReplaceOk word SortedMap.empty req) :
    req.completed.str 0 ≠ [] ∧ AddsAgree word 0 req.operation := by
  obtain ⟨hreplace, hsame⟩ := h
  have hkey : req.completed.str 0 ≠ [] := by
    intro hnil
    have hinsert := processInsert_eq SortedMap.empty (insertRequest req.completed)
    rw [row_insertRequest, if_pos hnil, hsame rfl] at hinsert
    cases hinsert
  rw [processReplace_eq hops] at hreplace
  obtain ⟨as, has, hput⟩ := Option.map_eq_some_iff.mp hreplace
  refine ⟨hkey, (addsAgree_iff hops).mpr ⟨as, has, (sameStored_completed has).mp ?_⟩⟩
  rw [← entry_rowOf_iff fun i hty => str_completed hops has hty]
  have hentries := congrArg SortedMap.entries (Except.ok.inj hput)
  exact (List.cons.inj hentries).1

end Replace

attribute [local instance (2000)] Table.neZero_three in
/-- A String primary key and two numbers, with the defaults 5 and 7. -/
def defaultsTable : Table where
  numFields := 2
  column i := if i = 0 then ⟨⟨.string, 32⟩, ([] : Bytes)⟩
    else if i = 1 then ⟨⟨.signed, 8⟩, (5 : Int64)⟩ else ⟨⟨.signed, 8⟩, (7 : Int64)⟩
  uniqFields := [0]
  head_uniqFields := Table.head?_first_three
  nodup_uniqFields := Table.nodup_first_three

/-- The addition is second, and to the second column. -/
def placedRequest : ReplaceRequest defaultsTable where
  key := ([97] : Bytes)
  operation := [⟨2, .set (3 : Int64)⟩, ⟨1, .add .signed (1 : Int64)⟩]

/-- The addition is second, but to the third column. -/
def misplacedRequest : ReplaceRequest defaultsTable where
  key := ([97] : Bytes)
  operation := [⟨1, .set (3 : Int64)⟩, ⟨2, .add .signed (1 : Int64)⟩]

def emptyKeyRequest : ReplaceRequest defaultsTable where
  key := ([] : Bytes)
  operation := []

theorem setOrAdd_misplacedRequest : ∀ op ∈ misplacedRequest.operation, SetOrAdd op :=
  forall_mem_cons.mpr ⟨trivial, List.forall_mem_singleton.mpr ⟨.inl rfl, .inl rfl⟩⟩

end ISearch.RocksProcess

import ISearch.DirectQuery.Response

/-!
# Reading the replies to range queries (`uds_client.cc`)

A reply is a header and the rows it counts, or an error code in the place of the count. The client
makes room for as many rows as the count says and reads them without looking at the end.
-/

namespace ISearch.DirectQuery

open KeyFormat RocksProcess Option

/-- `parseResponse`; `none` stands for a read past the end, for a string or a vector of negative
size and for the failing assertion at the end. -/
def parseResponse (data : Bytes) (field_num : Nat) : Option (List DirectRow) := do
  let (_, data) ← readLe 2 data
  let (_, data) ← readLe 8 data
  let (rowNums, data) ← readLe 2 data
  let sRowNums := (UInt16.ofNat rowNums).toInt16.toInt
  if sRowNums < 0 then none
  else
    let (row_fields, data) ← readList (readList getString field_num) sRowNums.toNat data
    if data = [] then some row_fields else none

inductive Received where
  | rows (row_fields : List DirectRow)
  | error
  deriving DecidableEq

/-- The receiving part of `sendAndRecv`. The length of the reply comes as an `int`; for one that is
not positive nothing can be received. -/
def sendAndRecv (rowValue : Bytes) (field_num : Nat) : Option Received :=
  let data_len := (Int32.ofNat rowValue.length).toInt
  if data_len ≤ 0 then some .error
  else (parseResponse (rowValue.take data_len.toNat) field_num).map .rows

/-- A reply to a range query on a table. -/
structure Reply (t : Table) where
  magicNum : UInt16
  sequenceId : UInt64
  rowNums : Int16
  rows : List DirectRow
  /-- An error code is negative and stands before no rows. -/
  count : rows.length = rowNums.toInt.toNat
  fields : ∀ row ∈ rows, row.length = t.numFields + 1

variable {t : Table}

def Reply.bytes (r : Reply t) : Bytes :=
  DirectResponseContext.header ⟨r.magicNum, r.sequenceId, r.rowNums, r.rows⟩ ++
    r.rows.flatMap DirectRow.bytes

/-- The client gets the rows of the reply or reports an error. -/
def Reply.Handled (r : Reply t) : Prop :=
  sendAndRecv r.bytes (t.numFields + 1) = some .error ∨
    sendAndRecv r.bytes (t.numFields + 1) = some (.rows r.rows)

/-! ## What the helper keeps -/

/-- The rows have all fields of the table. -/
def Wide (t : Table) (rows : List DirectRow) : Prop := ∀ row ∈ rows, row.length = t.numFields + 1

theorem length_buildDirectRow (e : OrderByUnitElement) :
    (buildDirectRow t e).length = t.numFields + 1 := by
  rw [buildDirectRow, List.length_map, List.length_finRange]

variable {q : Query t} {noReturn : Bool} {s s' : QueryState t}

theorem wide_keepRow (e : OrderByUnitElement) (h : Wide t s.rowValues) :
    Wide t (keepRow noReturn q e s).1.rowValues := by
  rw [keepRow]
  split_ifs
  · exact h
  · exact h
  · exact List.forall_mem_cons.mpr ⟨length_buildDirectRow e, h⟩

theorem wide_scanLoop {conds : List (Cond t)} {verdict : Bytes → Option Verdict} {fails : Bool}
    {fullKey : Bytes} {entries : List (Bytes × Bytes)} {scanned : Scanned t}
    (h : Wide t s.rowValues)
    (hscan : scanLoop noReturn q conds verdict fails fullKey s entries = some scanned) :
    Wide t scanned.state.rowValues := by
  induction entries generalizing fullKey s with
  | nil =>
    cases hscan
    exact h
  | cons entry entries ih =>
    obtain ⟨key, value⟩ := entry
    rw [scanLoop] at hscan
    obtain ⟨v, -, hscan⟩ := bind_eq_some_iff.mp hscan
    cases v with
    | stop =>
      cases hscan
      exact h
    | skip => exact ih h hscan
    | accept =>
      obtain ⟨⟨s₁, full⟩, hsave, hscan⟩ := bind_eq_some_iff.mp hscan
      rw [saveDirectRow] at hsave
      obtain ⟨e, -, hsave⟩ := bind_eq_some_iff.mp hsave
      have hs₁ : Wide t s₁.rowValues := by
        simp only [pure_def, some_inj] at hsave
        split_ifs at hsave
        · obtain rfl : (keepRow noReturn q e s).1 = s₁ := congrArg Prod.fst hsave
          exact wide_keepRow e h
        · obtain rfl : s = s₁ := congrArg Prod.fst hsave
          exact h
      dsimp only at hscan
      split_ifs at hscan
      · cases hscan
        exact hs₁
      · exact ih hs₁ hscan

theorem wide_drainOrderBy (h : Wide t s.rowValues) : Wide t (drainOrderBy q s).rowValues := by
  rw [drainOrderBy]
  split
  · exact h
  · refine fun row hrow => ?_
    obtain hrow | hrow := List.mem_append.mp hrow
    · obtain ⟨e, -, rfl⟩ := List.mem_map.mp (List.mem_reverse.mp hrow)
      exact length_buildDirectRow e
    · exact h row hrow

theorem wide_rangeSection {db : Db} {primaryKeyConds conds : List (Cond t)} {forward : Bool}
    {faults : Faults} {fullKey : Bytes} {outcome : Outcome} {w' : Worker t}
    (h : Wide t s.rowValues) (hsection : rangeSection db noReturn q primaryKeyConds conds forward
      faults fullKey s = some (outcome, w')) : Wide t w'.rowValues := by
  rw [rangeSection] at hsection
  split_ifs at hsection
  · cases hsection
    exact h
  · cases hsection
    exact h
  · obtain ⟨scanned, hscan, hsection⟩ := bind_eq_some_iff.mp hsection
    have hscanned := wide_scanLoop h hscan
    split_ifs at hsection
    · cases hsection
      exact hscanned
    · cases hsection
      exact wide_drainOrderBy hscanned

/-- The rows that wait for a reply have all fields of the table, whatever the queries were. -/
theorem wide_processDirectQuery {db : Db} {faults : Faults} {w w' : Worker t} {outcome : Outcome}
    (h : Wide t w.rowValues)
    (hprocess : processDirectQuery db noReturn faults q w = some (outcome, w')) :
    Wide t w'.rowValues := by
  rw [processDirectQuery] at hprocess
  split at hprocess
  · cases hprocess
    exact h
  · cases hprocess
  · split_ifs at hprocess
    · cases hprocess
      exact h
    · obtain ⟨scanned, hscan, hprocess⟩ := bind_eq_some_iff.mp hprocess
      have hscanned := wide_scanLoop h hscan
      split_ifs at hprocess
      · cases hprocess
        exact hscanned
      · exact wide_rangeSection hscanned hprocess
    · exact wide_rangeSection h hprocess

/-- What the helper sends is a reply. -/
theorem exists_reply {magicNum : UInt16} {sequenceId : UInt64} {outcome : Outcome} {w : Worker t}
    (hwide : Wide t w.rowValues) (hsize : w.rowValues.length < 2 ^ 63) {data : Bytes}
    {rest : List DirectRow}
    (h : (directResponse magicNum sequenceId outcome w).serializeTo = some (data, rest)) :
    ∃ r : Reply t, r.bytes = data ∧ r.rowNums = outcome.rowNums w.rowValues ∧
      w.rowValues = r.rows ++ rest := by
  obtain ⟨⟨rows, rest'⟩, hpop, h⟩ := bind_eq_some_iff.mp h
  cases h
  obtain ⟨happ, hcount⟩ := popRows_eq_some_iff.mp hpop
  have happ : w.rowValues = rows ++ rest := happ
  have hlength := congrArg List.length happ
  rw [List.length_append] at hlength
  -- a negative number of rows would take more rows than a deque holds
  have hcount : rows.length = (outcome.rowNums w.rowValues).toInt.toNat := by
    have hlower := Int16.le_toInt (outcome.rowNums w.rowValues)
    have hupper := Int16.toInt_lt (outcome.rowNums w.rowValues)
    have hcount : rows.length = ((outcome.rowNums w.rowValues).toInt % 2 ^ 64).toNat := hcount
    omega
  exact ⟨⟨magicNum, sequenceId, outcome.rowNums w.rowValues, rows, hcount, fun row hrow =>
    hwide row (happ ▸ List.mem_append_left _ hrow)⟩, rfl, rfl, happ⟩

theorem length_readBytes {n : Nat} {data s rest : Bytes} (h : readBytes n data = some (s, rest)) :
    data.length = n + rest.length ∧ s.length = n := by
  rw [readBytes] at h
  split_ifs at h with hle
  cases h
  rw [List.length_take_of_le hle, List.length_drop]
  omega

theorem length_readLe {n x : Nat} {data rest : Bytes} (h : readLe n data = some (x, rest)) :
    data.length = n + rest.length := by
  obtain ⟨⟨s, rest'⟩, hread, heq⟩ := map_eq_some_iff.mp h
  cases heq
  exact (length_readBytes hread).1

theorem length_getString {data s rest : Bytes} (h : getString data = some (s, rest)) :
    data.length = 4 + s.length + rest.length := by
  obtain ⟨⟨len, data₁⟩, hlen, h⟩ := bind_eq_some_iff.mp h
  obtain ⟨⟨x, data₂⟩, hread, hlen⟩ := bind_eq_some_iff.mp hlen
  cases hlen
  dsimp only at h
  split_ifs at h
  have hread := length_readLe hread
  obtain ⟨hbytes, hs⟩ := length_readBytes h
  omega

/-- What a list of readings consumes, if each consumes what it is written with. -/
theorem length_readList {α : Type} {read : Reader α} {enc : α → Bytes}
    (hread : ∀ data x rest, read data = some (x, rest) →
      data.length = (enc x).length + rest.length) {n : Nat} {data rest : Bytes} {xs : List α}
    (h : readList read n data = some (xs, rest)) :
    data.length = (xs.flatMap enc).length + rest.length := by
  induction n generalizing data xs with
  | zero =>
    cases h
    exact (Nat.zero_add _).symm
  | succ n ih =>
    obtain ⟨⟨x, data₁⟩, hx, h⟩ := bind_eq_some_iff.mp h
    obtain ⟨⟨xs', data₂⟩, hxs, h⟩ := bind_eq_some_iff.mp h
    cases h
    rw [hread _ _ _ hx, ih hxs, List.flatMap_cons, List.length_append, Nat.add_assoc]

/-- A parsed reply is as long as its rows say. -/
theorem length_of_parseResponse {data : Bytes} {field_num : Nat} {rows : List DirectRow}
    (h : parseResponse data field_num = some rows) :
    data.length = 12 + (rows.flatMap DirectRow.bytes).length := by
  obtain ⟨⟨magicNum, data₁⟩, h₁, h⟩ := bind_eq_some_iff.mp h
  obtain ⟨⟨sequenceId, data₂⟩, h₂, h⟩ := bind_eq_some_iff.mp h
  obtain ⟨⟨rowNums, data₃⟩, h₃, h⟩ := bind_eq_some_iff.mp h
  dsimp only at h
  split_ifs at h
  obtain ⟨⟨row_fields, data₄⟩, h₄, h⟩ := bind_eq_some_iff.mp h
  dsimp only at h
  split_ifs at h with hend
  cases h
  have hfield (data : Bytes) (s : Bytes) (rest : Bytes) (h : getString data = some (s, rest)) :
      data.length = (leBytes 4 s.length ++ s).length + rest.length := by
    rw [length_getString h, List.length_append, length_leBytes]
  have hrows := length_readList (fun _ _ _ h => length_readList hfield h) h₄
  have hlength₁ := length_readLe h₁
  have hlength₂ := length_readLe h₂
  have hlength₃ := length_readLe h₃
  rw [hend, List.length_nil] at hrows
  change data₃.length = (rows.flatMap DirectRow.bytes).length + 0 at hrows
  omega

theorem length_header (cxt : DirectResponseContext) : cxt.header.length = 12 := by
  simp [DirectResponseContext.header, length_leBytes]

theorem Reply.length_bytes (r : Reply t) :
    r.bytes.length = 12 + (r.rows.flatMap DirectRow.bytes).length := by
  rw [bytes, List.length_append, length_header]

/-! ## Replies that are read back -/

theorem inverts_row {row : DirectRow} (hrow : ∀ field ∈ row, field.length < 2 ^ 31) :
    Inverts (readList getString row.length) DirectRow.bytes row := fun rest =>
  readList_flatMap (fun field hfield rest => by
    rw [List.append_assoc]
    exact getString_append (hrow field hfield) rest) rest

theorem length_le_flatMap {α : Type} {f : α → Bytes} {xs : List α} {x : α} (hx : x ∈ xs) :
    (f x).length ≤ (xs.flatMap f).length := by
  obtain ⟨l, r, rfl⟩ := List.append_of_mem hx
  simp only [List.flatMap_append, List.flatMap_cons, List.length_append]
  omega

/-- The header of a reply, read by the client. -/
theorem parseResponse_bytes (r : Reply t) (field_num : Nat) : parseResponse r.bytes field_num =
    if r.rowNums.toInt < 0 then none
    else
      (readList (readList getString field_num) r.rowNums.toInt.toNat
        (r.rows.flatMap DirectRow.bytes)).bind fun x => if x.2 = [] then some x.1 else none := by
  have hmagic : r.magicNum.toNat < 256 ^ 2 := r.magicNum.toNat_lt
  have hsequence : r.sequenceId.toNat < 256 ^ 8 := r.sequenceId.toNat_lt
  have hrowNums : r.rowNums.toUInt16.toNat < 256 ^ 2 := r.rowNums.toUInt16.toNat_lt
  rw [parseResponse, Reply.bytes, DirectResponseContext.header]
  simp only [List.append_assoc, readLe_leBytes_of_lt hmagic, readLe_leBytes_of_lt hsequence,
    readLe_leBytes_of_lt hrowNums, bind_eq_bind, bind_some, UInt16.ofNat_toNat,
    Int16.toInt16_toUInt16]

theorem parseResponse_rows (r : Reply t) (hrow : 0 ≤ r.rowNums.toInt)
    (hlength : r.bytes.length < 2 ^ 31) :
    parseResponse r.bytes (t.numFields + 1) = some r.rows := by
  have hread : readList (readList getString (t.numFields + 1)) r.rows.length
      (r.rows.flatMap DirectRow.bytes ++ []) = some (r.rows, []) := by
    refine readList_flatMap (fun row hmem => ?_) []
    rw [← r.fields row hmem]
    refine inverts_row fun field hfield => ?_
    have hrowLe := length_le_flatMap (f := DirectRow.bytes) hmem
    have hfieldLe := length_le_flatMap (f := fun field : Bytes => leBytes 4 field.length ++ field)
      hfield
    rw [List.length_append] at hfieldLe
    rw [r.length_bytes] at hlength
    change _ ≤ (DirectRow.bytes row).length at hfieldLe
    omega
  rw [List.append_nil, r.count] at hread
  rw [parseResponse_bytes, if_neg (not_lt.mpr hrow), hread]
  rfl

/-- The answer to a query that has no condition on the primary key. -/
def refusedReply : Reply twoKeyTable where
  magicNum := 12345
  sequenceId := 1
  rowNums := Outcome.rowNums [] .refused
  rows := []
  count := rfl
  fields := nofun

end ISearch.DirectQuery

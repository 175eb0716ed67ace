import ISearch.RawData.Encode

/-!
# Column expansion (`raw_data_process.cc`)

`expand_node` reads the rows of a node under the old table definition and inserts them, with the
defaults of the new columns, into a temporary node under the new one, which then takes the place of
the old node. Each row is inserted as a client's row would be: as a clean row, and in front of the
others if the insert order says so.

The header of a node stands for its length only. What the allocators and the purge do is an `Env`.
-/

namespace ISearch.RawData

open Function List

/-- `OPER_DIRTY` and `OPER_SELECT`. -/
def operDirty : UInt8 := 0x02
def operSelect : UInt8 := 0x30

def isDirty (flag : UInt8) : Bool := flag &&& operDirty ≠ 0

/-- A chunk with a raw node: header and key, the rows, and what is left of the chunk. -/
structure RawNode where
  head : Bytes
  data : Bytes
  slack : Bytes
  rowCnt : Nat
  deriving DecidableEq

namespace RawNode

def content (node : RawNode) : Bytes := node.head ++ (node.data ++ node.slack)

/-- The rows of a node, whether each is dirty and its values. -/
def rows (t : TableDef) (node : RawNode) : Option (List (Bool × List (Nat × DTCValue))) :=
  (readRows t node.content node.rowCnt node.head.length).map
    (List.map fun row => (isDirty row.1, row.2))

/-- A node whose rows are encoded under a definition. -/
structure Encodes (t : TableDef) (rows : List Row) (node : RawNode) : Prop where
  data : node.data = encodeRows t rows
  rowCnt : node.rowCnt = rows.length
  fits : ∀ row ∈ rows, row.Fits t
  size : node.head.length + node.data.length < 2 ^ 32

end RawNode

/-- A new definition with further columns, and their defaults. `fieldId` is `field_id` of the old
definition on the name of a field of the new one. -/
structure Expansion (old new : TableDef) where
  default : Nat → DTCValue
  fieldId : Nat → Option Nat
  fields_eq : ∃ added, new.fields = old.fields ++ added
  keyFields_eq : new.keyFields = old.keyFields
  keyFields_le : old.keyFields ≤ old.fields.length
  fieldId_eq : ∀ j, fieldId j = if j < old.fields.length then some j else none
  default_fits : ∀ j (f : FieldDef), old.fields.length ≤ j → new.fields[j]? = some f →
    f.discard = false → f.Fits (default j)

/-- A row with the defaults of the new columns. -/
def Expansion.extend {old new : TableDef} (e : Expansion old new) (row : Row) : Row where
  flag := row.flag
  values j := if j < old.fields.length then row.values j else e.default j

/-! ## The function -/

/-- Where the allocators fail or put a chunk: the temporary node, each insertion into it, the new
node, `try_purge_size` with the chunks that it frees, the new node again, and `copy_all`. -/
structure Env where
  tmpInit : Bool
  inserts : Nat → Bool
  init : Option Nat
  purge : Bool × List Nat
  initAgain : Option Nat
  copied : Option Nat

/-- The node's handle, and the chunks of the pool. -/
structure Store where
  vdHandle : Nat
  chunk : Nat → Option RawNode

def Store.free (store : Store) (handle : Nat) : Store :=
  { store with chunk := update store.chunk handle none }

def Store.put (store : Store) (handle : Nat) (node : RawNode) : Store :=
  { store with chunk := update store.chunk handle (some node) }

/-- `try_purge_size`, which keeps the reserved node. -/
def Store.purge (store : Store) (freed : List Nat) : Store :=
  (freed.filter (· ≠ store.vdHandle)).foldl Store.free store

section Expand

variable {old new : TableDef}

/-- The values that `decode_row` sets in a `RowValue`. -/
def setValues (row : Nat → DTCValue) (values : List (Nat × DTCValue)) : Nat → DTCValue :=
  values.foldl (fun row v => update row v.1 v.2) row

/-- `default_value` and `Copy`. -/
def Expansion.taskRow (e : Expansion old new) (nodeRow : Nat → DTCValue) (j : Nat) : DTCValue :=
  match e.fieldId j with
  | none => e.default j
  | some id => nodeRow id

/-- `insert_row` of a clean row, into the data of a node behind `dataStart` bytes. The data size has
32 bits. -/
def insertRow (t : TableDef) (ok byFirst : Bool) (dataStart : Nat) (tmp : Bytes × Nat)
    (row : Nat → DTCValue) : Option (Bytes × Nat) :=
  let bytes := encodeRow t operSelect row
  if !ok || dataStart + tmp.1.length + bytes.length ≥ 2 ^ 32 then none
  else if byFirst && tmp.1.length > 0 then some (bytes ++ tmp.1, tmp.2 + 1)
  else some (tmp.1 ++ bytes, tmp.2 + 1)

/-- The loop over `n` rows: the rows of the temporary node, or the return code. -/
def Expansion.expandRows (e : Expansion old new) (inserts : Nat → Bool) (byFirst : Bool)
    (content : Bytes) (dataStart : Nat) :
    Nat → Nat → (Nat → DTCValue) → Bytes × Nat → Except Int (Bytes × Nat)
  | 0, _, _, tmp => .ok tmp
  | n + 1, offset, nodeRow, tmp =>
    match decodeRow old content offset with
    | none => .error (-1)
    | some (values, next) =>
      match insertRow new (inserts n) byFirst dataStart tmp
        (e.taskRow (setValues nodeRow values)) with
      | none => .error (-2)
      | some tmp =>
        e.expandRows inserts byFirst content dataStart n next (setValues nodeRow values) tmp

/-- `stTmpRawData.Init`, once more after a purge; the purge may free chunks when it fails, too. -/
def initNew (env : Env) (store : Store) : Option Nat × Store :=
  match env.init with
  | some handle => (some handle, store)
  | none => (if env.purge.1 then env.initAgain else none, store.purge env.purge.2)

/-- `expand_node`, on a node of the old definition: the return code and the pool. -/
def Expansion.expandNode (e : Expansion old new) (env : Env) (insertOrder : UInt8) (node : RawNode)
    (store : Store) : Int × Store :=
  if !env.tmpInit then (-2, store)
  else
    match e.expandRows env.inserts (insertOrder ≠ 0) node.content node.head.length node.rowCnt
      node.head.length (fun _ => .u64 0) ([], 0) with
    | .error iRet => (iRet, store)
    | .ok (data, rowCnt) =>
      match initNew env store with
      | (none, store) => (-3, store)
      | (some handle, store) =>
        match env.copied with
        | none => (-3, store.free handle)
        | some copied =>
          let store := (store.free handle).put copied ⟨node.head, data, [], rowCnt⟩
          (0, { store.free store.vdHandle with vdHandle := copied })

/-- No allocation gives the chunk of the old node. -/
structure Env.Fresh (env : Env) (vdHandle : Nat) : Prop where
  init : env.init ≠ some vdHandle
  initAgain : env.initAgain ≠ some vdHandle
  copied : env.copied ≠ some vdHandle

/-- The new node has the old rows with the defaults of the new columns, or the old node is there. -/
structure Expansion.Keeps (e : Expansion old new) (rows : List Row) (store : Store)
    (out : Int × Store) : Prop where
  intact : out.1 ≠ 0 → out.2.vdHandle = store.vdHandle ∧
    out.2.chunk store.vdHandle = store.chunk store.vdHandle
  expanded : out.1 = 0 → ∃ node, out.2.chunk out.2.vdHandle = some node ∧
    node.rows new = some (rows.map fun row => (isDirty row.flag, (e.extend row).kept new))

/-! ## The loop -/

variable {e : Expansion old new} {row : Row} {rows : List Row} {nodeRow : Nat → DTCValue}

theorem keptFields_append (fs gs : List FieldDef) (j : Nat) (row : Nat → DTCValue) :
    keptFields (fs ++ gs) j row = keptFields fs j row ++ keptFields gs (j + fs.length) row := by
  induction fs generalizing j with
  | nil => rfl
  | cons f fs ih =>
    rw [cons_append, keptFields, keptFields, ih, length_cons, Nat.add_right_comm,
      Nat.add_assoc]
    split <;> rfl

theorem keptFields_congr {fs : List FieldDef} {j : Nat} {row row' : Nat → DTCValue}
    (h : ∀ i < fs.length, row (j + i) = row' (j + i)) :
    keptFields fs j row = keptFields fs j row' := by
  induction fs generalizing j with
  | nil => rfl
  | cons f fs ih =>
    have htail : keptFields fs (j + 1) row = keptFields fs (j + 1) row' := ih fun i hi => by
      rw [Nat.add_assoc, Nat.add_comm 1 i]
      exact h (i + 1) (Nat.succ_lt_succ hi)
    have hfirst : row j = row' j := h 0 (Nat.succ_pos _)
    rw [keptFields, keptFields, htail, hfirst]

/-- Values of earlier fields only leave a later field. -/
theorem setValues_keptFields_of_lt {fs : List FieldDef} {j k : Nat} {row : Nat → DTCValue}
    (h : k < j) : setValues nodeRow (keptFields fs j row) k = nodeRow k := by
  induction fs generalizing j nodeRow with
  | nil => rfl
  | cons f fs ih =>
    rw [keptFields]
    split
    · exact ih (Nat.lt_succ_of_lt h)
    · change setValues (update nodeRow j (row j)) (keptFields fs (j + 1) row) k = _
      rw [ih (Nat.lt_succ_of_lt h), update_of_ne (by omega)]

theorem setValues_keptFields {fs : List FieldDef} {j i : Nat} {row : Nat → DTCValue} {f : FieldDef}
    (hf : fs[i]? = some f) (hkept : f.discard = false) :
    setValues nodeRow (keptFields fs j row) (j + i) = row (j + i) := by
  induction fs generalizing i j nodeRow with
  | nil => cases hf
  | cons g fs ih =>
    rw [keptFields]
    cases i with
    | zero =>
      cases hf
      rw [if_neg (Bool.not_eq_true _ ▸ hkept)]
      change setValues (update nodeRow j (row j)) (keptFields fs (j + 1) row) j = _
      rw [setValues_keptFields_of_lt (Nat.lt_succ_self j), update_self, Nat.add_zero]
    | succ i =>
      have hnext : ∀ nodeRow, setValues nodeRow (keptFields fs (j + 1) row) (j + (i + 1)) =
          row (j + (i + 1)) := fun nodeRow => by
        rw [Nat.add_comm i, ← Nat.add_assoc]
        exact ih hf
      split
      · exact hnext nodeRow
      · exact hnext (update nodeRow j (row j))

namespace Expansion

/-- The row is inserted as a clean one. -/
def clean (e : Expansion old new) (row : Row) : Row := { e.extend row with flag := operSelect }

/-- Where the rows go in a node that has some. -/
def placed (byFirst : Bool) (done rows : List Row) : List Row :=
  if byFirst then rows.reverse ++ done else done ++ rows

theorem fits_extend (e : Expansion old new) (hfit : row.Fits old) : (e.extend row).Fits new := by
  obtain ⟨added, hadded⟩ := e.fields_eq
  intro i f hf hkept
  rw [e.keyFields_eq, List.getElem?_drop] at hf
  rw [e.keyFields_eq]
  by_cases hold : old.keyFields + i < old.fields.length
  · have hf' : (old.fields.drop old.keyFields)[i]? = some f := by
      rw [List.getElem?_drop]
      rwa [hadded, List.getElem?_append_left hold] at hf
    simpa [extend, hold] using hfit i f hf' hkept
  · simpa [extend, hold] using e.default_fits _ f (by omega) hf hkept

/-- The copied row is written as the extended one. -/
theorem encodeRow_taskRow (e : Expansion old new) (row : Row) (nodeRow : Nat → DTCValue)
    (flag : UInt8) :
    encodeRow new flag (e.taskRow (setValues nodeRow (row.kept old))) =
      encodeRow new flag (e.extend row).values := by
  obtain ⟨added, hadded⟩ := e.fields_eq
  rw [encodeRow, encodeRow]
  congr 1
  refine encodeFields_congr fun i f hf hkept => ?_
  rw [e.keyFields_eq, List.getElem?_drop] at hf
  rw [e.keyFields_eq, taskRow, e.fieldId_eq]
  by_cases hold : old.keyFields + i < old.fields.length
  · have hf' : (old.fields.drop old.keyFields)[i]? = some f := by
      rw [List.getElem?_drop]
      rwa [hadded, List.getElem?_append_left hold] at hf
    simp only [hold, if_true, extend]
    exact setValues_keptFields hf' hkept
  · simp only [hold, if_false, extend]

theorem length_encodeRows_placed (t : TableDef) (byFirst : Bool) (done rows : List Row) :
    (encodeRows t (placed byFirst done rows)).length =
      (encodeRows t done).length + (encodeRows t rows).length := by
  cases byFirst with
  | false => simp [placed, encodeRows, flatMap_append]
  | true => simp [placed, encodeRows, flatMap_append, length_flatMap, Nat.add_comm]

theorem placed_placed (byFirst : Bool) (done : List Row) (row : Row) (rows : List Row) :
    placed byFirst (placed byFirst done [row]) rows = placed byFirst done (row :: rows) := by
  cases byFirst <;> simp [placed]

theorem insertRow_eq {ok byFirst : Bool} {dataStart cnt : Nat} {done : List Row}
    {values : Nat → DTCValue}
    (h : encodeRow new operSelect values = encodeRow new operSelect (e.extend row).values) :
    insertRow new ok byFirst dataStart (encodeRows new done, cnt) values =
      if ok = true ∧ dataStart + (encodeRows new (placed byFirst done [e.clean row])).length < 2 ^ 32
      then some (encodeRows new (placed byFirst done [e.clean row]), cnt + 1) else none := by
  have hbytes : encodeRow new operSelect values = encodeRows new [e.clean row] := by
    rw [h, encodeRows, flatMap_singleton]
    rfl
  have hfirst : encodeRows new ([e.clean row] ++ done) =
      encodeRows new [e.clean row] ++ encodeRows new done := flatMap_append
  have hlast : encodeRows new (done ++ [e.clean row]) =
      encodeRows new done ++ encodeRows new [e.clean row] := flatMap_append
  simp only [insertRow, hbytes, length_encodeRows_placed, ← Nat.add_assoc]
  generalize encodeRows new [e.clean row] = bytes at hfirst hlast
  by_cases hok : ok = true ∧ dataStart + (encodeRows new done).length + bytes.length < 2 ^ 32
  · rw [if_neg (by simp [hok.1]; omega), if_pos hok]
    cases byFirst with
    | false => simp [placed, hlast]
    | true =>
      rw [placed, if_pos rfl, reverse_singleton, hfirst]
      split
      · rfl
      · rename_i hempty
        have hnil : encodeRows new done = [] := length_eq_zero_iff.mp (by simpa using hempty)
        rw [hnil, append_nil, nil_append]
  · rw [if_neg hok, if_pos]
    simp only [Bool.or_eq_true, Bool.not_eq_true', decide_eq_true_eq]
    by_cases htrue : ok = true
    · exact .inr (Nat.not_lt.mp fun hlt => hok ⟨htrue, hlt⟩)
    · exact .inl (Bool.not_eq_true _ ▸ htrue)

/-- The loop inserts every row as a clean one, or an insertion fails. -/
theorem expandRows_eq {inserts : Nat → Bool} {byFirst : Bool} {dataStart cnt : Nat}
    {done : List Row} {pre post : Bytes} (hfit : ∀ row ∈ rows, row.Fits old)
    (hlen : pre.length + (encodeRows old rows).length < 2 ^ 32)
    (hdone : dataStart + (encodeRows new done).length < 2 ^ 32) :
    e.expandRows inserts byFirst (pre ++ (encodeRows old rows ++ post)) dataStart rows.length
        pre.length nodeRow (encodeRows new done, cnt) =
      if (∀ i < rows.length, inserts i = true) ∧
        dataStart + (encodeRows new (placed byFirst done (rows.map e.clean))).length < 2 ^ 32
      then .ok (encodeRows new (placed byFirst done (rows.map e.clean)), cnt + rows.length)
      else .error (-2) := by
  induction rows generalizing pre nodeRow cnt done with
  | nil =>
    have hnil : placed byFirst done (([] : List Row).map e.clean) = done := by
      cases byFirst <;> simp [placed]
    rw [hnil, if_pos ⟨fun i hi => absurd hi (Nat.not_lt_zero i), hdone⟩]
    rfl
  | cons row rows ih =>
    have hcons : encodeRows old (row :: rows) =
        encodeRow old row.flag row.values ++ encodeRows old rows := flatMap_cons
    rw [hcons, length_append] at hlen
    rw [hcons, length_cons, expandRows, append_assoc,
      decodeRow_encodeRow (hfit row mem_cons_self) (by omega)]
    simp only [insertRow_eq (e.encodeRow_taskRow row nodeRow operSelect)]
    by_cases hok : inserts rows.length = true ∧
      dataStart + (encodeRows new (placed byFirst done [e.clean row])).length < 2 ^ 32
    · have hrest := @ih (setValues nodeRow (row.kept old)) (cnt + 1)
        (placed byFirst done [e.clean row]) (pre ++ encodeRow old row.flag row.values)
        (fun r hr => hfit r (mem_cons_of_mem row hr)) (by rw [length_append]; omega) hok.2
      rw [append_assoc, length_append, placed_placed, ← map_cons] at hrest
      have hall : (∀ i < rows.length + 1, inserts i = true) ↔ ∀ i < rows.length, inserts i = true :=
        ⟨fun h i hi => h i (Nat.lt_succ_of_lt hi), fun h i hi =>
          (Nat.lt_succ_iff_lt_or_eq.mp hi).elim (h i) fun heq => heq ▸ hok.1⟩
      simp only [if_pos hok, hrest, hall, Nat.add_assoc, Nat.add_comm 1]
    · rw [if_neg hok, if_neg]
      rintro ⟨hall, hsize⟩
      refine hok ⟨hall _ (Nat.lt_succ_self _), ?_⟩
      rw [map_cons, ← placed_placed, length_encodeRows_placed] at hsize
      omega

theorem length_encodeRows_clean (e : Expansion old new) (rows : List Row) :
    (encodeRows new (rows.map e.clean)).length = (encodeRows new (rows.map e.extend)).length := by
  simp [encodeRows, length_flatMap, comp_def, encodeRow, clean]

end Expansion

/-! ## The node -/

variable {node : RawNode} {store : Store} {env : Env} {insertOrder : UInt8}

theorem RawNode.rows_mk {t : TableDef} {head : Bytes} {rows : List Row} {rowCnt : Nat}
    (hfit : ∀ row ∈ rows, row.Fits t) (hlen : head.length + (encodeRows t rows).length < 2 ^ 32)
    (hcnt : rowCnt = rows.length) :
    RawNode.rows t ⟨head, encodeRows t rows, [], rowCnt⟩ =
      some (rows.map fun row => (isDirty row.flag, row.kept t)) := by
  rw [RawNode.rows, RawNode.content, hcnt, readRows_encodeRows hfit hlen, Option.map_some,
    map_map]
  rfl

theorem Store.chunk_free_of_ne {handle k : Nat} (h : k ≠ handle) :
    (store.free handle).chunk k = store.chunk k := by
  simp [Store.free, h]

theorem Store.chunk_put_self {handle : Nat} :
    (store.put handle node).chunk handle = some node := by
  simp [Store.put]

theorem purge_vdHandle (store : Store) (freed : List Nat) :
    (store.purge freed).vdHandle = store.vdHandle ∧
      (store.purge freed).chunk store.vdHandle = store.chunk store.vdHandle := by
  have hfold (l : List Nat) (s : Store) (hl : ∀ h ∈ l, h ≠ store.vdHandle) :
      (l.foldl Store.free s).vdHandle = s.vdHandle ∧
        (l.foldl Store.free s).chunk store.vdHandle = s.chunk store.vdHandle := by
    induction l generalizing s with
    | nil => exact ⟨rfl, rfl⟩
    | cons h l ih =>
      have hstep := ih (s.free h) fun h' hmem => hl h' (mem_cons_of_mem h hmem)
      have hne : store.vdHandle ≠ h := (hl h mem_cons_self).symm
      exact ⟨hstep.1, hstep.2.trans (Store.chunk_free_of_ne hne)⟩
  exact hfold _ store fun h hmem => by simpa using (mem_filter.mp hmem).2

/-- Neither allocation touches the old node. -/
theorem initNew_spec (h : env.Fresh store.vdHandle) :
    (initNew env store).1 ≠ some store.vdHandle ∧
      (initNew env store).2.vdHandle = store.vdHandle ∧
      (initNew env store).2.chunk store.vdHandle = store.chunk store.vdHandle := by
  rw [initNew]
  split
  · rename_i handle hinit
    exact ⟨hinit ▸ h.init, rfl, rfl⟩
  · refine ⟨?_, purge_vdHandle store env.purge.2⟩
    split
    · exact h.initAgain
    · simp

namespace Expansion

theorem placed_nil_fits (e : Expansion old new) (byFirst : Bool) (hfit : ∀ row ∈ rows, row.Fits old) :
    ∀ row ∈ placed byFirst [] (rows.map e.clean), row.Fits new := by
  have hclean : ∀ row ∈ rows.map e.clean, row.Fits new := by
    intro row hrow
    obtain ⟨r, hr, rfl⟩ := mem_map.mp hrow
    exact e.fits_extend (hfit r hr)
  intro row hrow
  cases byFirst with
  | false => exact hclean row hrow
  | true => exact hclean row (by simpa [placed] using hrow)

/-- The loop over a node. -/
theorem expandRows_node {inserts : Nat → Bool} {byFirst : Bool} (henc : node.Encodes old rows) :
    e.expandRows inserts byFirst node.content node.head.length node.rowCnt node.head.length nodeRow
        ([], 0) =
      if (∀ i < node.rowCnt, inserts i = true) ∧
        node.head.length + (encodeRows new (placed byFirst [] (rows.map e.clean))).length < 2 ^ 32
      then .ok (encodeRows new (placed byFirst [] (rows.map e.clean)), 0 + node.rowCnt)
      else .error (-2) := by
  have hsize := henc.size
  have hloop := @expandRows_eq _ _ e rows nodeRow inserts byFirst node.head.length 0 [] node.head
    node.slack henc.fits (henc.data ▸ hsize)
    (by simp only [encodeRows, flatMap_nil, length_nil]; omega)
  rw [← henc.data, ← henc.rowCnt] at hloop
  exact hloop

/-- What `expandNode` returns: the old node is there, or the new one has the clean rows. -/
theorem expandNode_cases (henc : node.Encodes old rows) (hfresh : env.Fresh store.vdHandle)
    {out : Int × Store} (hout : e.expandNode env insertOrder node store = out) :
    (out.1 ≠ 0 ∧ out.2.vdHandle = store.vdHandle ∧
      out.2.chunk store.vdHandle = store.chunk store.vdHandle) ∨
    (out.1 = 0 ∧ node.head.length + (encodeRows new (rows.map e.extend)).length < 2 ^ 32 ∧
      out.2.chunk out.2.vdHandle = some ⟨node.head,
        encodeRows new (placed (insertOrder ≠ 0) [] (rows.map e.clean)), [], rows.length⟩) := by
  have hlen := length_encodeRows_placed new (insertOrder ≠ 0) [] (rows.map e.clean)
  rw [length_encodeRows_clean] at hlen
  subst hout
  rw [expandNode, expandRows_node henc]
  by_cases htmp : env.tmpInit = true
  swap
  · rw [if_pos (by simpa using htmp)]
    exact .inl ⟨by simp, rfl, rfl⟩
  rw [if_neg (by simpa using htmp)]
  split
  · rename_i iRet herror
    split at herror
    · cases herror
    · cases herror
      exact .inl ⟨by simp, rfl, rfl⟩
  · rename_i data rowCnt hok
    split at hok
    swap
    · cases hok
    rename_i hcond
    cases hok
    obtain ⟨hne, hvd, hchunk⟩ := initNew_spec hfresh
    split
    · rename_i store' hinit
      rw [hinit] at hvd hchunk
      exact .inl ⟨by simp, hvd, hchunk⟩
    · rename_i handle store' hinit
      rw [hinit] at hne hvd hchunk
      have hkeep : (store'.free handle).chunk store.vdHandle = store.chunk store.vdHandle :=
        (Store.chunk_free_of_ne fun heq => hne (congrArg some heq.symm)).trans hchunk
      split
      · exact .inl ⟨by simp, hvd, hkeep⟩
      · rename_i copied hcopied
        refine .inr ⟨rfl, ?_, ?_⟩
        · have hsize := hcond.2
          rw [hlen] at hsize
          simpa only [encodeRows, flatMap_nil, length_nil, Nat.zero_add] using hsize
        · have hother : copied ≠ store'.vdHandle := fun heq =>
            hfresh.copied (by rw [hcopied, heq]; exact congrArg some hvd)
          change (Store.free _ store'.vdHandle).chunk copied = _
          rw [Store.chunk_free_of_ne hother, Store.chunk_put_self, Nat.zero_add, ← henc.rowCnt]

/-- Where nothing fails and the size has 32 bits, the node is expanded. -/
theorem expandNode_ok (henc : node.Encodes old rows) {handle : Nat} {purge : Bool × List Nat}
    (hsize : node.head.length + (encodeRows new (rows.map e.extend)).length < 2 ^ 32) :
    (e.expandNode ⟨true, fun _ => true, some handle, purge, none, some handle⟩ insertOrder node
      store).1 = 0 := by
  have hlen := length_encodeRows_placed new (insertOrder ≠ 0) [] (rows.map e.clean)
  rw [length_encodeRows_clean] at hlen
  have hnil : (encodeRows new []).length = 0 := rfl
  rw [expandNode, expandRows_node henc, if_neg (by simp), if_pos ⟨fun _ _ => rfl, by omega⟩]
  rfl

/-- A kept row of the new definition is the old one and the defaults. -/
theorem exists_kept_extend (e : Expansion old new) : ∃ defaults, ∀ row : Row,
    (e.extend row).kept new = row.kept old ++ defaults := by
  obtain ⟨added, hadded⟩ := e.fields_eq
  have hle := e.keyFields_le
  refine ⟨keptFields added old.fields.length e.default, fun row => ?_⟩
  rw [Row.kept, Row.kept, e.keyFields_eq, hadded, drop_append_of_le_length hle,
    keptFields_append, length_drop, Nat.add_sub_cancel' hle]
  congr 1
  · refine keptFields_congr fun i hi => ?_
    rw [length_drop] at hi
    simp [extend, show old.keyFields + i < old.fields.length by omega]
  · exact keptFields_congr fun i hi => by simp [extend]

theorem map_placed_eq_iff (e : Expansion old new) (byFirst : Bool) (rows : List Row) :
    (placed byFirst [] (rows.map e.clean)).map (fun row => (isDirty row.flag, row.kept new)) =
      rows.map (fun row => (isDirty row.flag, (e.extend row).kept new)) ↔
    (∀ row ∈ rows, isDirty row.flag = false) ∧
      (byFirst = false ∨ (rows.map (Row.kept old)).reverse = rows.map (Row.kept old)) := by
  obtain ⟨defaults, hdefaults⟩ := e.exists_kept_extend
  have hselect : isDirty operSelect = false := by decide
  have hfirst : (rows.map e.clean).map (fun row => (isDirty row.flag, row.kept new)) =
      rows.map fun row => (false, row.kept old ++ defaults) := by
    rw [map_map]
    refine map_congr_left fun row _ => ?_
    exact Prod.ext (show isDirty (e.clean row).flag = false from hselect) (hdefaults row)
  have hclean : rows.map (fun row => (isDirty row.flag, (e.extend row).kept new)) =
        rows.map (fun row => (false, row.kept old ++ defaults)) ↔
      ∀ row ∈ rows, isDirty row.flag = false := by
    simp only [hdefaults, map_inj_left, Prod.mk.injEq, and_true]
  cases byFirst with
  | false =>
    rw [placed, if_neg Bool.false_ne_true, nil_append, hfirst, eq_comm, hclean]
    simp
  | true =>
    rw [placed, if_pos rfl, append_nil, map_reverse, hfirst]
    refine ⟨fun h => ?_, fun h => ?_⟩
    · have hflags := congrArg (List.map Prod.fst) h
      have hvalues := congrArg (List.map Prod.snd) h
      simp only [map_reverse, map_map, comp_def, hdefaults] at hflags hvalues
      refine ⟨fun row hrow => ?_, .inr ?_⟩
      · have hmem : isDirty row.flag ∈ rows.map fun row => isDirty row.flag :=
          mem_map_of_mem hrow
        rw [← hflags] at hmem
        exact (mem_map.mp (mem_reverse.mp hmem)).choose_spec.2.symm
      · rw [← map_inj_right fun _ _ => (append_left_inj defaults).mp]
        simpa only [map_reverse, map_map, comp_def] using hvalues
    · have hvalues := congrArg (List.map fun values => (false, values ++ defaults))
        (h.2.resolve_left (by simp))
      simp only [map_reverse, map_map, comp_def] at hvalues
      rw [hvalues, hclean.mpr h.1]

end Expansion

/-- Expansion keeps the rows where none is dirty and the insert order does not matter. -/
theorem Expansion.keeps_iff (e : Expansion old new) (insertOrder : UInt8) (store : Store)
    (henc : node.Encodes old rows) :
    (∀ env : Env, env.Fresh store.vdHandle →
      e.Keeps rows store (e.expandNode env insertOrder node store)) ↔
    2 ^ 32 ≤ node.head.length + (encodeRows new (rows.map e.extend)).length ∨
      (∀ row ∈ rows, isDirty row.flag = false) ∧
      (insertOrder = 0 ∨ (rows.map (Row.kept old)).reverse = rows.map (Row.kept old)) := by
  have horder : (decide (insertOrder ≠ 0) = false) ↔ insertOrder = 0 := by simp
  have hiff := e.map_placed_eq_iff (insertOrder ≠ 0) rows
  rw [horder] at hiff
  have hrows (hsize : node.head.length + (encodeRows new (rows.map e.extend)).length < 2 ^ 32) :
      RawNode.rows new ⟨node.head, encodeRows new (placed (insertOrder ≠ 0) [] (rows.map e.clean)),
        [], rows.length⟩ = some ((placed (insertOrder ≠ 0) [] (rows.map e.clean)).map fun row =>
          (isDirty row.flag, row.kept new)) := by
    refine RawNode.rows_mk (e.placed_nil_fits _ henc.fits) ?_ ?_
    · rw [length_encodeRows_placed, length_encodeRows_clean]
      simpa [encodeRows] using hsize
    · by_cases h : insertOrder = 0 <;> simp [placed, h]
  constructor
  · intro h
    by_cases hsize : 2 ^ 32 ≤ node.head.length + (encodeRows new (rows.map e.extend)).length
    · exact .inl hsize
    · -- Nothing fails here, and what is in the node is known.
      rw [Nat.not_le] at hsize
      let env : Env := ⟨true, fun _ => true, some (store.vdHandle + 1), (true, []), none,
        some (store.vdHandle + 1)⟩
      have hfresh : env.Fresh store.vdHandle := ⟨by simp [env], by simp [env], by simp [env]⟩
      have hok : (e.expandNode env insertOrder node store).1 = 0 := expandNode_ok henc hsize
      obtain ⟨node', hnode', hexpanded⟩ := (h env hfresh).expanded hok
      rcases expandNode_cases henc hfresh (e := e) rfl with ⟨hfail, -⟩ | ⟨-, -, hnode⟩
      · exact absurd hok hfail
      · cases hnode'.symm.trans hnode
        exact .inr (hiff.mp (Option.some.inj ((hrows hsize).symm.trans hexpanded)))
  · intro hcond env hfresh
    rcases expandNode_cases henc hfresh (e := e) rfl with
      ⟨hfail, hintact⟩ | ⟨hok, hsize, hnode⟩
    · exact ⟨fun _ => hintact, fun hzero => absurd hzero hfail⟩
    · refine ⟨fun hne => absurd hok hne, fun _ => ⟨_, hnode, ?_⟩⟩
      rw [hrows hsize, hiff.mpr (hcond.resolve_left (Nat.not_le.mpr hsize))]

end Expand

/-! ## A column is added -/

def oneColumn : TableDef where
  fields := [⟨.unsigned, 4, false⟩, ⟨.unsigned, 4, false⟩]
  keyFields := 1
  expireId := none
  lcmodId := none
  key_pos := Nat.one_pos
  fields_le := by decide
  key_kept j f hj hf := by
    cases Nat.lt_one_iff.mp hj
    cases hf
    rfl
  expire_lt _ h := nomatch h
  expire_integer _ _ h := nomatch h
  lcmod_integer _ _ h := nomatch h

def twoColumns : TableDef where
  fields := oneColumn.fields ++ [⟨.signed, 8, false⟩]
  keyFields := 1
  expireId := none
  lcmodId := none
  key_pos := Nat.one_pos
  fields_le := by decide
  key_kept j f hj hf := by
    cases Nat.lt_one_iff.mp hj
    cases hf
    rfl
  expire_lt _ h := nomatch h
  expire_integer _ _ h := nomatch h
  lcmod_integer _ _ h := nomatch h

/-- The new column has the default 7. -/
def addColumn : Expansion oneColumn twoColumns where
  default _ := .s64 7
  fieldId j := if j < 2 then some j else none
  fields_eq := ⟨_, rfl⟩
  keyFields_eq := rfl
  keyFields_le := by decide
  fieldId_eq _ := rfl
  default_fits j f hj hf _ := by
    obtain ⟨k, rfl⟩ : ∃ k, j = 2 + k := Nat.exists_eq_add_of_le hj
    cases k with
    | zero =>
      cases hf
      exact ⟨rfl, .inl (by decide)⟩
    | succ k => simp [twoColumns, oneColumn, show 2 + (k + 1) = k + 3 by omega] at hf

def flaggedRow (flag : UInt8) (v : UInt64) : Row := ⟨flag, fun _ => .u64 v⟩

/-- A node with the given rows, the key being 1. -/
def nodeOf (rows : List Row) : RawNode where
  head := 0 :: (leBytes 4 (20 + 5 * rows.length) ++ leBytes 4 rows.length ++
    [0, 0, 0, 0, 0, 0, 0, 1, 0, 0, 0])
  data := encodeRows oneColumn rows
  slack := []
  rowCnt := rows.length

def storeOf (rows : List Row) : Store where
  vdHandle := 8
  chunk := update (fun _ => none) 8 (some (nodeOf rows))

theorem fits_flaggedRow {flag : UInt8} {v : UInt64} (h : v.toNat < 2 ^ 32) :
    (flaggedRow flag v).Fits oneColumn := by
  intro i f hf _
  cases i with
  | zero =>
    cases hf
    exact ⟨rfl, .inr h⟩
  | succ i => simp [oneColumn] at hf

theorem nodeOf_encodes {rows : List Row} (hfit : ∀ row ∈ rows, row.Fits oneColumn)
    (hsize : 20 + (encodeRows oneColumn rows).length < 2 ^ 32) :
    (nodeOf rows).Encodes oneColumn rows where
  data := rfl
  rowCnt := rfl
  fits := hfit
  size := by simpa [nodeOf, length_leBytes] using hsize

/-- The new node is made at handle 9, and no allocation fails. -/
def enoughMemory : Env := ⟨true, fun _ => true, some 9, (true, []), none, some 9⟩

/-- A clean row is kept with any insert order. -/
theorem keeps_clean : addColumn.Keeps [flaggedRow operSelect 5] (storeOf [flaggedRow operSelect 5])
    (addColumn.expandNode enoughMemory 1 (nodeOf [flaggedRow operSelect 5])
      (storeOf [flaggedRow operSelect 5])) :=
  (addColumn.keeps_iff 1 (storeOf [flaggedRow operSelect 5]) (nodeOf_encodes (by
    rintro row hrow
    cases mem_singleton.mp hrow
    exact fits_flaggedRow (by decide)) (by decide))).mpr (.inr ⟨by decide, .inr rfl⟩) enoughMemory
    ⟨by decide, by decide, by decide⟩

/-- A row that is dirty, and two rows with an insert order. -/
theorem not_keeps_dirty :
    (nodeOf [flaggedRow 0x36 5]).Encodes oneColumn [flaggedRow 0x36 5] ∧
    ¬addColumn.Keeps [flaggedRow 0x36 5] (storeOf [flaggedRow 0x36 5])
      (addColumn.expandNode enoughMemory 0 (nodeOf [flaggedRow 0x36 5])
        (storeOf [flaggedRow 0x36 5])) ∧
    ¬addColumn.Keeps [flaggedRow 0x30 5, flaggedRow 0x30 6]
      (storeOf [flaggedRow 0x30 5, flaggedRow 0x30 6])
      (addColumn.expandNode enoughMemory 1 (nodeOf [flaggedRow 0x30 5, flaggedRow 0x30 6])
        (storeOf [flaggedRow 0x30 5, flaggedRow 0x30 6])) := by
  refine ⟨nodeOf_encodes ?_ (by decide), fun h => ?_, fun h => ?_⟩
  · intro row hrow
    cases mem_singleton.mp hrow
    exact fits_flaggedRow (by decide)
  · obtain ⟨node, hnode, hrows⟩ := h.expanded (by decide)
    cases Option.some.inj hnode
    exact absurd hrows (by decide)
  · obtain ⟨node, hnode, hrows⟩ := h.expanded (by decide)
    cases Option.some.inj hnode
    exact absurd hrows (by decide)

end ISearch.RawData

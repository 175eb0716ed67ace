import ISearch.RawData.Bounds
import ISearch.RawData.Expand
import ISearch.Lib.Run

/-!
# Rows as a list (`raw_data.cc`)

`RawData` reads the rows of a chunk one after the other and can insert a row, and replace or delete
the row that was read last. `RowList` is what that means for a plain list of rows. The two agree as
long as no row was put in front of the row that was read last: `insert_row_flag` then shifts the
rows, but not `m_uiRowOffset`.

The values of a row that is written do not lie in the chunk, and no allocation fails.
-/

namespace ISearch.RawData

open Option
open List hiding pure_def

/-- `OPER_INSERT` and `OPER_UPDATE`. -/
def operInsert : UInt8 := 0x36
def operUpdate : UInt8 := 0x32

/-! ## The chunk -/

/-- The chunk of a `RawData` and the members that change; the length of `content` is `_size`. -/
structure Chunk where
  content : Bytes
  dataSize : Nat
  rowCnt : Nat
  dataStart : Nat
  rowOffset : Nat
  offset : Nat

/-- Bytes at a position are overwritten. -/
def put (content : Bytes) (offset : Nat) (bytes : Bytes) : Bytes :=
  content.take offset ++ (bytes ++ content.drop (offset + bytes.length))

/-- `memmove` inside a chunk. -/
def memmove (content : Bytes) (dst src n : Nat) : Bytes :=
    put content dst ((content.drop src).take n)

/-- `ReAlloc`: a chunk of at least the size asked for; `slack` is what follows the old bytes. -/
def reAlloc (content : Bytes) (tSize : Nat) (slack : Bytes) : Bytes :=
  let kept := content.take tSize ++ slack
  kept ++ replicate (tSize - kept.length) 0

/-- `calc_row_size`, the loop over the fields from field `j` on. -/
def calcFieldsSize : List FieldDef → Nat → (Nat → DTCValue) → Nat
  | [], _, _ => 0
  | f :: fs, j, row =>
    if f.discard then calcFieldsSize fs (j + 1) row
    else
      (match f.type with
        | .signed | .unsigned | .float => if f.size > 4 then 8 else 4
        | .string | .binary => 4 + (row j).str.length) + calcFieldsSize fs (j + 1) row

def calcRowSize (t : TableDef) (row : Nat → DTCValue) : Nat :=
  1 + calcFieldsSize (t.fields.drop t.keyFields) t.keyFields row

namespace Chunk

def setDataSize (s : Chunk) : Chunk :=
  { s with content := put s.content 1 (leBytes 4 s.dataSize) }

def setRowCount (s : Chunk) : Chunk :=
  { s with content := put s.content 5 (leBytes 4 s.rowCnt) }

def expandChunk (s : Chunk) (tExpSize : Nat) (slack : Bytes) : Chunk :=
  if s.dataSize + tExpSize > s.content.length then
    { s with content := reAlloc s.content (s.dataSize + tExpSize) slack }
  else s

def rewind (s : Chunk) : Chunk := { s with offset := s.dataStart, rowOffset := s.dataStart }

/-- `decode_row`; where it fails the position is not looked at. -/
def decodeRow (t : TableDef) (s : Chunk) :
    Option ((UInt8 × List (Nat × DTCValue)) × Chunk) :=
  (readRow t s.content s.offset).map fun (row, next) =>
    (row, { s with rowOffset := s.offset, offset := next })

/-- `encode_row` into a chunk that is large enough; each of its `SET_VALUE` asks for the room of one
value. -/
def encodeRowAt (t : TableDef) (s : Chunk) (row : Nat → DTCValue) (uchOp : UInt8) :
    Option Chunk :=
  let bytes := encodeRow t uchOp row
  if s.offset + bytes.length > s.content.length then none
  else
    some { s with
      content := put s.content s.offset bytes
      offset := s.offset + bytes.length
      dataSize := s.dataSize + calcRowSize t row
      rowCnt := s.rowCnt + 1 : Chunk }.setDataSize.setRowCount

def insertRowFlag (t : TableDef) (s : Chunk) (row : Nat → DTCValue) (byFirst : Bool)
    (uchOp : UInt8) (slack : Bytes) : Option Chunk := do
  let oldSize := s.dataSize
  let s ← { s with offset := oldSize }.expandChunk (calcRowSize t row) slack
    |>.encodeRowAt t row uchOp
  let newRowSize := s.dataSize - oldSize
  if byFirst ∧ newRowSize > 0 ∧ oldSize - s.dataStart > 0 then
    let buf := (s.content.drop oldSize).take newRowSize
    let content := memmove s.content (s.dataStart + newRowSize) s.dataStart (oldSize - s.dataStart)
    return { s with content := put content s.dataStart buf }
  else return s

def insertRow (t : TableDef) (s : Chunk) (row : Nat → DTCValue) (byFirst isDirty : Bool)
    (slack : Bytes) : Option Chunk :=
  s.insertRowFlag t row byFirst (if isDirty then operInsert else operSelect) slack

def replaceCurRow (t : TableDef) (s : Chunk) (row : Nat → DTCValue) (isDirty : Bool)
    (slack : Bytes) : Option Chunk := do
  let next ← skipRow t s.content s.dataSize s.rowOffset
  let rowFlag ← valueAt 1 s.content s.rowOffset
  let rowFlag := if isDirty then operUpdate else UInt8.ofNat rowFlag
  let newRowSize := calcRowSize t row
  let curRowSize := next - s.rowOffset
  let nextRowsSize := s.dataSize - next
  let s ←
    if newRowSize > curRowSize then do
      let content := reAlloc s.content (s.dataSize + newRowSize - curRowSize) slack
      let content := if nextRowsSize > 0 then
          memmove content (next + (newRowSize - curRowSize)) next nextRowsSize
        else content
      { s with content, offset := s.rowOffset }.encodeRowAt t row rowFlag
    else do
      let s ← { s with offset := s.rowOffset }.encodeRowAt t row rowFlag
      let content := if nextRowsSize > 0 ∧ s.offset ≠ next then
          memmove s.content s.offset next nextRowsSize
        else s.content
      pure { s with content := reAlloc content (s.dataSize + newRowSize - curRowSize) slack }
  return { s with
    rowCnt := s.rowCnt - 1
    dataSize := s.dataSize - curRowSize : Chunk }.setDataSize.setRowCount

def deleteCurRow (t : TableDef) (s : Chunk) : Option Chunk := do
  let next ← skipRow t s.content s.dataSize s.rowOffset
  let nextRowsSize := s.dataSize - next
  let content := memmove s.content s.rowOffset next nextRowsSize
  return { { s with
    content
    dataSize := s.dataSize - (next - s.rowOffset)
    rowCnt := s.rowCnt - 1 : Chunk }.setDataSize.setRowCount with offset := s.rowOffset }

end Chunk

/-- A list of rows that is read from the front; `cur` is the row that was read last, `shifted` says
whether a row was put in front of it since, and `pos` is the next row. -/
structure RowList where
  rows : List Row
  cur : Option Nat
  shifted : Bool
  pos : Nat

inductive RowOp where
  | rewind
  | decodeRow
  | insertRowFlag (row : Nat → DTCValue) (byFirst : Bool) (uchOp : UInt8) (slack : Bytes)
  | insertRow (row : Nat → DTCValue) (byFirst isDirty : Bool) (slack : Bytes)
  | replaceCurRow (row : Nat → DTCValue) (isDirty : Bool) (slack : Bytes)
  | deleteCurRow

namespace RowList

/-- A row comes to the front or to the end; the row that was read last stays the same row. -/
def insert (l : RowList) (row : Row) (byFirst : Bool) : RowList where
  rows := if byFirst then row :: l.rows else l.rows ++ [row]
  cur := if byFirst then l.cur.map (· + 1) else l.cur
  shifted := byFirst || l.shifted
  pos := l.rows.length + 1

/-- A call on a plain list. A row is read while there is one left, and replaced or deleted after it
was read. -/
def step (l : RowList) : RowOp → Option RowList
  | .rewind => some ⟨l.rows, none, false, 0⟩
  | .decodeRow =>
    if l.pos < l.rows.length then some ⟨l.rows, some l.pos, false, l.pos + 1⟩ else none
  | .insertRowFlag row byFirst uchOp _ => some (l.insert ⟨uchOp, row⟩ byFirst)
  | .insertRow row byFirst isDirty _ =>
    some (l.insert ⟨if isDirty then operInsert else operSelect, row⟩ byFirst)
  | .replaceCurRow row isDirty _ => do
    let cur ← l.cur
    let old ← l.rows[cur]?
    let row := ⟨if isDirty then operUpdate else old.flag, row⟩
    return ⟨l.rows.set cur row, cur, l.shifted, cur + 1⟩
  | .deleteCurRow => do
    let cur ← l.cur
    return ⟨l.rows.eraseIdx cur, none, false, cur⟩

end RowList

/-- The call on the chunk. -/
def Chunk.step (t : TableDef) (s : Chunk) : RowOp → Option Chunk
  | .rewind => some s.rewind
  | .decodeRow => (s.decodeRow t).map Prod.snd
  | .insertRowFlag row byFirst uchOp slack => s.insertRowFlag t row byFirst uchOp slack
  | .insertRow row byFirst isDirty slack => s.insertRow t row byFirst isDirty slack
  | .replaceCurRow row isDirty slack => s.replaceCurRow t row isDirty slack
  | .deleteCurRow => s.deleteCurRow t

/-! ## Bytes of a chunk -/

section Bytes

variable {pre gap mid post xs : Bytes}

theorem put_append (bytes : Bytes) (hmid : mid.length = bytes.length) :
    put (pre ++ (mid ++ post)) pre.length bytes = pre ++ (bytes ++ post) := by
  rw [put, take_left, ← hmid, ← drop_drop, drop_left, drop_left]

/-- Bytes move down over a gap. -/
theorem memmove_down (pre gap mid post : Bytes) :
    ∃ slack, memmove (pre ++ (gap ++ (mid ++ post))) pre.length (pre.length + gap.length)
      mid.length = pre ++ (mid ++ slack) := by
  rw [memmove, ← drop_drop, drop_left, drop_left, take_left, put,
    take_left]
  exact ⟨_, rfl⟩

/-- Bytes move up and leave a gap. -/
theorem memmove_up (pre mid : Bytes) {d : Nat} (hd : d ≤ post.length) :
    ∃ gap slack, memmove (pre ++ (mid ++ post)) (pre.length + d) pre.length mid.length =
      pre ++ (gap ++ (mid ++ slack)) ∧ gap.length = d := by
  rw [memmove, drop_left, take_left, put, take_length_add_append, append_assoc]
  refine ⟨_, _, rfl, ?_⟩
  rw [length_take, length_append]
  omega

theorem reAlloc_append (post slack : Bytes) {n : Nat} (hn : pre.length ≤ n) :
    ∃ slack', reAlloc (pre ++ post) n slack = pre ++ slack' ∧ n - pre.length ≤ slack'.length := by
  rw [reAlloc, take_append, take_of_length_le hn, append_assoc, append_assoc,
    append_assoc]
  refine ⟨_, rfl, ?_⟩
  simp only [length_append, length_replicate]
  omega

/-- The header of a chunk: its type, the data size, the row count, and the rest up to the rows. -/
def header (type : UInt8) (dataSize rowCnt : Nat) (rest : Bytes) : Bytes :=
  type :: (leBytes 4 dataSize ++ (leBytes 4 rowCnt ++ rest))

theorem length_header (type : UInt8) (dataSize rowCnt : Nat) (rest : Bytes) :
    (header type dataSize rowCnt rest).length = 9 + rest.length := by
  simp only [header, length_cons, length_append, length_leBytes]
  omega

theorem setHeader {s : Chunk} {type : UInt8} {a b : Nat} {rest xs : Bytes}
    (h : s.content = header type a b rest ++ xs) :
    s.setDataSize.setRowCount =
      { s with content := header type s.dataSize s.rowCnt rest ++ xs } := by
  have hsize : s.setDataSize.content = header type s.dataSize b rest ++ xs := by
    have hput := @put_append [type] (leBytes 4 a) (leBytes 4 b ++ rest ++ xs)
      (leBytes 4 s.dataSize) (by simp)
    rw [Chunk.setDataSize, h]
    simpa [header] using hput
  have hcount : s.setDataSize.setRowCount.content = header type s.dataSize s.rowCnt rest ++ xs := by
    have hput := @put_append (type :: leBytes 4 s.dataSize) (leBytes 4 b) (rest ++ xs)
      (leBytes 4 s.rowCnt) (by simp)
    rw [Chunk.setRowCount, hsize]
    simpa [header, Chunk.setDataSize] using hput
  rw [← hcount]
  rfl

theorem calcFieldsSize_eq (fs : List FieldDef) (j : Nat) (row : Nat → DTCValue) :
    calcFieldsSize fs j row = (encodeFields fs j row).length := by
  induction fs generalizing j with
  | nil => rfl
  | cons f fs ih =>
    rw [calcFieldsSize, encodeFields]
    by_cases hdiscard : f.discard = true
    · rw [if_pos hdiscard, if_pos hdiscard, ih]
    · rw [if_neg hdiscard, if_neg hdiscard, length_append, ih, encodeField]
      congr 1
      cases f.type <;> dsimp only
      case signed | unsigned | float => split_ifs <;> rw [length_leBytes]
      case string | binary => rw [length_append, length_leBytes]

theorem calcRowSize_eq (t : TableDef) (uchOp : UInt8) (row : Nat → DTCValue) :
    calcRowSize t row = (encodeRow t uchOp row).length := by
  rw [calcRowSize, calcFieldsSize_eq, encodeRow, length_cons, Nat.add_comm]

/-- The rows behind a row make room for `d` more bytes. -/
theorem memmove_gap (pre mid : Bytes) {d : Nat} (hd : d ≤ post.length) :
    ∃ gap slack, (if mid.length > 0 then memmove (pre ++ (mid ++ post)) (pre.length + d) pre.length
        mid.length else pre ++ (mid ++ post)) = pre ++ (gap ++ (mid ++ slack)) ∧
      gap.length = d := by
  split_ifs with hmid
  · exact memmove_up pre mid hd
  · have hnil : mid = [] := length_eq_zero_iff.mp (Nat.eq_zero_of_not_pos hmid)
    refine ⟨post.take d, post.drop d, ?_, by rw [length_take]; omega⟩
    rw [hnil, nil_append, nil_append, take_append_drop]

/-- The rows behind a row that got shorter follow it again. -/
theorem memmove_close (pre gap mid post : Bytes) :
    ∃ slack, (if mid.length > 0 ∧ pre.length ≠ pre.length + gap.length then
        memmove (pre ++ (gap ++ (mid ++ post))) pre.length (pre.length + gap.length) mid.length
      else pre ++ (gap ++ (mid ++ post))) = pre ++ (mid ++ slack) := by
  split_ifs with hmove
  · exact memmove_down pre gap mid post
  · rw [not_and_or, not_not] at hmove
    obtain hmid | hgap := hmove
    · have hnil : mid = [] := length_eq_zero_iff.mp (Nat.eq_zero_of_not_pos hmid)
      exact ⟨gap ++ post, by rw [hnil]; rfl⟩
    · have hnil : gap = [] := length_eq_zero_iff.mp (by omega)
      exact ⟨post, by rw [hnil]; rfl⟩

/-- A row in the middle gets room for `n` bytes. -/
theorem reAlloc_grow (pre old rest slack₀ slack : Bytes) {n size next : Nat} (hn : old.length ≤ n)
    (hnext : next = pre.length + old.length) (hsize : size = next + rest.length) :
    ∃ mid slack', (if rest.length > 0 then
        memmove (reAlloc (pre ++ (old ++ (rest ++ slack₀))) (size + n - old.length) slack)
          (next + (n - old.length)) next rest.length
      else reAlloc (pre ++ (old ++ (rest ++ slack₀))) (size + n - old.length) slack) =
        pre ++ (mid ++ (rest ++ slack')) ∧ mid.length = n := by
  have hassoc : pre ++ (old ++ (rest ++ slack₀)) = (pre ++ old ++ rest) ++ slack₀ := by
    simp only [append_assoc]
  have hlen : (pre ++ old ++ rest).length = size := by
    rw [length_append, length_append, hsize, hnext]
  obtain ⟨slack₁, hgrown, hroom⟩ :=
    @reAlloc_append (pre ++ old ++ rest) slack₀ slack (size + n - old.length) (by omega)
  obtain ⟨gap, slack₂, hmove, hgap⟩ :=
    @memmove_gap slack₁ (pre ++ old) rest (n - old.length) (by omega)
  rw [length_append, ← hnext] at hmove
  refine ⟨old ++ gap, slack₂, ?_, by rw [length_append]; omega⟩
  rw [hassoc, hgrown, append_assoc, hmove]
  simp only [append_assoc]

/-- The bytes of a row that are left over are closed. -/
theorem reAlloc_close (pre left rest slack₀ slack : Bytes) {n next : Nat}
    (hnext : next = pre.length + left.length) (hn : pre.length + rest.length ≤ n) :
    ∃ slack', reAlloc (if rest.length > 0 ∧ pre.length ≠ next then
        memmove (pre ++ (left ++ (rest ++ slack₀))) pre.length next rest.length
      else pre ++ (left ++ (rest ++ slack₀))) n slack = pre ++ (rest ++ slack') := by
  subst hnext
  obtain ⟨slack₁, hclose⟩ := memmove_close pre left rest slack₀
  obtain ⟨slack₂, hgrown, -⟩ := @reAlloc_append (pre ++ rest) slack₁ slack n
    (by rwa [length_append])
  refine ⟨slack₂, ?_⟩
  rw [hclose, ← append_assoc, hgrown, append_assoc]

end Bytes

/-! ## The calls -/

/-- The chunk holds the rows behind a header. -/
structure Holds (t : TableDef) (type : UInt8) (rest : Bytes) (rows : List Row) (s : Chunk) :
    Prop where
  content : ∃ slack, s.content = header type s.dataSize s.rowCnt rest ++
    (encodeRows t rows ++ slack)
  dataStart : s.dataStart = 9 + rest.length
  dataSize : s.dataSize = s.dataStart + (encodeRows t rows).length
  rowCnt : s.rowCnt = rows.length
  fits : ∀ row ∈ rows, row.Fits t
  size_lt : s.dataSize < 2 ^ 32

variable {t : TableDef} {type : UInt8} {rest : Bytes} {rows : List Row} {s s' : Chunk}

theorem encodeRows_append (t : TableDef) (rows rows' : List Row) :
    encodeRows t (rows ++ rows') = encodeRows t rows ++ encodeRows t rows' :=
  flatMap_append

theorem encodeRows_cons (t : TableDef) (row : Row) (rows : List Row) :
    encodeRows t (row :: rows) = encodeRow t row.flag row.values ++ encodeRows t rows :=
  flatMap_cons

theorem length_take_add_one {i : Nat} {row : Row} (hi : rows[i]? = some row) :
    (encodeRows t (rows.take (i + 1))).length =
      (encodeRows t (rows.take i)).length + calcRowSize t row.values := by
  have hone : encodeRows t [row] = encodeRow t row.flag row.values := flatMap_singleton ..
  rw [take_add_one, hi, toList_some, encodeRows_append, hone, length_append,
    calcRowSize_eq t row.flag]

/-- A row is written over as many bytes behind some rows. -/
theorem encodeRowAt_eq {a b : Nat} {xs mid post : Bytes} (row : Row)
    (hcontent : s.content = header type a b rest ++ (xs ++ (mid ++ post)))
    (hoffset : s.offset = 9 + rest.length + xs.length)
    (hmid : mid.length = calcRowSize t row.values) :
    s.encodeRowAt t row.values row.flag = some { s with
      content := header type (s.dataSize + calcRowSize t row.values) (s.rowCnt + 1) rest ++
        (xs ++ (encodeRow t row.flag row.values ++ post))
      offset := s.offset + calcRowSize t row.values
      dataSize := s.dataSize + calcRowSize t row.values
      rowCnt := s.rowCnt + 1 } := by
  have hlen := calcRowSize_eq t row.flag row.values
  have hfits : ¬s.offset + (encodeRow t row.flag row.values).length > s.content.length := by
    rw [hcontent, hoffset, ← hlen, ← hmid]
    simp only [length_append, length_header]
    omega
  have hput : put s.content s.offset (encodeRow t row.flag row.values) =
      header type a b rest ++ (xs ++ (encodeRow t row.flag row.values ++ post)) := by
    have hoffset' : s.offset = (header type a b rest ++ xs).length := by
      rw [length_append, length_header, hoffset]
    rw [hcontent, hoffset', ← append_assoc, put_append _ (hmid.trans hlen), append_assoc]
  rw [Chunk.encodeRowAt, if_neg hfits, hput, ← hlen, setHeader rfl]

theorem skipFields_of_decodeFields {fs : List FieldDef} {content : Bytes} {j offset next : Nat}
    {vs : List (Nat × DTCValue)} (h : decodeFields content fs j offset = some (vs, next)) :
    skipFields content fs offset = some next := by
  induction fs generalizing j offset vs with
  | nil =>
    cases h
    rfl
  | cons f fs ih =>
    rw [skipFields]
    obtain ⟨hdiscard, hrest⟩ | ⟨hkept, v, mid, ws, hfield, hrest, -⟩ := decodeFields_cons h
    · rw [if_pos hdiscard]
      exact ih hrest
    · rw [if_neg (by rw [hkept]; exact Bool.false_ne_true), skipField_of_decodeField hfield,
        bind_some]
      exact ih hrest

namespace Holds

/-- Rewinding and decoding all rows gives the list. -/
theorem readRows_eq (h : Holds t type rest rows s) :
    readRows t s.content s.rowCnt s.dataStart =
      some (rows.map fun row => (row.flag, row.kept t)) := by
  obtain ⟨slack, hcontent⟩ := h.content
  have hstart : s.dataStart = (header type s.dataSize s.rowCnt rest).length := by
    rw [length_header, h.dataStart]
  have hlt := h.size_lt
  rw [h.dataSize, hstart] at hlt
  rw [hcontent, h.rowCnt, hstart]
  exact readRows_encodeRows h.fits hlt

/-- There is room for a row behind the others. -/
theorem expandChunk (h : Holds t type rest rows s) (n : Nat) (slack : Bytes) :
    ∃ slack', s.expandChunk n slack = { s with
      content := header type s.dataSize s.rowCnt rest ++ (encodeRows t rows ++ slack') } ∧
      n ≤ slack'.length := by
  obtain ⟨slack₀, hcontent⟩ := h.content
  have hlen : (header type s.dataSize s.rowCnt rest ++ encodeRows t rows).length = s.dataSize := by
    rw [length_append, length_header, h.dataSize, h.dataStart]
  rw [Chunk.expandChunk]
  split_ifs with hfull
  · obtain ⟨slack', hgrown, hroom⟩ := reAlloc_append slack₀ slack
      (hlen.trans_le (Nat.le_add_right s.dataSize n))
    refine ⟨slack', ?_, by omega⟩
    rw [← append_assoc, ← hgrown, hcontent, append_assoc]
  · refine ⟨slack₀, by rw [← hcontent], ?_⟩
    rw [hcontent, ← append_assoc, length_append, hlen] at hfull
    omega

theorem insertRowFlag (h : Holds t type rest rows s) (row : Row) (byFirst : Bool) (slack : Bytes)
    (hfit : row.Fits t) (hsize : s.dataSize + calcRowSize t row.values < 2 ^ 32) :
    ∃ s', s.insertRowFlag t row.values byFirst row.flag slack = some s' ∧
      Holds t type rest (if byFirst then row :: rows else rows ++ [row]) s' ∧
      s'.dataStart = s.dataStart ∧ s'.offset = s'.dataSize ∧ s'.rowOffset = s.rowOffset := by
  have hlen := calcRowSize_eq t row.flag row.values
  have hpos : 0 < calcRowSize t row.values := Nat.lt_of_lt_of_le Nat.one_pos (Nat.le_add_right 1 _)
  have hstart := h.dataStart
  have hdata := h.dataSize
  obtain ⟨sl, hexpand, hroom⟩ := (show Holds t type rest rows { s with offset := s.dataSize } from
    ⟨h.content, h.dataStart, h.dataSize, h.rowCnt, h.fits, h.size_lt⟩).expandChunk
      (calcRowSize t row.values) slack
  have hput := @encodeRowAt_eq t type rest _ s.dataSize s.rowCnt (encodeRows t rows)
    (sl.take (calcRowSize t row.values)) (sl.drop (calcRowSize t row.values)) row
    (by rw [take_append_drop]; exact congrArg Chunk.content hexpand)
    (by rw [hexpand]; dsimp only; omega) (by rw [length_take]; omega)
  rw [hexpand] at hput
  have happend (rows' : List Row) (content : Bytes) (hrows' : rows'.length = rows.length + 1)
      (hfits : ∀ r ∈ rows', r.Fits t)
      (hbytes : (encodeRows t rows').length =
        (encodeRows t rows).length + calcRowSize t row.values)
      (hcontent : ∃ slack, content = header type (s.dataSize + calcRowSize t row.values)
        (s.rowCnt + 1) rest ++ (encodeRows t rows' ++ slack)) :
      Holds t type rest rows' ⟨content, s.dataSize + calcRowSize t row.values, s.rowCnt + 1,
        s.dataStart, s.rowOffset, s.dataSize + calcRowSize t row.values⟩ :=
    ⟨hcontent, hstart, by dsimp only; omega, by dsimp only; rw [h.rowCnt, hrows'], hfits, hsize⟩
  rw [Chunk.insertRowFlag]
  dsimp only
  rw [hexpand, hput]
  dsimp only [bind_eq_bind, bind_some]
  have hsub : s.dataSize - s.dataStart = (encodeRows t rows).length := by omega
  rw [Nat.add_sub_cancel_left, hsub]
  by_cases hfront : byFirst = true ∧ calcRowSize t row.values > 0 ∧ (encodeRows t rows).length > 0
  · rw [if_pos hfront, hfront.1]
    -- the rows move up, and the new row, which was kept aside, fills the gap
    set hd := header type (s.dataSize + calcRowSize t row.values) (s.rowCnt + 1) rest with hhd
    have hhdlen : hd.length = s.dataStart := by rw [hhd, length_header, hstart]
    have hbuf : ((hd ++ (encodeRows t rows ++ (encodeRow t row.flag row.values ++
        sl.drop (calcRowSize t row.values)))).drop s.dataSize).take (calcRowSize t row.values) =
          encodeRow t row.flag row.values := by
      rw [hdata, ← hhdlen, ← drop_drop, drop_left, drop_left, hlen, take_left]
    obtain ⟨gap, slack', hmove, hgap⟩ := @memmove_up (encodeRow t row.flag row.values ++
      sl.drop (calcRowSize t row.values)) hd (encodeRows t rows) (calcRowSize t row.values)
        (by rw [length_append]; omega)
    rw [hbuf, ← hhdlen, hmove, put_append _ (hgap.trans hlen), hhdlen, if_pos rfl]
    refine ⟨_, rfl, ?_, rfl, rfl, rfl⟩
    refine happend _ _ rfl (forall_mem_cons.mpr ⟨hfit, h.fits⟩) ?_ ⟨slack', ?_⟩
    · rw [encodeRows_cons, length_append, hlen, Nat.add_comm]
    · rw [encodeRows_cons, append_assoc]
  · rw [if_neg hfront]
    have hrows : (if byFirst then row :: rows else rows ++ [row]) = rows ++ [row] := by
      cases byFirst with
      | false => rfl
      | true =>
        have hnil : rows = [] := by
          cases rows with
          | nil => rfl
          | cons r rows =>
            refine absurd ⟨rfl, hpos, ?_⟩ hfront
            rw [encodeRows_cons, encodeRow]
            exact Nat.succ_pos _
        rw [hnil]
        rfl
    refine ⟨_, rfl, ?_, rfl, rfl, rfl⟩
    rw [hrows]
    have hone : encodeRows t [row] = encodeRow t row.flag row.values := flatMap_singleton ..
    refine happend _ _ (by rw [length_append]; rfl)
      (forall_mem_append.mpr ⟨h.fits, forall_mem_singleton.mpr hfit⟩) ?_
      ⟨sl.drop (calcRowSize t row.values), ?_⟩
    · rw [encodeRows_append, hone, length_append, hlen]
    · rw [encodeRows_append, hone, append_assoc]

/-- The chunk with one of its rows set apart. -/
theorem split (h : Holds t type rest rows s) {i : Nat} {row : Row} (hi : rows[i]? = some row) :
    ∃ slack, s.content = header type s.dataSize s.rowCnt rest ++ (encodeRows t (rows.take i) ++
      (encodeRow t row.flag row.values ++ (encodeRows t (rows.drop (i + 1)) ++ slack))) ∧
      s.dataSize = s.dataStart + (encodeRows t (rows.take i)).length +
        calcRowSize t row.values + (encodeRows t (rows.drop (i + 1))).length := by
  obtain ⟨slack, hcontent⟩ := h.content
  obtain ⟨hlt, rfl⟩ := List.getElem?_eq_some_iff.mp hi
  have hrows : encodeRows t rows = encodeRows t (rows.take i) ++
      (encodeRow t rows[i].flag rows[i].values ++ encodeRows t (rows.drop (i + 1))) := by
    rw [← encodeRows_cons, ← encodeRows_append, getElem_cons_drop, take_append_drop]
  refine ⟨slack, ?_, ?_⟩
  · rw [hcontent, hrows, append_assoc, append_assoc]
  · rw [h.dataSize, hrows, calcRowSize_eq t rows[i].flag]
    simp only [length_append]
    omega

/-- The row at a position is read and skipped. -/
theorem row_at (h : Holds t type rest rows s) {i : Nat} {row : Row} (hi : rows[i]? = some row) :
    readRow t s.content (s.dataStart + (encodeRows t (rows.take i)).length) =
        some ((row.flag, row.kept t),
          s.dataStart + (encodeRows t (rows.take i)).length + calcRowSize t row.values) ∧
      valueAt 1 s.content (s.dataStart + (encodeRows t (rows.take i)).length) =
        some row.flag.toNat ∧
      skipRow t s.content s.dataSize (s.dataStart + (encodeRows t (rows.take i)).length) =
        some (s.dataStart + (encodeRows t (rows.take i)).length + calcRowSize t row.values) := by
  obtain ⟨slack, hcontent, hsize⟩ := h.split hi
  have hlt := h.size_lt
  have hlen := calcRowSize_eq t row.flag row.values
  have hpos : 0 < calcRowSize t row.values := Nat.lt_of_lt_of_le Nat.one_pos (Nat.le_add_right 1 _)
  have hfit : row.Fits t := h.fits row (mem_of_getElem? hi)
  have hoffset : s.dataStart + (encodeRows t (rows.take i)).length =
      (header type s.dataSize s.rowCnt rest ++ encodeRows t (rows.take i)).length := by
    rw [length_append, length_header, h.dataStart]
  have hroom : (header type s.dataSize s.rowCnt rest ++ encodeRows t (rows.take i)).length +
      (encodeRow t row.flag row.values).length < 2 ^ 32 := by omega
  rw [← append_assoc] at hcontent
  have hdecode :=
    @decodeRow_encodeRow _ (encodeRows t (rows.drop (i + 1)) ++ slack) t row hfit hroom
  rw [← hcontent, ← hlen, ← hoffset] at hdecode
  refine ⟨?_, ?_, ?_⟩
  · rw [hoffset, hcontent, readRow_encodeRow hfit hroom, hlen]
  · rw [hoffset, hcontent, valueAt_flag]
  · obtain ⟨hskip, hfields⟩ := decodeRow_eq hdecode
    rw [RawData.skipRow, if_neg (by omega), hskip, bind_some,
      skipFields_of_decodeFields hfields]

/-- A chunk that holds the rows around one, and another row in its place. -/
theorem set (h : Holds t type rest rows s) {i : Nat} {old row : Row} (hi : rows[i]? = some old)
    (hfit : row.Fits t) (hsize : s.dataSize + calcRowSize t row.values < 2 ^ 32) {a b : Nat}
    {content slack : Bytes}
    (hcontent : content = header type a b rest ++ (encodeRows t (rows.take i) ++
      (encodeRow t row.flag row.values ++ (encodeRows t (rows.drop (i + 1)) ++ slack))))
    (offset : Nat) :
    Holds t type rest (rows.set i row) ({ s with
      content
      dataSize := s.dataSize + calcRowSize t row.values - calcRowSize t old.values
      rowCnt := s.rowCnt + 1 - 1
      offset : Chunk }.setDataSize.setRowCount) := by
  obtain ⟨-, -, hdata⟩ := h.split hi
  obtain ⟨hlt, -⟩ := List.getElem?_eq_some_iff.mp hi
  have hlen := calcRowSize_eq t row.flag row.values
  have hrows : encodeRows t (rows.set i row) = encodeRows t (rows.take i) ++
      (encodeRow t row.flag row.values ++ encodeRows t (rows.drop (i + 1))) := by
    rw [set_eq_take_append_cons_drop, if_pos hlt, encodeRows_append, encodeRows_cons]
  rw [setHeader hcontent]
  refine ⟨⟨slack, ?_⟩, h.dataStart, ?_, ?_, fun r hr => ?_, ?_⟩
  · rw [hrows, append_assoc, append_assoc]
  · rw [hrows]
    simp only [length_append]
    omega
  · rw [length_set, ← h.rowCnt]
    rfl
  · obtain hr | rfl := mem_or_eq_of_mem_set hr
    · exact h.fits r hr
    · exact hfit
  · dsimp only
    omega

theorem replaceCurRow (h : Holds t type rest rows s) {i : Nat} {old : Row}
    (hi : rows[i]? = some old)
    (hoffset : s.rowOffset = s.dataStart + (encodeRows t (rows.take i)).length)
    (row : Nat → DTCValue) (isDirty : Bool) (slack : Bytes)
    (hfit : Row.Fits t ⟨if isDirty then operUpdate else old.flag, row⟩)
    (hsize : s.dataSize + calcRowSize t row < 2 ^ 32) :
    ∃ s', s.replaceCurRow t row isDirty slack = some s' ∧
      Holds t type rest (rows.set i ⟨if isDirty then operUpdate else old.flag, row⟩) s' ∧
      s'.dataStart = s.dataStart ∧ s'.rowOffset = s.rowOffset ∧
      s'.offset = s.rowOffset + calcRowSize t row := by
  obtain ⟨slack₀, hcontent, hdata⟩ := h.split hi
  obtain ⟨-, hflag, hskip⟩ := h.row_at hi
  rw [← hoffset] at hflag hskip
  rw [Chunk.replaceCurRow, hskip]
  simp only [bind_eq_bind, bind_some, hflag]
  rw [UInt8.ofNat_toNat, Nat.add_sub_cancel_left]
  have hnew := calcRowSize_eq t (if isDirty then operUpdate else old.flag) row
  have hold := calcRowSize_eq t old.flag old.values
  have hstart := h.dataStart
  have hnext : s.dataSize - (s.rowOffset + calcRowSize t old.values) =
      (encodeRows t (rows.drop (i + 1))).length := by omega
  have hpre (a b : Nat) : (header type a b rest ++ encodeRows t (rows.take i)).length =
      s.rowOffset := by
    rw [length_append, length_header]
    omega
  rw [hnext]
  by_cases hgrow : calcRowSize t row > calcRowSize t old.values
  · rw [if_pos hgrow]
    obtain ⟨mid, slack₁, hgrown, hmid⟩ := @reAlloc_grow
      (header type s.dataSize s.rowCnt rest ++ encodeRows t (rows.take i))
      (encodeRow t old.flag old.values) (encodeRows t (rows.drop (i + 1))) slack₀ slack
      (calcRowSize t row) s.dataSize (s.rowOffset + calcRowSize t old.values)
      (by omega) (by rw [hpre]; omega) (by omega)
    rw [append_assoc, ← hcontent, ← hold, append_assoc] at hgrown
    rw [hgrown]
    have hput := @encodeRowAt_eq t type rest { s with
        content := header type s.dataSize s.rowCnt rest ++ (encodeRows t (rows.take i) ++
          (mid ++ (encodeRows t (rows.drop (i + 1)) ++ slack₁)))
        offset := s.rowOffset } s.dataSize s.rowCnt (encodeRows t (rows.take i)) mid _
      ⟨if isDirty then operUpdate else old.flag, row⟩ rfl (by dsimp only; omega) hmid
    rw [hput, bind_some]
    exact ⟨_, rfl, h.set hi hfit hsize rfl _, rfl, rfl, rfl⟩
  · rw [if_neg hgrow]
    have hleft : encodeRow t old.flag old.values =
        (encodeRow t old.flag old.values).take (calcRowSize t row) ++
          (encodeRow t old.flag old.values).drop (calcRowSize t row) :=
      (take_append_drop ..).symm
    have hput := @encodeRowAt_eq t type rest { s with offset := s.rowOffset } s.dataSize s.rowCnt
      (encodeRows t (rows.take i)) ((encodeRow t old.flag old.values).take (calcRowSize t row))
      ((encodeRow t old.flag old.values).drop (calcRowSize t row) ++
        (encodeRows t (rows.drop (i + 1)) ++ slack₀))
      ⟨if isDirty then operUpdate else old.flag, row⟩
      (by rw [← append_assoc (List.take _ _), ← hleft]; exact hcontent)
      (by dsimp only; omega) (by rw [length_take]; dsimp only; omega)
    rw [hput, bind_some]
    dsimp only [bind_some, pure_def]
    obtain ⟨slack₁, hclosed⟩ := @reAlloc_close
      (header type (s.dataSize + calcRowSize t row) (s.rowCnt + 1) rest ++
        (encodeRows t (rows.take i) ++ encodeRow t (if isDirty then operUpdate else old.flag) row))
      ((encodeRow t old.flag old.values).drop (calcRowSize t row))
      (encodeRows t (rows.drop (i + 1))) slack₀ slack
      (s.dataSize + calcRowSize t row + calcRowSize t row - calcRowSize t old.values)
      (s.rowOffset + calcRowSize t old.values)
      (by rw [← append_assoc, length_append, hpre, length_drop]; omega)
      (by rw [← append_assoc, length_append, hpre]; omega)
    have hlen : (header type (s.dataSize + calcRowSize t row) (s.rowCnt + 1) rest ++
        (encodeRows t (rows.take i) ++
          encodeRow t (if isDirty then operUpdate else old.flag) row)).length =
        s.rowOffset + calcRowSize t row := by
      rw [← append_assoc, length_append, hpre, hnew]
    rw [hlen] at hclosed
    simp only [append_assoc] at hclosed
    rw [hclosed]
    exact ⟨_, rfl, h.set hi hfit hsize rfl _, rfl, rfl, rfl⟩

theorem deleteCurRow (h : Holds t type rest rows s) {i : Nat} {old : Row}
    (hi : rows[i]? = some old)
    (hoffset : s.rowOffset = s.dataStart + (encodeRows t (rows.take i)).length) :
    ∃ s', s.deleteCurRow t = some s' ∧ Holds t type rest (rows.eraseIdx i) s' ∧
      s'.dataStart = s.dataStart ∧ s'.offset = s.rowOffset := by
  obtain ⟨slack, hcontent, hdata⟩ := h.split hi
  obtain ⟨-, -, hskip⟩ := h.row_at hi
  obtain ⟨hlt, -⟩ := List.getElem?_eq_some_iff.mp hi
  have hlen := calcRowSize_eq t old.flag old.values
  have hsize := h.size_lt
  have hstart := h.dataStart
  rw [← hoffset] at hskip
  have hrows : encodeRows t (rows.eraseIdx i) =
      encodeRows t (rows.take i) ++ encodeRows t (rows.drop (i + 1)) := by
    rw [eraseIdx_eq_take_drop_succ, encodeRows_append]
  have hnext : s.dataSize - (s.rowOffset + calcRowSize t old.values) =
      (encodeRows t (rows.drop (i + 1))).length := by omega
  rw [← append_assoc] at hcontent
  have hpre : s.rowOffset =
      (header type s.dataSize s.rowCnt rest ++ encodeRows t (rows.take i)).length := by
    rw [length_append, length_header]
    omega
  obtain ⟨slack', hmove⟩ := memmove_down
    (header type s.dataSize s.rowCnt rest ++ encodeRows t (rows.take i))
    (encodeRow t old.flag old.values) (encodeRows t (rows.drop (i + 1))) slack
  rw [← hcontent, ← hpre, ← hlen, ← hnext, append_assoc] at hmove
  rw [Chunk.deleteCurRow, hskip]
  simp only [bind_eq_bind, bind_some, hmove]
  rw [setHeader rfl]
  refine ⟨_, rfl, ⟨⟨slack', ?_⟩, hstart, ?_, ?_, fun r hr => ?_, ?_⟩, rfl, rfl⟩
  · rw [hrows, append_assoc]
  · rw [hrows, length_append]
    dsimp only
    omega
  · rw [length_eraseIdx_of_lt hlt, ← h.rowCnt]
  · exact h.fits r (mem_of_mem_eraseIdx hr)
  · dsimp only
    omega

end Holds

/-! ## The runs -/

/-- The chunk is at the same place of the same list. -/
structure Refines (t : TableDef) (type : UInt8) (rest : Bytes) (s : Chunk) (l : RowList) : Prop
    extends Holds t type rest l.rows s where
  pos_le : l.pos ≤ l.rows.length
  offset : s.offset = s.dataStart + (encodeRows t (l.rows.take l.pos)).length
  cur_lt : ∀ i, l.cur = some i → i < l.rows.length
  rowOffset : ∀ i, l.cur = some i → l.shifted = false →
    s.rowOffset = s.dataStart + (encodeRows t (l.rows.take i)).length

/-- The row of a call. -/
def RowOp.row? : RowOp → Option (Nat → DTCValue)
  | .insertRowFlag row .. | .insertRow row .. | .replaceCurRow row .. => some row
  | .rewind | .decodeRow | .deleteCurRow => none

/-- The values of a row that is written fit their fields, and the sizes stay in 32 bits. -/
def RowOp.Fits (t : TableDef) (dataStart : Nat) (l : RowList) (op : RowOp) : Prop :=
  ∀ row, op.row? = some row → FieldsFit (t.fields.drop t.keyFields) t.keyFields row ∧
    dataStart + (encodeRows t l.rows).length + calcRowSize t row < 2 ^ 32

/-- A row is replaced or deleted before others are put in front of it. -/
def RowOp.Kept (l : RowList) : RowOp → Prop
  | .replaceCurRow .. | .deleteCurRow => l.shifted = false
  | _ => True

namespace Refines

variable {l l' : RowList}

theorem rewind (h : Refines t type rest s l) :
    Refines t type rest s.rewind ⟨l.rows, none, false, 0⟩ where
  toHolds := ⟨h.content, h.dataStart, h.dataSize, h.rowCnt, h.fits, h.size_lt⟩
  pos_le := Nat.zero_le _
  offset := rfl
  cur_lt _ hcur := nomatch hcur
  rowOffset _ hcur := nomatch hcur

theorem decodeRow (h : Refines t type rest s l) {row : Row} (hrow : l.rows[l.pos]? = some row) :
    ∃ s', s.decodeRow t = some ((row.flag, row.kept t), s') ∧
      Refines t type rest s' ⟨l.rows, some l.pos, false, l.pos + 1⟩ := by
  obtain ⟨hread, -, -⟩ := h.row_at hrow
  obtain ⟨hlt, rfl⟩ := List.getElem?_eq_some_iff.mp hrow
  rw [Chunk.decodeRow, h.offset, hread]
  refine ⟨_, rfl, ⟨h.content, h.dataStart, h.dataSize, h.rowCnt, h.fits, h.size_lt⟩,
    hlt, ?_, ?_, ?_⟩
  · dsimp only
    rw [length_take_add_one hrow, Nat.add_assoc]
  · rintro i ⟨⟩
    exact hlt
  · rintro i ⟨⟩ -
    rfl

theorem insertRowFlag (h : Refines t type rest s l) (row : Row) (byFirst : Bool) (slack : Bytes)
    (hfits : (RowOp.insertRowFlag row.values byFirst row.flag slack).Fits t s.dataStart l) :
    ∃ s', s.insertRowFlag t row.values byFirst row.flag slack = some s' ∧
      Refines t type rest s' (l.insert row byFirst) := by
  obtain ⟨hfit, hsize⟩ := hfits _ rfl
  rw [← h.dataSize] at hsize
  obtain ⟨s', hs', hholds, hstart, hoffset, hrow⟩ :=
    h.toHolds.insertRowFlag row byFirst slack hfit hsize
  have hlength : (l.insert row byFirst).rows.length = l.rows.length + 1 := by
    cases byFirst
    · exact length_append
    · rfl
  refine ⟨s', hs', hholds, hlength.ge, ?_, fun i hi => ?_, fun i hi hshifted => ?_⟩
  · rw [hoffset, hholds.dataSize, ← take_of_length_le (i := (l.insert row byFirst).pos)
      (l := if byFirst then row :: l.rows else l.rows ++ [row]) hlength.le]
    rfl
  · rw [hlength]
    cases byFirst with
    | false => exact (h.cur_lt i hi).trans (Nat.lt_succ_self _)
    | true =>
      obtain ⟨j, hj, rfl⟩ := map_eq_some_iff.mp hi
      exact Nat.succ_lt_succ (h.cur_lt j hj)
  · cases byFirst with
    | true => cases hshifted
    | false =>
      rw [hrow, h.rowOffset i hi hshifted, hstart]
      exact congrArg (fun rows => s.dataStart + (encodeRows t rows).length)
        (take_append_of_le_length (h.cur_lt i hi).le).symm

theorem replaceCurRow (h : Refines t type rest s l) {i : Nat} {old : Row} (hcur : l.cur = some i)
    (hold : l.rows[i]? = some old) (hshifted : l.shifted = false) (row : Nat → DTCValue)
    (isDirty : Bool) (slack : Bytes)
    (hfits : (RowOp.replaceCurRow row isDirty slack).Fits t s.dataStart l) :
    ∃ s', s.replaceCurRow t row isDirty slack = some s' ∧
      Refines t type rest s' ⟨l.rows.set i ⟨if isDirty then operUpdate else old.flag, row⟩,
        some i, l.shifted, i + 1⟩ := by
  obtain ⟨hfit, hsize⟩ := hfits _ rfl
  rw [← h.dataSize] at hsize
  have hlt := h.cur_lt i hcur
  have hrow := h.rowOffset i hcur hshifted
  obtain ⟨s', hs', hholds, hstart, hrow', hoffset⟩ :=
    h.toHolds.replaceCurRow hold hrow row isDirty slack hfit hsize
  have htake : (l.rows.set i ⟨if isDirty then operUpdate else old.flag, row⟩).take i =
      l.rows.take i := take_set_of_le le_rfl
  have hi : (l.rows.set i ⟨if isDirty then operUpdate else old.flag, row⟩)[i]? =
      some ⟨if isDirty then operUpdate else old.flag, row⟩ := List.getElem?_set_self hlt
  refine ⟨s', hs', hholds, ?_, ?_, ?_, ?_⟩
  · rwa [length_set]
  · dsimp only
    rw [hoffset, hrow, hstart, length_take_add_one hi, htake, Nat.add_assoc]
  · rintro j ⟨⟩
    rwa [length_set]
  · rintro j ⟨⟩ -
    rw [hrow', hrow, hstart, htake]

theorem deleteCurRow (h : Refines t type rest s l) {i : Nat} (hcur : l.cur = some i)
    (hshifted : l.shifted = false) :
    ∃ s', s.deleteCurRow t = some s' ∧
      Refines t type rest s' ⟨l.rows.eraseIdx i, none, false, i⟩ := by
  have hlt := h.cur_lt i hcur
  have hrow := h.rowOffset i hcur hshifted
  obtain ⟨s', hs', hholds, hstart, hoffset⟩ :=
    h.toHolds.deleteCurRow (List.getElem?_eq_getElem hlt) hrow
  refine ⟨s', hs', hholds, ?_, ?_, nofun, nofun⟩
  · rw [length_eraseIdx_of_lt hlt]
    exact Nat.le_pred_of_lt hlt
  · dsimp only
    have htake : (l.rows.eraseIdx i).take i = l.rows.take i := by
      rw [eraseIdx_eq_take_drop_succ,
        take_left' (by rw [length_take, Nat.min_eq_left hlt.le])]
    rw [hoffset, hrow, hstart, htake]

/-- A call that is made on the list succeeds on the chunk. -/
theorem step (h : Refines t type rest s l) {op : RowOp} (hstep : l.step op = some l')
    (hfits : op.Fits t s.dataStart l) (hkept : op.Kept l) :
    ∃ s', s.step t op = some s' ∧ Refines t type rest s' l' := by
  cases op with
  | rewind =>
    cases hstep
    exact ⟨_, rfl, h.rewind⟩
  | decodeRow =>
    obtain ⟨hlt, hl'⟩ := ite_none_right_eq_some.mp hstep
    cases hl'
    obtain ⟨s', hs', href⟩ := h.decodeRow (List.getElem?_eq_getElem hlt)
    exact ⟨s', by rw [Chunk.step, hs', map_some], href⟩
  | insertRowFlag row byFirst uchOp slack =>
    cases hstep
    exact h.insertRowFlag ⟨uchOp, row⟩ byFirst slack hfits
  | insertRow row byFirst isDirty slack =>
    cases hstep
    exact h.insertRowFlag ⟨if isDirty then operInsert else operSelect, row⟩ byFirst slack hfits
  | replaceCurRow row isDirty slack =>
    obtain ⟨i, hcur, hstep⟩ := bind_eq_some_iff.mp hstep
    obtain ⟨old, hold, hl'⟩ := bind_eq_some_iff.mp hstep
    cases hl'
    exact h.replaceCurRow hcur hold hkept row isDirty slack hfits
  | deleteCurRow =>
    obtain ⟨i, hcur, hl'⟩ := bind_eq_some_iff.mp hstep
    cases hl'
    exact h.deleteCurRow hcur hkept

theorem run (h : Refines t type rest s l) (ops : List RowOp)
    (hrun : runOps RowList.step l ops = some l')
    (hfits : AlongRun RowList.step (fun l op => op.Fits t s.dataStart l) l ops)
    (hkept : AlongRun RowList.step (fun l op => op.Kept l) l ops) :
    ∃ s', runOps (Chunk.step t) s ops = some s' ∧ Refines t type rest s' l' := by
  induction ops generalizing s l with
  | nil =>
    cases hrun
    exact ⟨s, rfl, h⟩
  | cons op ops ih =>
    rw [runOps_cons] at hrun
    obtain ⟨l₁, hl₁, hrun⟩ := bind_eq_some_iff.mp hrun
    obtain ⟨s₁, hs₁, h₁⟩ := h.step hl₁ hfits.1 hkept.1
    have hstart : s₁.dataStart = s.dataStart := h₁.dataStart.trans h.dataStart.symm
    obtain ⟨s', hs', h'⟩ := ih h₁ hrun (by rw [hstart]; exact hfits.2 l₁ hl₁) (hkept.2 l₁ hl₁)
    exact ⟨s', by rw [runOps_cons, hs₁, bind_some, hs'], h'⟩

end Refines

/-- The part of a header behind the row count: the get count, three times and the key. -/
def headerRest (hours : UInt16 × UInt16 × UInt16) (key : Bytes) : Bytes :=
  1 :: (leBytes 2 hours.1.toNat ++ (leBytes 2 hours.2.1.toNat ++
    (leBytes 2 hours.2.2.toNat ++ key)))

/-- A node without rows, as `Init` makes it. -/
def Chunk.init (type : UInt8) (hours : UInt16 × UInt16 × UInt16) (key slack : Bytes) : Chunk where
  content := header type (16 + key.length) 0 (headerRest hours key) ++ slack
  dataSize := 16 + key.length
  rowCnt := 0
  dataStart := 16 + key.length
  rowOffset := 16 + key.length
  offset := 16 + key.length

def RowList.empty : RowList := ⟨[], none, false, 0⟩

/-- Rewinding and decoding all rows gives a list, the data ends with its last row, and the key is
in its place. -/
structure ReadsAs (t : TableDef) (key : Bytes) (s : Chunk) (rows : List Row) : Prop where
  readRows_eq : readRows t s.content s.rowCnt s.dataStart =
    some (rows.map fun row => (row.flag, row.kept t))
  dataSize : s.dataSize = s.dataStart + (encodeRows t rows).length
  key : (s.content.drop 16).take key.length = key

theorem length_headerRest (hours : UInt16 × UInt16 × UInt16) (key : Bytes) :
    (headerRest hours key).length = 7 + key.length := by
  simp only [headerRest, length_cons, length_append, length_leBytes]
  omega

theorem refines_init (t : TableDef) (type : UInt8) (hours : UInt16 × UInt16 × UInt16)
    {key : Bytes} (slack : Bytes) (hkey : 16 + key.length < 2 ^ 32) :
    Refines t type (headerRest hours key) (.init type hours key slack) .empty where
  content := ⟨slack, rfl⟩
  dataStart := by
    rw [length_headerRest]
    show 16 + key.length = 9 + (7 + key.length)
    omega
  dataSize := rfl
  rowCnt := rfl
  fits := nofun
  size_lt := hkey
  pos_le := le_rfl
  offset := rfl
  cur_lt := nofun
  rowOffset := nofun

theorem Refines.readsAs {hours : UInt16 × UInt16 × UInt16} {key : Bytes} {l : RowList}
    (h : Refines t type (headerRest hours key) s l) : ReadsAs t key s l.rows where
  readRows_eq := h.readRows_eq
  dataSize := h.dataSize
  key := by
    obtain ⟨slack, hcontent⟩ := h.content
    have hsplit : s.content = (type :: (leBytes 4 s.dataSize ++ (leBytes 4 s.rowCnt ++
        (1 :: (leBytes 2 hours.1.toNat ++ (leBytes 2 hours.2.1.toNat ++
          leBytes 2 hours.2.2.toNat)))))) ++ (key ++ (encodeRows t l.rows ++ slack)) := by
      rw [hcontent]
      simp only [header, headerRest, append_assoc, cons_append]
    rw [hsplit, drop_left' (by simp only [length_cons, length_append,
      length_leBytes]), take_left]

/-- Every sequence of calls that a plain list takes, in which no row is replaced or deleted after
others were put in front of it. -/
theorem run_readsAs (t : TableDef) (type : UInt8) (hours : UInt16 × UInt16 × UInt16)
    (key slack : Bytes) (ops : List RowOp) (hkey : 16 + key.length < 2 ^ 32) {l : RowList}
    (hrun : runOps RowList.step .empty ops = some l)
    (hfits : AlongRun RowList.step (fun l op => op.Fits t (16 + key.length) l) .empty ops)
    (hkept : AlongRun RowList.step (fun l op => op.Kept l) .empty ops) :
    ∃ s, runOps (Chunk.step t) (.init type hours key slack) ops = some s ∧
      ReadsAs t key s l.rows := by
  obtain ⟨s, hs, href⟩ := (refines_init t type hours slack hkey).run ops hrun hfits hkept
  exact ⟨s, hs, href.readsAs⟩

/-- The key is 1. -/
def keyOne : Bytes := [1, 0, 0, 0]

/-- Two rows come in, the first one is replaced and the second one deleted. -/
def replaceOps : List RowOp :=
  [.insertRow (fun _ => .u64 7) false true [], .insertRow (fun _ => .u64 8) false false [],
    .rewind, .decodeRow, .replaceCurRow (fun _ => .u64 9) true [], .decodeRow, .deleteCurRow]

theorem fits_oneColumn {l : RowList} {op : RowOp} {v : UInt64}
    (hop : op.row? = some fun _ => .u64 v)
    (hv : v.toNat < 2 ^ 32)
    (hsize : 20 + (encodeRows oneColumn l.rows).length + 5 < 2 ^ 32) :
    op.Fits oneColumn 20 l := by
  intro row hrow
  cases hop.symm.trans hrow
  exact ⟨@fits_flaggedRow operSelect v hv, hsize⟩

theorem run_readsAs_replaced : ∃ s,
    runOps (Chunk.step oneColumn) (.init 0 (0, 0, 0) keyOne []) replaceOps = some s ∧
      ReadsAs oneColumn keyOne s [⟨operUpdate, fun _ => .u64 9⟩] := by
  refine run_readsAs oneColumn 0 (0, 0, 0) keyOne [] replaceOps (by decide) rfl ?_ ?_
  · refine ⟨fits_oneColumn rfl (by decide) (by decide), fun _ h => ?_⟩
    cases h
    refine ⟨fits_oneColumn rfl (by decide) (by decide), fun _ h => ?_⟩
    cases h
    refine ⟨nofun, fun _ h => ?_⟩
    cases h
    refine ⟨nofun, fun _ h => ?_⟩
    cases h
    refine ⟨fits_oneColumn rfl (by decide) (by decide), fun _ h => ?_⟩
    cases h
    exact ⟨nofun, fun _ h => by cases h; exact ⟨nofun, fun _ _ => trivial⟩⟩
  · exact ⟨trivial, fun _ h => by
      cases h
      exact ⟨trivial, fun _ h => by
        cases h
        exact ⟨trivial, fun _ h => by
          cases h
          exact ⟨trivial, fun _ h => by
            cases h
            exact ⟨rfl, fun _ h => by
              cases h
              exact ⟨trivial, fun _ h => by cases h; exact ⟨rfl, fun _ _ => trivial⟩⟩⟩⟩⟩⟩⟩

/-- A row is read and another one is put in front of it; then the first row is to be deleted. -/
def insertFirstOps : List RowOp :=
  [.insertRow (fun _ => .u64 7) false false [], .rewind, .decodeRow,
    .insertRow (fun _ => .u64 8) true true [], .deleteCurRow]

/-- The chunk loses the new row, the list the old one. -/
theorem not_run_readsAs : ∃ l s, runOps RowList.step .empty insertFirstOps = some l ∧
    AlongRun RowList.step (fun l op => op.Fits oneColumn 20 l) .empty insertFirstOps ∧
    runOps (Chunk.step oneColumn) (.init 0 (0, 0, 0) keyOne []) insertFirstOps = some s ∧
    ¬ReadsAs oneColumn keyOne s l.rows := by
  refine ⟨_, _, rfl, ?_, rfl, fun h => ?_⟩
  · refine ⟨fits_oneColumn rfl (by decide) (by decide), fun _ h => ?_⟩
    cases h
    refine ⟨nofun, fun _ h => ?_⟩
    cases h
    refine ⟨nofun, fun _ h => ?_⟩
    cases h
    refine ⟨fits_oneColumn rfl (by decide) (by decide), fun _ h => ?_⟩
    cases h
    exact ⟨nofun, fun _ _ => trivial⟩
  · exact absurd (congrArg (Option.map (List.map Prod.fst)) h.readRows_eq) (by decide)

end ISearch.RawData

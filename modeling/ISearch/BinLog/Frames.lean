import ISearch.BinLog.Defs

/-!
# The frames of the log

`BinlogWriter` puts a header of 20 bytes in front of the records of a body, each behind its length;
`BinlogReader::Read` takes a frame by the length in its first four bytes, and the accessors find the
records in it again.
-/

namespace ISearch.BinLog

open List

/-- What the caller commits: the arguments of `insert_header` and of the `append_body` calls. The
count of the header is the number of records. -/
structure Body where
  type : UInt8
  operater : UInt8
  timestamp : Nat
  records : List Bytes

def insertHeader (type operater : UInt8) (timestamp count : Nat) : Bytes :=
  leBytes 4 0 ++ [0x02, type, operater] ++ [0, 0, 0, 0, 0] ++ leBytes 4 timestamp ++ leBytes 4 count

def appendBody (buffer record : Bytes) : Bytes := buffer ++ leBytes 4 record.length ++ record

/-- `Commit` writes the length into the header. -/
def commitLength (buffer : Bytes) : Bytes := leBytes 4 (buffer.length - 4) ++ buffer.drop 4

/-- The bytes that a commit gives to the log. -/
def Body.frame (b : Body) : Bytes :=
  commitLength
    (b.records.foldl appendBody (insertHeader b.type b.operater b.timestamp b.records.length))

def encodeRecord (record : Bytes) : Bytes := leBytes 4 record.length ++ record

theorem foldl_appendBody (records : List Bytes) (buffer : Bytes) :
    records.foldl appendBody buffer = buffer ++ records.flatMap encodeRecord := by
  induction records generalizing buffer with
  | nil => simp
  | cons record records ih =>
    rw [foldl_cons, ih, flatMap_cons, appendBody, encodeRecord]
    simp only [append_assoc]

namespace Body

/-- The length that the header announces. -/
def length (b : Body) : Nat := 16 + (b.records.flatMap encodeRecord).length

/-- The header behind the length. -/
def header (b : Body) : Bytes :=
  [0x02, b.type, b.operater] ++ [0, 0, 0, 0, 0] ++ leBytes 4 b.timestamp ++
    leBytes 4 b.records.length

theorem length_header (b : Body) : b.header.length = 16 := by
  simp [header]

theorem frame_eq (b : Body) :
    b.frame = leBytes 4 b.length ++ (b.header ++ b.records.flatMap encodeRecord) := by
  rw [frame, commitLength, foldl_appendBody]
  have hlen : (insertHeader b.type b.operater b.timestamp b.records.length ++
      b.records.flatMap encodeRecord).length - 4 = b.length := by
    simp [insertHeader, length]
    omega
  rw [hlen]
  rfl

theorem length_frame (b : Body) : b.frame.length = b.length + 4 := by
  rw [frame_eq]
  simp only [length_append, length_leBytes, length_header, length]
  omega

end Body

/-! ## The accessors -/

def u32At (buffer : Bytes) (i : Nat) : Nat := ofLeBytes ((buffer.drop i).take 4)

def binlogType (buffer : Bytes) : UInt8 := buffer[5]?.getD 0

def binlogOperator (buffer : Bytes) : UInt8 := buffer[6]?.getD 0

def recordCount (buffer : Bytes) : Nat := u32At buffer 16

/-- One round of the loop of `record_pointer` on the variables `m` and `l`. -/
def pointerStep (buffer : Bytes) : Nat × Nat → Nat × Nat
  | (_, l) => (20 + l, (l + u32At buffer (20 + l - 4) + 4) % 2 ^ 32)

/-- The offset of the pointer in the buffer. -/
def recordPointer (buffer : Bytes) (id : Nat) : Nat := ((pointerStep buffer)^[id + 1] (0, 4)).1

/-- One round of the loop of `record_length` on the variables `l` and `ll`. -/
def lengthStep (buffer : Bytes) : Nat × Nat → Nat × Nat
  | (_, ll) => (u32At buffer (20 + ll), (ll + u32At buffer (20 + ll) + 4) % 2 ^ 32)

def recordLength (buffer : Bytes) (id : Nat) : Nat := ((lengthStep buffer)^[id + 1] (0, 0)).1

def record (buffer : Bytes) (id : Nat) : Bytes :=
  (buffer.drop (recordPointer buffer id)).take (recordLength buffer id)

/-- What the accessors say of a frame. -/
structure Binlog where
  bytes : Bytes
  type : UInt8
  operater : UInt8
  count : Nat
  records : List Bytes

def view (buffer : Bytes) : Binlog where
  bytes := buffer
  type := binlogType buffer
  operater := binlogOperator buffer
  count := recordCount buffer
  records := (List.range (recordCount buffer)).map (record buffer)

theorem u32At_append {front rest : Bytes} {n : Nat} (hn : n < 2 ^ 32) :
    u32At (front ++ (leBytes 4 n ++ rest)) front.length = n := by
  rw [u32At, drop_left, take_left' (length_leBytes 4 n), ofLeBytes_leBytes,
    Nat.mod_eq_of_lt (by omega)]

namespace Body

variable {b : Body}

/-- The frame around the record `i`. -/
theorem frame_split {i : Nat} (hi : i < b.records.length) :
    ∃ front rest, b.frame = front ++ (leBytes 4 b.records[i].length ++ (b.records[i] ++ rest)) ∧
      front.length = 20 + ((b.records.take i).flatMap encodeRecord).length := by
  refine ⟨leBytes 4 b.length ++ (b.header ++ (b.records.take i).flatMap encodeRecord),
    (b.records.drop (i + 1)).flatMap encodeRecord, ?_, ?_⟩
  · have hsplit : b.records.flatMap encodeRecord = (b.records.take i).flatMap encodeRecord ++
        (encodeRecord b.records[i] ++ (b.records.drop (i + 1)).flatMap encodeRecord) := by
      rw [← flatMap_cons, ← drop_eq_getElem_cons hi, ← flatMap_append,
        take_append_drop]
    rw [frame_eq, hsplit, encodeRecord]
    simp only [append_assoc]
  · simp only [length_append, length_leBytes, length_header]
    omega

theorem length_take_succ {i : Nat} (hi : i < b.records.length) :
    ((b.records.take (i + 1)).flatMap encodeRecord).length =
      ((b.records.take i).flatMap encodeRecord).length + b.records[i].length + 4 ∧
    16 + ((b.records.take (i + 1)).flatMap encodeRecord).length ≤ b.length := by
  have htake : b.records.take (i + 1) = b.records.take i ++ [b.records[i]] :=
    take_succ_eq_append_getElem hi
  constructor
  · rw [htake, flatMap_append, length_append, flatMap_singleton, encodeRecord,
      length_append, length_leBytes]
    omega
  · have hall : b.records.flatMap encodeRecord = (b.records.take (i + 1)).flatMap encodeRecord ++
        (b.records.drop (i + 1)).flatMap encodeRecord := by
      rw [← flatMap_append, take_append_drop]
    rw [length, hall, length_append]
    omega

theorem u32At_frame (h : b.length < 2 ^ 32) {i : Nat} (hi : i < b.records.length) :
    u32At b.frame (20 + ((b.records.take i).flatMap encodeRecord).length) =
      b.records[i].length := by
  obtain ⟨front, rest, hframe, hfront⟩ := frame_split hi
  obtain ⟨hlen, hlt⟩ := length_take_succ hi
  rw [hframe, ← hfront]
  exact u32At_append (by omega)

theorem pointerStep_iterate (h : b.length < 2 ^ 32) {i : Nat} (hi : i ≤ b.records.length) :
    ((pointerStep b.frame)^[i] (0, 4)).2 =
      4 + ((b.records.take i).flatMap encodeRecord).length := by
  induction i with
  | zero => simp
  | succ i ih =>
    have hi' : i < b.records.length := hi
    obtain ⟨hlen, hlt⟩ := length_take_succ hi'
    have hat := u32At_frame h hi'
    rw [Function.iterate_succ_apply', pointerStep, ih hi'.le]
    simp only
    rw [show 20 + (4 + ((b.records.take i).flatMap encodeRecord).length) - 4 =
      20 + ((b.records.take i).flatMap encodeRecord).length by omega, hat,
      Nat.mod_eq_of_lt (by omega)]
    omega

theorem lengthStep_iterate (h : b.length < 2 ^ 32) {i : Nat} (hi : i ≤ b.records.length) :
    ((lengthStep b.frame)^[i] (0, 0)).2 =
      ((b.records.take i).flatMap encodeRecord).length := by
  induction i with
  | zero => simp
  | succ i ih =>
    have hi' : i < b.records.length := hi
    obtain ⟨hlen, hlt⟩ := length_take_succ hi'
    rw [Function.iterate_succ_apply', lengthStep, ih hi'.le]
    simp only
    rw [u32At_frame h hi', Nat.mod_eq_of_lt (by omega)]
    omega

theorem record_frame (h : b.length < 2 ^ 32) {i : Nat} (hi : i < b.records.length) :
    record b.frame i = b.records[i] := by
  have hptr : recordPointer b.frame i =
      20 + ((b.records.take i).flatMap encodeRecord).length + 4 := by
    rw [recordPointer, Function.iterate_succ_apply', pointerStep, pointerStep_iterate h hi.le]
    simp only
    omega
  have hlen : recordLength b.frame i = b.records[i].length := by
    rw [recordLength, Function.iterate_succ_apply', lengthStep, lengthStep_iterate h hi.le]
    exact u32At_frame h hi
  obtain ⟨front, rest, hframe, hfront⟩ := frame_split hi
  rw [record, hptr, hlen, hframe, ← hfront, ← append_assoc,
    drop_left' (by simp), take_left]

theorem length_records_le (b : Body) : b.records.length ≤ b.length := by
  have : b.records.length ≤ (b.records.flatMap encodeRecord).length := by
    induction b.records with
    | nil => simp
    | cons record records ih =>
      rw [flatMap_cons, length_append, encodeRecord, length_append, length_leBytes,
        length_cons]
      omega
  rw [length]
  omega

/-- The accessors give back what was appended. -/
theorem view_frame (h : b.length < 2 ^ 32) :
    view b.frame = ⟨b.frame, b.type, b.operater, b.records.length, b.records⟩ := by
  have hcount : recordCount b.frame = b.records.length := by
    have hle := b.length_records_le
    have hfront : b.frame = (leBytes 4 b.length ++ ([0x02, b.type, b.operater] ++ [0, 0, 0, 0, 0] ++
        leBytes 4 b.timestamp)) ++ (leBytes 4 b.records.length ++
        b.records.flatMap encodeRecord) := by
      rw [frame_eq, header]
      simp only [append_assoc]
    rw [recordCount, hfront]
    exact u32At_append (by omega)
  have htype : binlogType b.frame = b.type := by
    rw [binlogType, frame_eq, header]
    rfl
  have hoper : binlogOperator b.frame = b.operater := by
    rw [binlogOperator, frame_eq, header]
    rfl
  rw [view, hcount, htype, hoper]
  congr 1
  apply ext_getElem
  · simp
  · intro i h₁ h₂
    rw [getElem_map, getElem_range, record_frame h h₂]

end Body

/-- `BinlogReader::Read`: the bytes of the frame. Four bytes that are no fitting length stay
consumed. -/
def readBinlog (r : LogReader) (files : Files) : Option Bytes × LogReader :=
  match r.read files 4 with
  | (none, r) => (none, r)
  | (some head, r) =>
    if ofLeBytes head < 8 ∨ 2 ^ 20 ≤ ofLeBytes head then (none, r)
    else
      match r.read files (ofLeBytes head) with
      | (none, r) => (none, r)
      | (some bytes, r) => (some (head ++ bytes), r)

variable {r : LogReader} {files : Files} {serial : UInt32} {front rest : Bytes} {b : Body}

theorem read_front {bytes : Bytes} (hfd : r.fd = some (serial, front.length))
    (hcontent : files.content serial = front ++ (bytes ++ rest)) :
    r.read files bytes.length = (some bytes, { r with
      fd := some (serial, (front ++ bytes).length), curOffset := r.curOffset + bytes.length }) := by
  rw [LogReader.read_of_le hfd (by simp [hcontent]), hcontent, drop_left, take_left,
    length_append]

/-- A frame at the position of the reader. -/
theorem readBinlog_frame (h : b.length < 2 ^ 20) (hfd : r.fd = some (serial, front.length))
    (hcontent : files.content serial = front ++ (b.frame ++ rest)) :
    readBinlog r files = (some b.frame, { r with
      fd := some (serial, (front ++ b.frame).length)
      curOffset := r.curOffset + 4 + b.length }) := by
  have hframe := b.frame_eq
  generalize hbody : b.header ++ b.records.flatMap encodeRecord = body at hframe
  have hlen : body.length = b.length := by
    rw [← hbody, length_append, Body.length_header, Body.length]
  rw [hframe, append_assoc] at hcontent
  have hhead := read_front hfd hcontent
  rw [length_leBytes] at hhead
  have hval : ofLeBytes (leBytes 4 b.length) = b.length := by
    rw [ofLeBytes_leBytes, Nat.mod_eq_of_lt (by omega)]
  rw [← append_assoc] at hcontent
  have hbytes := read_front (r := { r with
    fd := some (serial, (front ++ leBytes 4 b.length).length), curOffset := r.curOffset + 4 })
    rfl hcontent
  rw [hlen] at hbytes
  have hmin : 16 ≤ b.length := Nat.le_add_right _ _
  simp only [readBinlog, hhead, hval]
  rw [if_neg (by omega)]
  simp only [hbytes]
  rw [hframe, append_assoc]

/-- A frame of a megabyte is not read, but its length is consumed. -/
theorem readBinlog_long (h : 2 ^ 20 ≤ b.length) (h' : b.length < 2 ^ 32)
    (hfd : r.fd = some (serial, front.length))
    (hcontent : files.content serial = front ++ (b.frame ++ rest)) :
    (readBinlog r files).1 = none := by
  rw [b.frame_eq, append_assoc] at hcontent
  have hhead := read_front hfd hcontent
  rw [length_leBytes] at hhead
  have hval : ofLeBytes (leBytes 4 b.length) = b.length := by
    rw [ofLeBytes_leBytes, Nat.mod_eq_of_lt (by omega)]
  simp only [readBinlog, hhead, hval]
  rw [if_pos (Or.inr h)]

end ISearch.BinLog

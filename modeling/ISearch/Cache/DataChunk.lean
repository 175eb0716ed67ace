import Mathlib.Data.Fin.Basic
import ISearch.Lib.Bytes

/-!
# Headers of data chunks (`data_chunk.h`)

A chunk is a raw node or the root of a tree. `DataChunk` tells them apart by the type byte, whose
top bit is the index of the table definition. `Key` masks that bit, the other accessors do not, so a
raw node of table definition 1 is read with the layout of a root.
-/

namespace ISearch.DataChunk

abbrev Bytes := List UInt8

/-- `DATA_TYPE_RAW` and `DATA_TYPE_TREE_ROOT`. -/
def dataTypeRaw : UInt8 := 0
def dataTypeTreeRoot : UInt8 := 1

/-! ## Layouts -/

/-- The first field of a packed structure, and what follows it. -/
def getField (n : Nat) (mem : Bytes) : Nat × Bytes := (ofLeBytes (mem.take n), mem.drop n)

@[simp] theorem getField_leBytes (n w : Nat) (mem : Bytes) :
    getField n (leBytes n w ++ mem) = (w % 256 ^ n, mem) := by
  rw [getField, List.take_left' (length_leBytes n w), List.drop_left' (length_leBytes n w),
    ofLeBytes_leBytes]

/-- `RawFormat`. The key is followed by the rows. -/
structure RawFormat where
  uchDataType : UInt8
  uiDataSize : UInt32
  uiRowCnt : UInt32
  uchGetCount : UInt8
  lastAccessHour : UInt16
  lastUpdateHour : UInt16
  createHour : UInt16
  achKey : Bytes
  deriving DecidableEq

structure RootData where
  uchDataType : UInt8
  treeSize : UInt32
  uiTotalRawSize : UInt32
  uiNodeCnts : UInt32
  uiRowCnt : UInt32
  uchGetCount : UInt8
  lastAccessHour : UInt16
  lastUpdateHour : UInt16
  createHour : UInt16
  hRoot : UInt64
  achKey : Bytes
  deriving DecidableEq

namespace RawFormat

/-- `sizeof(RawFormat)`. -/
def size : Nat := 16

def bytes (f : RawFormat) : Bytes :=
  leBytes 1 f.uchDataType.toNat ++ (leBytes 4 f.uiDataSize.toNat ++ (leBytes 4 f.uiRowCnt.toNat ++
    (leBytes 1 f.uchGetCount.toNat ++ (leBytes 2 f.lastAccessHour.toNat ++
      (leBytes 2 f.lastUpdateHour.toNat ++ (leBytes 2 f.createHour.toNat ++ f.achKey))))))

/-- `(RawFormat *)this`. -/
def ofBytes (mem : Bytes) : RawFormat :=
  let (uchDataType, mem) := getField 1 mem
  let (uiDataSize, mem) := getField 4 mem
  let (uiRowCnt, mem) := getField 4 mem
  let (uchGetCount, mem) := getField 1 mem
  let (lastAccessHour, mem) := getField 2 mem
  let (lastUpdateHour, mem) := getField 2 mem
  let (createHour, mem) := getField 2 mem
  ⟨.ofNat uchDataType, .ofNat uiDataSize, .ofNat uiRowCnt, .ofNat uchGetCount,
    .ofNat lastAccessHour, .ofNat lastUpdateHour, .ofNat createHour, mem⟩

@[simp] theorem ofBytes_bytes (f : RawFormat) : ofBytes f.bytes = f := by
  simp [ofBytes, bytes]

end RawFormat

namespace RootData

/-- `sizeof(RootData)`. -/
def size : Nat := 32

def bytes (d : RootData) : Bytes :=
  leBytes 1 d.uchDataType.toNat ++
    (leBytes 4 d.treeSize.toNat ++ (leBytes 4 d.uiTotalRawSize.toNat ++
    (leBytes 4 d.uiNodeCnts.toNat ++
      (leBytes 4 d.uiRowCnt.toNat ++ (leBytes 1 d.uchGetCount.toNat ++
      (leBytes 2 d.lastAccessHour.toNat ++ (leBytes 2 d.lastUpdateHour.toNat ++
        (leBytes 2 d.createHour.toNat ++ (leBytes 8 d.hRoot.toNat ++ d.achKey)))))))))

/-- `(RootData *)this`. -/
def ofBytes (mem : Bytes) : RootData :=
  let (uchDataType, mem) := getField 1 mem
  let (treeSize, mem) := getField 4 mem
  let (uiTotalRawSize, mem) := getField 4 mem
  let (uiNodeCnts, mem) := getField 4 mem
  let (uiRowCnt, mem) := getField 4 mem
  let (uchGetCount, mem) := getField 1 mem
  let (lastAccessHour, mem) := getField 2 mem
  let (lastUpdateHour, mem) := getField 2 mem
  let (createHour, mem) := getField 2 mem
  let (hRoot, mem) := getField 8 mem
  ⟨.ofNat uchDataType, .ofNat treeSize, .ofNat uiTotalRawSize, .ofNat uiNodeCnts, .ofNat uiRowCnt,
    .ofNat uchGetCount, .ofNat lastAccessHour, .ofNat lastUpdateHour, .ofNat createHour,
    .ofNat hRoot, mem⟩

@[simp] theorem ofBytes_bytes (d : RootData) : ofBytes d.bytes = d := by
  simp [ofBytes, bytes]

end RootData

section Accessors

variable (mem : Bytes)

/-- `m_uchDataType == DATA_TYPE_RAW`. -/
def isRaw : Bool := (RawFormat.ofBytes mem).uchDataType == dataTypeRaw

/-- `Key`: the bytes from the pointer on. -/
def Key : Option Bytes :=
  let uchDataType := (RawFormat.ofBytes mem).uchDataType
  if uchDataType &&& 0x7f = dataTypeRaw then some (RawFormat.ofBytes mem).achKey
  else if uchDataType &&& 0x7f = dataTypeTreeRoot then some (RootData.ofBytes mem).achKey
  else none

def headSize : Nat := if isRaw mem then RawFormat.size else RootData.size

def totalRows : UInt32 :=
  if isRaw mem then (RawFormat.ofBytes mem).uiRowCnt else (RootData.ofBytes mem).uiRowCnt

/-- The times of a tree are not known. -/
def createTime : UInt16 := if isRaw mem then (RawFormat.ofBytes mem).createHour else 0

def lastAccessTime : UInt16 := if isRaw mem then (RawFormat.ofBytes mem).lastAccessHour else 0

def lastUpdateTime : UInt16 := if isRaw mem then (RawFormat.ofBytes mem).lastUpdateHour else 0

/-- `RawData::get_select_op_count` after `RawData::Attach`, which takes raw nodes only. A
`DataChunk` has no accessor for it. -/
def selectOpCount : Option UInt8 :=
  if (RawFormat.ofBytes mem).uchDataType &&& 0x7f = dataTypeRaw then
    some (RawFormat.ofBytes mem).uchGetCount
  else none

end Accessors

/-- The type byte: `(m_iTableIdx << 7) & 0x80` is the lowest bit of the index, moved up. -/
def dataType (iTableIdx : Int) (type : UInt8) : UInt8 :=
  (if iTableIdx % 2 = 0 then 0 else 0x80) + type

/-- A node, by the format that owns it, with the index in its type byte. -/
inductive Node where
  | raw (tableIdx : Fin 2) (f : RawFormat)
  | tree (tableIdx : Fin 2) (d : RootData)

namespace Node

def memory : Node → Bytes
  | raw tableIdx f => { f with uchDataType := dataType tableIdx dataTypeRaw }.bytes
  | tree tableIdx d => { d with uchDataType := dataType tableIdx dataTypeTreeRoot }.bytes

/-- The times that a format keeps. `TreeData::Init` leaves those of a root as the memory has them.
-/
def times : Node → UInt16 × UInt16 × UInt16
  | raw _ f => (f.createHour, f.lastAccessHour, f.lastUpdateHour)
  | tree _ d => (d.createHour, d.lastAccessHour, d.lastUpdateHour)

def achKey : Node → Bytes
  | raw _ f => f.achKey
  | tree _ d => d.achKey

def uiRowCnt : Node → UInt32
  | raw _ f => f.uiRowCnt
  | tree _ d => d.uiRowCnt

/-- The header without the key. -/
def size : Node → Nat
  | raw _ _ => RawFormat.size
  | tree _ _ => RootData.size

/-- Only raw nodes are asked for the count. -/
def getCount : Node → Option UInt8
  | raw _ f => some f.uchGetCount
  | tree _ _ => none

end Node

/-! ## What the accessors return -/

/-- The accessors return what the owning format stores. -/
structure Agrees (node : Node) : Prop where
  key : Key node.memory = some node.achKey
  totalRows : totalRows node.memory = node.uiRowCnt
  createTime : createTime node.memory = node.times.1
  lastAccessTime : lastAccessTime node.memory = node.times.2.1
  lastUpdateTime : lastUpdateTime node.memory = node.times.2.2
  selectOpCount : selectOpCount node.memory = node.getCount
  headSize : headSize node.memory = node.size

/-- A raw node of table definition 0, or a root without times. -/
def Node.Readable : Node → Prop
  | raw tableIdx _ => tableIdx = 0
  | tree _ d => d.createHour = 0 ∧ d.lastAccessHour = 0 ∧ d.lastUpdateHour = 0

@[simp] theorem ofBytes_raw (tableIdx : Fin 2) (f : RawFormat) :
    RawFormat.ofBytes (Node.raw tableIdx f).memory =
      { f with uchDataType := dataType tableIdx dataTypeRaw } :=
  RawFormat.ofBytes_bytes _

@[simp] theorem ofBytes_tree (tableIdx : Fin 2) (d : RootData) :
    RootData.ofBytes (Node.tree tableIdx d).memory =
      { d with uchDataType := dataType tableIdx dataTypeTreeRoot } :=
  RootData.ofBytes_bytes _

/-- Both layouts begin with the type byte. -/
@[simp] theorem uchDataType_tree (tableIdx : Fin 2) (d : RootData) :
    (RawFormat.ofBytes (Node.tree tableIdx d).memory).uchDataType =
      dataType tableIdx dataTypeTreeRoot := by
  simp [RawFormat.ofBytes, RootData.bytes, Node.memory]

theorem isRaw_raw (tableIdx : Fin 2) (f : RawFormat) :
    isRaw (Node.raw tableIdx f).memory = true ↔ tableIdx = 0 := by
  rw [isRaw, ofBytes_raw]
  dsimp only
  revert tableIdx
  decide

theorem isRaw_tree (tableIdx : Fin 2) (d : RootData) :
    isRaw (Node.tree tableIdx d).memory = false := by
  rw [isRaw, uchDataType_tree]
  revert tableIdx
  decide

theorem dataType_raw_and (tableIdx : Fin 2) :
    dataType tableIdx dataTypeRaw &&& 0x7f = dataTypeRaw := by
  revert tableIdx
  decide

theorem dataType_tree_and (tableIdx : Fin 2) :
    dataType tableIdx dataTypeTreeRoot &&& 0x7f = dataTypeTreeRoot := by
  revert tableIdx
  decide

theorem agrees_tree (tableIdx : Fin 2) {d : RootData} (h : (Node.tree tableIdx d).Readable) :
    Agrees (.tree tableIdx d) := by
  have hraw := isRaw_tree tableIdx d
  have hne : dataTypeTreeRoot ≠ dataTypeRaw := by decide
  obtain ⟨hcreate, haccess, hupdate⟩ := h
  constructor
  case key =>
    simp only [Key, uchDataType_tree, dataType_tree_and, if_neg hne, ofBytes_tree, if_true,
      Node.achKey]
  case selectOpCount =>
    simp only [selectOpCount, uchDataType_tree, dataType_tree_and, if_neg hne, Node.getCount]
  all_goals simp [totalRows, createTime, lastAccessTime, lastUpdateTime, headSize, hraw,
    Node.uiRowCnt, Node.times, Node.size, hcreate, haccess, hupdate]

theorem agrees_raw_zero (f : RawFormat) : Agrees (.raw 0 f) := by
  have hraw := (isRaw_raw 0 f).mpr rfl
  constructor
  case key => simp only [Key, ofBytes_raw, dataType_raw_and, if_true, Node.achKey]
  case selectOpCount =>
    simp only [selectOpCount, ofBytes_raw, dataType_raw_and, if_true, Node.getCount]
  all_goals simp [totalRows, createTime, lastAccessTime, lastUpdateTime, headSize, hraw,
    Node.uiRowCnt, Node.times, Node.size]

/-- The accessors agree with the raw nodes of table definition 0 and the roots without times. The
head of another raw node alone has another size. -/
theorem agrees_iff (node : Node) : Agrees node ↔ node.Readable := by
  cases node with
  | tree tableIdx d =>
    refine ⟨fun h => ?_, agrees_tree tableIdx⟩
    have hraw := isRaw_tree tableIdx d
    have hcreate := h.createTime
    have haccess := h.lastAccessTime
    have hupdate := h.lastUpdateTime
    simp only [createTime, lastAccessTime, lastUpdateTime, hraw, Bool.false_eq_true, if_false]
      at hcreate haccess hupdate
    exact ⟨hcreate.symm, haccess.symm, hupdate.symm⟩
  | raw tableIdx f =>
    refine ⟨fun h => ?_, ?_⟩
    · by_contra hne
      have hraw : isRaw (Node.raw tableIdx f).memory = false := by
        rw [← Bool.not_eq_true, isRaw_raw]
        exact hne
      have hsize := h.headSize
      rw [headSize, hraw] at hsize
      exact absurd hsize (by decide : RootData.size ≠ RawFormat.size)
    · rintro rfl
      exact agrees_raw_zero f

/-- A raw node just made under table definition 1, with the four bytes of the key 7. -/
def expandedRaw : Node := .raw 1 ⟨0x80, 20, 0, 1, 1000, 1000, 1000, [7, 0, 0, 0]⟩

/-- Its number of rows is read from the times and the key. -/
theorem not_agrees_expandedRaw : ¬Agrees expandedRaw := by
  intro h
  have hrows := h.totalRows
  revert hrows
  decide

end ISearch.DataChunk

import Mathlib.Data.List.Lex
import Mathlib.Data.Prod.Lex
import ISearch.KeyFormat.Defs
import ISearch.Lib.Heap

/-!
# Sorted pages (`order_op.h`, `max_heap.h`)

`COrderOp` sorts the documents by a score field and returns one page. Without an extra filter a
bounded heap selects the entries of the page; with one, all entries go through a `std::set`. A page
is given by a start and a length, or it begins behind the last entry of the page before
(`search_after`).

Scores of type double are left out. The response is the list of its entries.
-/

namespace ISearch.OrderOp

open KeyFormat (Bytes isSpace)
open Heap

/-- `FIELDTYPE_INT` and `FIELDTYPE_STRING`. -/
inductive FieldType where
  | int
  | string
  deriving DecidableEq, Repr

/-- `SORT_FIELD_ASC`, and the other sort types. -/
inductive SortType where
  | asc
  | desc
  deriving DecidableEq, Repr

/-- The type `T` of the scores. An `int` is any integer here. -/
def FieldType.Score : FieldType → Type
  | .int => Int
  | .string => Bytes

instance : (ft : FieldType) → LinearOrder ft.Score
  | .int => inferInstanceAs (LinearOrder Int)
  | .string => inferInstanceAs (LinearOrder Bytes)

instance : (ft : FieldType) → Inhabited ft.Score
  | .int => inferInstanceAs (Inhabited Int)
  | .string => inferInstanceAs (Inhabited Bytes)

/-- `lexical_cast<std::string, std::string>`: the stream reads one word, and nothing but white space
may follow it. -/
def lexicalCast (arg : Bytes) : Bytes :=
  let rest := arg.dropWhile isSpace
  if (rest.dropWhile fun c => !isSpace c).all isSpace then rest.takeWhile fun c => !isSpace c else []

/-- `lexical_cast<uint64_t, int>`: a minus sign negates the number. -/
def lexicalCastU64 (arg : Int) : Nat := (arg % 2 ^ 64).toNat

structure DocIdEntry (ft : FieldType) where
  docId : Bytes
  score : ft.Score
  deriving DecidableEq, Inhabited

namespace DocIdEntry

variable {ft : FieldType}

/-- The score as `operator<` compares it. -/
def castScore : (ft : FieldType) → ft.Score → ft.Score
  | .int, score => score
  | .string, score => lexicalCast score

/-- `operator<` for a sort type. -/
def less (sortType : SortType) (e other : DocIdEntry ft) : Bool :=
  let lhs := castScore ft e.score
  let rhs := castScore ft other.score
  match sortType with
  | .asc => if lhs = rhs then e.docId < other.docId else lhs < rhs
  | .desc => if lhs = rhs then e.docId > other.docId else lhs > rhs

/-- `operator==`. -/
def same : {ft : FieldType} → DocIdEntry ft → DocIdEntry ft → Bool
  | .int, e, other => lexicalCastU64 e.score = lexicalCastU64 other.score
  | .string, e, other => lexicalCast e.score = lexicalCast other.score

end DocIdEntry

section Heap

variable {ft : FieldType} (sortType : SortType)

/-- The test that ends the loop of `downAdjust`. -/
def stop (child parent : DocIdEntry ft) : Bool := child.less sortType parent || child.same parent

def downAdjust (v : List (DocIdEntry ft)) (index : Nat) : List (DocIdEntry ft) :=
  siftDown (·.less sortType ·) (stop sortType) v[index]! v.length v index

/-- `buildMaxHeap`. For a single entry `(v.size() - 2) / 2` is `-1` as an `int`. -/
def buildMaxHeap (v : List (DocIdEntry ft)) : List (DocIdEntry ft) :=
  build (downAdjust sortType) (v.length / 2) v

def emplacePeek (v : List (DocIdEntry ft)) (val : DocIdEntry ft) : List (DocIdEntry ft) :=
  downAdjust sortType (v.set 0 val) 0

/-- The first loop of `getNumbers`. -/
def fill (keep : DocIdEntry ft → Bool) (k : Nat) :
    List (DocIdEntry ft) → List (DocIdEntry ft) → List (DocIdEntry ft)
  | maxHeapVec, [] => maxHeapVec
  | maxHeapVec, e :: arr =>
    let maxHeapVec := if keep e then maxHeapVec ++ [e] else maxHeapVec
    if maxHeapVec.length ≥ k then maxHeapVec else fill keep k maxHeapVec arr

/-- The second loop of `getNumbers`. -/
def replace (keep : DocIdEntry ft → Bool) (maxHeapVec arr : List (DocIdEntry ft)) :
    List (DocIdEntry ft) :=
  arr.foldl (fun maxHeapVec e =>
    if e.less sortType maxHeapVec[0]! && keep e then emplacePeek sortType maxHeapVec e
    else maxHeapVec) maxHeapVec

/-- `getNumbers`, for the entries to keep. The second loop begins at index `k`. -/
def getNumbersWhere (keep : DocIdEntry ft → Bool) (arr : List (DocIdEntry ft)) (k : Nat) :
    List (DocIdEntry ft) :=
  if k = 0 then []
  else
    let maxHeapVec := fill keep k [] arr
    if maxHeapVec = [] then []
    else replace sortType keep (buildMaxHeap sortType maxHeapVec) (arr.drop k)

def getNumbers (arr : List (DocIdEntry ft)) (k : Nat) : List (DocIdEntry ft) :=
  getNumbersWhere sortType (fun _ => true) arr k

def getNumbersAfter (arr : List (DocIdEntry ft)) (lastValue : DocIdEntry ft) (k : Nat) :
    List (DocIdEntry ft) :=
  getNumbersWhere sortType (fun e => lastValue.less sortType e) arr k

end Heap

/-- `std::map<std::string, T>`. -/
structure ScoreMap (ft : FieldType) where
  entries : List (DocIdEntry ft)
  sorted : SortedBy (·.docId) entries

/-- `OrderOpCond`. The filter is `CheckDocByExtraFilterKey`, where there is one. -/
structure OrderOpCond where
  limitStart : UInt32
  count : UInt32
  extraFilter : Option (Bytes → Bool)

section Process

variable {ft : FieldType} (sortType : SortType)

/-- `std::set::insert`. -/
def insertEntry (e : DocIdEntry ft) : List (DocIdEntry ft) → List (DocIdEntry ft)
  | [] => [e]
  | x :: xs =>
    if e.less sortType x then e :: x :: xs
    else if x.less sortType e then x :: insertEntry e xs
    else x :: xs

/-- `std::sort` by `operator<`. -/
def sortEntries (l : List (DocIdEntry ft)) : List (DocIdEntry ft) :=
  l.mergeSort fun e other => !other.less sortType e

/-- The loops over the entries of a page; `sequence` is the place of the last entry that the filter
let through. -/
def pageLoop (check : Bytes → Bool) (first last : Int) :
    Int → List (DocIdEntry ft) → List (DocIdEntry ft)
  | _, [] => []
  | sequence, e :: es =>
    if !check e.docId then pageLoop check first last sequence es
    else if sequence + 1 < first then pageLoop check first last (sequence + 1) es
    else if sequence + 1 > last then []
    else e :: pageLoop check first last (sequence + 1) es

/-- `ProcessSearchAfter` on the set, from where `upper_bound` points to. -/
def afterLoop (check : Bytes → Bool) : Nat → List (DocIdEntry ft) → List (DocIdEntry ft)
  | 0, _ => []
  | _ + 1, [] => []
  | c + 1, e :: es =>
    if !check e.docId then afterLoop check (c + 1) es else e :: afterLoop check c es

/-- `Process`. With `search_after`, `last` is the entry to begin behind. -/
def process (scoreMap : ScoreMap ft) (last : Option (DocIdEntry ft)) (cond : OrderOpCond) :
    List (DocIdEntry ft) :=
  let first := cond.limitStart.toInt32.toInt
  let final := (cond.limitStart + cond.count - 1).toInt32.toInt
  match cond.extraFilter, last with
  | some check, some last =>
    let scoreSet := scoreMap.entries.foldl (fun s e => insertEntry sortType e s) []
    afterLoop check cond.count.toInt32.toInt.toNat
      (scoreSet.dropWhile fun e => !last.less sortType e)
  | some check, none =>
    let scoreSet := scoreMap.entries.foldl (fun s e => insertEntry sortType e s) []
    pageLoop check first final (-1) scoreSet
  | none, some last =>
    let count := cond.count.toInt32.toInt.toNat
    (sortEntries sortType (getNumbersAfter sortType scoreMap.entries last count)).take count
  | none, none =>
    let res := getNumbers sortType scoreMap.entries
      (cond.limitStart + cond.count).toInt32.toInt.toNat
    pageLoop (fun _ => true) first final (-1) (sortEntries sortType res)

end Process

end ISearch.OrderOp

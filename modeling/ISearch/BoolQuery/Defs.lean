import ISearch.Lib.SetAlgo
import Mathlib.Data.List.Lex
import Mathlib.Data.Prod.Lex
import Mathlib.Data.Finset.Sort

/-!
# Boolean queries (`bool_query_process.cc`, `result_context.cc`)

A bool query has clauses of three kinds, kept in the lists of `RequestContext`. `GetValidDoc`
looks up each clause, in the order of the enumeration `KeyType`, and combines the entries found
with the running result in `ResultContext`.

The lookups of the query processes (`TextInvertIndexSearch` and its siblings) read the index; here
each is a parameter that returns an error code or a set of entries.
-/

namespace ISearch.BoolQuery

/-- `IndexInfo`, without the distance that only geo queries fill in. -/
structure IndexInfo where
  appid : UInt32 := 0
  docId : List UInt8
  docVersion : UInt32 := 0
  field : UInt32 := 0
  wordFreq : UInt32 := 0
  createdTime : UInt32 := 0
  pos : List UInt8 := []
  extend : List UInt8 := []
  deriving DecidableEq, Repr

/-- The entry an index row stands for: document and version, in the order of
`IndexInfo::operator<`. -/
def IndexInfo.key (a : IndexInfo) : List Nat ×ₗ Nat :=
  toLex (a.docId.map UInt8.toNat, a.docVersion.toNat)

/-- The entries of one lookup: no document version occurs twice. -/
structure EntrySet where
  vet : List IndexInfo
  nodup : (vet.map IndexInfo.key).Nodup

inductive KeyType where
  | orKey
  | andKey
  | invertKey
  deriving DecidableEq, Repr

/-- `E_INDEX_READ_QUERY_PROCESS`. -/
inductive QueryType where
  | preTerm
  | range
  | geoDistance
  | geoShape
  | match_
  | term
  deriving DecidableEq, Repr

def setOrIndexInfos (indexInfoVet orVet : List IndexInfo) : List IndexInfo :=
  if indexInfoVet = [] then orVet
  else setUnion IndexInfo.key (sortBy IndexInfo.key indexInfoVet) (sortBy IndexInfo.key orVet)

def setAndIndexInfos (indexInfoVet andVet : List IndexInfo) : List IndexInfo :=
  if indexInfoVet = [] then andVet
  else setIntersection IndexInfo.key (sortBy IndexInfo.key indexInfoVet)
    (sortBy IndexInfo.key andVet)

def setInvertIndexInfos (indexInfoVet invertVet : List IndexInfo) : List IndexInfo :=
  if indexInfoVet = [] then invertVet
  else setDifference IndexInfo.key (sortBy IndexInfo.key indexInfoVet)
    (sortBy IndexInfo.key invertVet)

def setIndexInfos (logicType : KeyType) (indexInfoVet vet : List IndexInfo) : List IndexInfo :=
  match logicType with
  | .orKey => setOrIndexInfos indexInfoVet vet
  | .andKey => setAndIndexInfos indexInfoVet vet
  | .invertKey => setInvertIndexInfos indexInfoVet vet

variable {F : Type}

/-- A parsed bool query: the clause lists of its `RequestContext` over field infos `F`, the bit
set of query types, the lookup of each query process, and the return value of the paged scan that
`PreTerminal::GetValidDoc` does instead of lookups. -/
structure BoolQueryProcess (F : Type) where
  getFieldList : KeyType → List (List F)
  queryType : F → QueryType
  queryBitset : QueryType → Bool
  search : KeyType → List F → Except Int EntrySet
  preTerminal : Int

namespace BoolQueryProcess

/-- `query_process_map_[query_type]->GetValidDoc(logic_type, keys)`. The one of `PreTerminal` does
nothing. -/
def processClause (q : BoolQueryProcess F) (type : QueryType) (logicType : KeyType) (keys : List F)
    (indexInfoVet : List IndexInfo) : Int × List IndexInfo :=
  if type = .preTerm then (0, indexInfoVet)
  else match q.search logicType keys with
    | .error iret => (iret, indexInfoVet)
    | .ok vet => (0, setIndexInfos logicType indexInfoVet vet.vet)

/-- The loop of `GetValidDoc` over clauses. -/
def clauseLoop (q : BoolQueryProcess F) :
    List (KeyType × List F) → List IndexInfo → Int × List IndexInfo
  | [], vet => (0, vet)
  | (_, []) :: rest, vet => q.clauseLoop rest vet
  | (logicType, f :: keys) :: rest, vet =>
    if q.queryBitset (q.queryType f) = false then (-1, vet)
    else q.clauseLoop rest (q.processClause (q.queryType f) logicType (f :: keys) vet).2

/-- The clauses in the order in which they are processed. -/
def clauses (q : BoolQueryProcess F) : List (KeyType × List F) :=
  (q.getFieldList .orKey).map (.orKey, ·) ++ (q.getFieldList .andKey).map (.andKey, ·) ++
    (q.getFieldList .invertKey).map (.invertKey, ·)

/-- `GetValidDoc`: the return value and the result left in `ResultContext`. -/
def getValidDoc (q : BoolQueryProcess F) : Int × List IndexInfo :=
  if q.queryBitset .preTerm && q.queryBitset .term then (q.preTerminal, [])
  else q.clauseLoop q.clauses []

end BoolQueryProcess

end ISearch.BoolQuery

import Mathlib.Algebra.Order.BigOperators.Group.List
import ISearch.Lib.Wire
import ISearch.KeyFormat.Defs

/-!
# The messages of direct queries (`rocksdb_direct_context.h`)

A request is a range query, the registration of a replica or a question for the state of the
replication. Numbers are copied as the host has them, little-endian; the numbers of conditions and
of order-by fields take one byte, lengths an `int`.

`none` stands for a read past the end of the message and for a negative length, which
`std::string::assign` refuses.
-/

namespace ISearch.DirectQuery

open Option
open KeyFormat (Bytes)

structure QueryCond where
  fieldIndex : UInt8
  condOpr : UInt8
  condValue : Bytes
  deriving DecidableEq

structure LimitCond where
  limitStart : Int32
  limitStep : Int32
  deriving DecidableEq

structure RangeQuery where
  fieldConds : List QueryCond
  orderbyFields : List (Int32 × Bool)
  limitCond : LimitCond
  deriving DecidableEq

structure ReplicationQuery where
  masterIp : Bytes
  masterPort : Int32
  deriving DecidableEq

/-- `sDirectQueryType` with the value of the union that belongs to it. -/
inductive PacketValue where
  | rangeQuery (query : RangeQuery)
  | replicationRegistry (query : ReplicationQuery)
  | replicationStateQuery (placeHolder : UInt64)
  deriving DecidableEq

structure DirectRequestContext where
  magicNum : UInt16
  sequenceId : UInt64
  packetValue : PacketValue
  deriving DecidableEq

/-- The sum of a `size_t` is converted to the `int` that is returned. -/
def QueryCond.binarySize (c : QueryCond) : Int32 := Int32.ofNat (6 + c.condValue.length)

def PacketValue.binarySize : PacketValue → Int32
  | .rangeQuery q =>
    q.orderbyFields.foldl (fun len _ => len + Int32.ofNat 5)
      (q.fieldConds.foldl (fun len c => len + c.binarySize) (Int32.ofNat 13)) + Int32.ofNat 8
  | .replicationRegistry q =>
    Int32.ofNat 11 + Int32.ofNat 4 + Int32.ofNat q.masterIp.length + Int32.ofNat 4
  | .replicationStateQuery _ => Int32.ofNat 11 + Int32.ofNat 8

def DirectRequestContext.binarySize (cxt : DirectRequestContext) : Int32 :=
  cxt.packetValue.binarySize

def putInt (x : Int32) : Bytes := leBytes 4 x.toUInt32.toNat

def QueryCond.serializeTo (c : QueryCond) : Bytes :=
  leBytes 1 c.fieldIndex.toNat ++ leBytes 1 c.condOpr.toNat ++ leBytes 4 c.condValue.length ++
    c.condValue

def orderbyField (f : Int32 × Bool) : Bytes := putInt f.1 ++ leBytes 1 f.2.toNat

def PacketValue.directQueryType : PacketValue → Nat
  | .rangeQuery _ => 1
  | .replicationRegistry _ => 2
  | .replicationStateQuery _ => 3

def PacketValue.serializeTo : PacketValue → Bytes
  | .rangeQuery q =>
    leBytes 1 q.fieldConds.length ++ q.fieldConds.flatMap QueryCond.serializeTo ++
      leBytes 1 q.orderbyFields.length ++ q.orderbyFields.flatMap orderbyField ++
      putInt q.limitCond.limitStart ++ putInt q.limitCond.limitStep
  | .replicationRegistry q => leBytes 4 q.masterIp.length ++ q.masterIp ++ putInt q.masterPort
  | .replicationStateQuery placeHolder => leBytes 8 placeHolder.toNat

def DirectRequestContext.serializeTo (cxt : DirectRequestContext) : Bytes :=
  leBytes 2 cxt.magicNum.toNat ++ leBytes 8 cxt.sequenceId.toNat ++
    leBytes 1 cxt.packetValue.directQueryType ++ cxt.packetValue.serializeTo

def getInt : Reader Int32 := fun data => do
  let (x, data) ← readLe 4 data
  return ((UInt32.ofNat x).toInt32, data)

/-- A length and as many bytes. -/
def getString : Reader Bytes := fun data => do
  let (len, data) ← getInt data
  if len.toInt < 0 then none else readBytes len.toInt.toNat data

def QueryCond.serializeFrom : Reader QueryCond := fun data => do
  let (fieldIndex, data) ← readLe 1 data
  let (condOpr, data) ← readLe 1 data
  let (condValue, data) ← getString data
  return (⟨UInt8.ofNat fieldIndex, UInt8.ofNat condOpr, condValue⟩, data)

def getOrderbyField : Reader (Int32 × Bool) := fun data => do
  let (first, data) ← getInt data
  let (second, data) ← readLe 1 data
  return ((first, second != 0), data)

def RangeQuery.serializeFrom : Reader RangeQuery := fun data => do
  let (condNum, data) ← readLe 1 data
  let (fieldConds, data) ← readList QueryCond.serializeFrom condNum data
  let (orderNum, data) ← readLe 1 data
  let (orderbyFields, data) ← readList getOrderbyField orderNum data
  let (limitStart, data) ← getInt data
  let (limitStep, data) ← getInt data
  return (⟨fieldConds, orderbyFields, ⟨limitStart, limitStep⟩⟩, data)

def ReplicationQuery.serializeFrom : Reader ReplicationQuery := fun data => do
  let (masterIp, data) ← getString data
  let (masterPort, data) ← getInt data
  return (⟨masterIp, masterPort⟩, data)

/-- The switch over `sDirectQueryType`; other types are refused. -/
def PacketValue.serializeFrom (directQueryType : Nat) : Reader PacketValue := fun data =>
  match directQueryType with
  | 1 => do
    let (q, data) ← RangeQuery.serializeFrom data
    return (.rangeQuery q, data)
  | 2 => do
    let (q, data) ← ReplicationQuery.serializeFrom data
    return (.replicationRegistry q, data)
  | 3 => do
    let (placeHolder, data) ← readLe 8 data
    return (.replicationStateQuery (UInt64.ofNat placeHolder), data)
  | _ => none

/-- The bytes behind the message are not looked at. -/
def DirectRequestContext.serializeFrom (data : Bytes) : Option DirectRequestContext := do
  let (magicNum, data) ← readLe 2 data
  let (sequenceId, data) ← readLe 8 data
  let (directQueryType, data) ← readLe 1 data
  let (packetValue, _) ← PacketValue.serializeFrom directQueryType data
  return ⟨UInt16.ofNat magicNum, UInt64.ofNat sequenceId, packetValue⟩

/-! ## Round trips -/

/-- The bytes that are written for a request. -/
def PacketValue.size : PacketValue → Nat
  | .rangeQuery q =>
    21 + (q.fieldConds.map fun c => 6 + c.condValue.length).sum + 5 * q.orderbyFields.length
  | .replicationRegistry q => 19 + q.masterIp.length
  | .replicationStateQuery _ => 19

theorem foldl_add_ofNat {α : Type} (f : α → Nat) (xs : List α) (n : Nat) :
    xs.foldl (fun len x => len + Int32.ofNat (f x)) (Int32.ofNat n) =
      Int32.ofNat (n + (xs.map f).sum) := by
  induction xs generalizing n with
  | nil => rfl
  | cons x xs ih =>
    rw [List.foldl_cons, ← Int32.ofNat_add, ih, List.map_cons, List.sum_cons, Nat.add_assoc]

theorem PacketValue.binarySize_eq (v : PacketValue) : v.binarySize = Int32.ofNat v.size := by
  cases v with
  | rangeQuery q =>
    have hconds := foldl_add_ofNat (fun c : QueryCond => 6 + c.condValue.length) q.fieldConds 13
    have horder := foldl_add_ofNat (fun _ : Int32 × Bool => 5) q.orderbyFields
      (13 + (q.fieldConds.map fun c => 6 + c.condValue.length).sum)
    have hsum : (q.orderbyFields.map fun _ : Int32 × Bool => 5).sum =
        5 * q.orderbyFields.length := by
      rw [List.map_const', List.sum_replicate_nat, Nat.mul_comm]
    simp only [binarySize, QueryCond.binarySize]
    rw [hconds, horder, ← Int32.ofNat_add, hsum, size]
    congr 1
    omega
  | replicationRegistry q =>
    simp only [binarySize, size, ← Int32.ofNat_add]
    congr 1
    omega
  | replicationStateQuery _ => rfl

theorem PacketValue.length_serializeTo (v : PacketValue) :
    11 + v.serializeTo.length = v.size := by
  cases v with
  | rangeQuery q =>
    have hconds : (q.fieldConds.flatMap QueryCond.serializeTo).length =
        (q.fieldConds.map fun c => 6 + c.condValue.length).sum := by
      rw [List.length_flatMap]
      congr 1
      apply List.map_congr_left
      intro c _
      simp only [QueryCond.serializeTo, List.length_append, length_leBytes]
    have horder : (q.orderbyFields.flatMap orderbyField).length = 5 * q.orderbyFields.length := by
      have hlen : ∀ f : Int32 × Bool, (orderbyField f).length = 5 := fun f => by
        simp only [orderbyField, putInt, List.length_append, length_leBytes]
      rw [List.length_flatMap, List.map_congr_left fun f _ => hlen f, List.map_const',
        List.sum_replicate_nat, Nat.mul_comm]
    simp only [serializeTo, size, List.length_append, length_leBytes, hconds, horder, putInt]
    omega
  | replicationRegistry q =>
    simp only [serializeTo, size, List.length_append, length_leBytes, putInt]
    omega
  | replicationStateQuery _ => simp [serializeTo, size]

theorem DirectRequestContext.length_serializeTo (cxt : DirectRequestContext) :
    cxt.serializeTo.length = cxt.packetValue.size := by
  rw [← cxt.packetValue.length_serializeTo]
  simp only [serializeTo, List.length_append, length_leBytes]

/-- The size is right as long as it is an `int`. -/
theorem DirectRequestContext.binarySize_eq_iff (cxt : DirectRequestContext) :
    (cxt.serializeTo.length : Int) = cxt.binarySize.toInt ↔ cxt.packetValue.size < 2 ^ 31 := by
  rw [cxt.length_serializeTo, binarySize, PacketValue.binarySize_eq]
  constructor
  · intro h
    have hlt := (Int32.ofNat cxt.packetValue.size).toInt_lt
    omega
  · intro h
    rw [Int32.toInt_ofNat_of_lt h]

theorem inverts_getInt (x : Int32) : Inverts getInt putInt x := by
  intro rest
  have hlt : x.toUInt32.toNat < 256 ^ 4 := x.toUInt32.toNat_lt
  simp only [getInt, putInt, readLe_leBytes_of_lt hlt, bind_eq_bind, bind_some,
    UInt32.ofNat_toNat]
  rfl

theorem getString_append {s : Bytes} (hs : s.length < 2 ^ 31) (rest : Bytes) :
    getString (leBytes 4 s.length ++ (s ++ rest)) = some (s, rest) := by
  have hint : leBytes 4 s.length = putInt (Int32.ofNat s.length) := by
    have hlt : s.length < 2 ^ 32 := by omega
    rw [putInt]
    congr 1
    exact (Nat.mod_eq_of_lt hlt).symm
  have hlen : (Int32.ofNat s.length).toInt = s.length := Int32.toInt_ofNat_of_lt hs
  simp only [getString, hint, inverts_getInt _ (s ++ rest), bind_eq_bind, bind_some,
    hlen, Int.toNat_natCast, readBytes_append]
  rw [if_neg (by omega)]

theorem inverts_queryCond {c : QueryCond} (hc : c.condValue.length < 2 ^ 31) :
    Inverts QueryCond.serializeFrom QueryCond.serializeTo c := by
  intro rest
  have hindex : c.fieldIndex.toNat < 256 ^ 1 := c.fieldIndex.toNat_lt
  have hopr : c.condOpr.toNat < 256 ^ 1 := c.condOpr.toNat_lt
  simp only [QueryCond.serializeFrom, QueryCond.serializeTo, List.append_assoc,
    readLe_leBytes_of_lt hindex, readLe_leBytes_of_lt hopr, getString_append hc,
    bind_eq_bind, bind_some, UInt8.ofNat_toNat]
  rfl

theorem inverts_orderbyField (f : Int32 × Bool) : Inverts getOrderbyField orderbyField f := by
  intro rest
  obtain ⟨i, asc⟩ := f
  have hlt : asc.toNat < 256 ^ 1 := lt_of_le_of_lt asc.toNat_le (by decide)
  simp only [getOrderbyField, orderbyField, List.append_assoc, inverts_getInt i _,
    readLe_leBytes_of_lt hlt, bind_eq_bind, bind_some]
  cases asc <;> rfl

/-- The numbers of conditions and of order-by fields are held by their bytes. -/
def PacketValue.Counted : PacketValue → Prop
  | .rangeQuery q => q.fieldConds.length < 256 ∧ q.orderbyFields.length < 256
  | .replicationRegistry _ | .replicationStateQuery _ => True

theorem RangeQuery.counted_of_serializeFrom {data rest : Bytes} {q : RangeQuery}
    (h : RangeQuery.serializeFrom data = some (q, rest)) :
    q.fieldConds.length < 256 ∧ q.orderbyFields.length < 256 := by
  obtain ⟨⟨condNum, data₁⟩, hcondNum, h⟩ := bind_eq_some_iff.mp h
  obtain ⟨⟨fieldConds, data₂⟩, hconds, h⟩ := bind_eq_some_iff.mp h
  obtain ⟨⟨orderNum, data₃⟩, horderNum, h⟩ := bind_eq_some_iff.mp h
  obtain ⟨⟨orderbyFields, data₄⟩, horder, h⟩ := bind_eq_some_iff.mp h
  obtain ⟨⟨limitStart, data₅⟩, -, h⟩ := bind_eq_some_iff.mp h
  obtain ⟨⟨limitStep, data₆⟩, -, h⟩ := bind_eq_some_iff.mp h
  cases h
  exact ⟨length_of_readList hconds ▸ lt_of_readLe hcondNum,
    length_of_readList horder ▸ lt_of_readLe horderNum⟩

theorem PacketValue.counted_of_serializeFrom {type : Nat} {data rest : Bytes} {v : PacketValue}
    (h : PacketValue.serializeFrom type data = some (v, rest)) : v.Counted := by
  unfold PacketValue.serializeFrom at h
  split at h
  · obtain ⟨⟨q, data₁⟩, hq, h⟩ := bind_eq_some_iff.mp h
    cases h
    exact RangeQuery.counted_of_serializeFrom hq
  · obtain ⟨⟨q, data₁⟩, -, h⟩ := bind_eq_some_iff.mp h
    cases h
    trivial
  · obtain ⟨⟨placeHolder, data₁⟩, -, h⟩ := bind_eq_some_iff.mp h
    cases h
    trivial
  · cases h

theorem DirectRequestContext.counted_of_serializeFrom {data : Bytes} {cxt : DirectRequestContext}
    (h : DirectRequestContext.serializeFrom data = some cxt) : cxt.packetValue.Counted := by
  obtain ⟨⟨magicNum, data₁⟩, -, h⟩ := bind_eq_some_iff.mp h
  obtain ⟨⟨sequenceId, data₂⟩, -, h⟩ := bind_eq_some_iff.mp h
  obtain ⟨⟨type, data₃⟩, -, h⟩ := bind_eq_some_iff.mp h
  obtain ⟨⟨v, data₄⟩, hv, h⟩ := bind_eq_some_iff.mp h
  cases h
  exact PacketValue.counted_of_serializeFrom hv

theorem le_sum_of_mem {c : QueryCond} {conds : List QueryCond} (hc : c ∈ conds) :
    c.condValue.length ≤ (conds.map fun c => 6 + c.condValue.length).sum := by
  have hle : 6 + c.condValue.length ≤ (conds.map fun c => 6 + c.condValue.length).sum :=
    List.le_sum_of_mem (List.mem_map.mpr ⟨c, hc, rfl⟩)
  omega

theorem inverts_packetValue {v : PacketValue} (hcounted : v.Counted) (hsize : v.size < 2 ^ 31) :
    Inverts (PacketValue.serializeFrom v.directQueryType) PacketValue.serializeTo v := by
  intro rest
  cases v with
  | rangeQuery q =>
    rw [PacketValue.size] at hsize
    have hcondNum : q.fieldConds.length < 256 ^ 1 := hcounted.1
    have horderNum : q.orderbyFields.length < 256 ^ 1 := hcounted.2
    have hcond : ∀ c ∈ q.fieldConds, Inverts QueryCond.serializeFrom QueryCond.serializeTo c := by
      intro c hc
      have hle := le_sum_of_mem hc
      exact inverts_queryCond (by omega)
    have hconds := readList_flatMap hcond
    have horder := readList_flatMap fun f (_ : f ∈ q.orderbyFields) => inverts_orderbyField f
    simp only [PacketValue.serializeFrom, PacketValue.directQueryType, PacketValue.serializeTo,
      RangeQuery.serializeFrom, List.append_assoc, readLe_leBytes_of_lt hcondNum, hconds,
      readLe_leBytes_of_lt horderNum, horder, inverts_getInt _ _, bind_eq_bind,
      bind_some]
    rfl
  | replicationRegistry q =>
    rw [PacketValue.size] at hsize
    have hip : q.masterIp.length < 2 ^ 31 := by omega
    simp only [PacketValue.serializeFrom, PacketValue.directQueryType, PacketValue.serializeTo,
      ReplicationQuery.serializeFrom, List.append_assoc, getString_append hip, inverts_getInt _ _,
      bind_eq_bind, bind_some]
    rfl
  | replicationStateQuery placeHolder =>
    have hlt : placeHolder.toNat < 256 ^ 8 := placeHolder.toNat_lt
    simp only [PacketValue.serializeFrom, PacketValue.directQueryType, PacketValue.serializeTo,
      readLe_leBytes_of_lt hlt, bind_eq_bind, bind_some, UInt64.ofNat_toNat]
    rfl

/-- A request is written in `binary_size` bytes and read back. -/
def DirectRequestContext.RoundTrip (cxt : DirectRequestContext) : Prop :=
  (cxt.serializeTo.length : Int) = cxt.binarySize.toInt ∧
    DirectRequestContext.serializeFrom cxt.serializeTo = some cxt

theorem DirectRequestContext.roundTrip_iff (cxt : DirectRequestContext) :
    cxt.RoundTrip ↔ cxt.packetValue.Counted ∧ cxt.packetValue.size < 2 ^ 31 := by
  rw [RoundTrip, binarySize_eq_iff]
  constructor
  · rintro ⟨hsize, hfrom⟩
    exact ⟨counted_of_serializeFrom hfrom, hsize⟩
  · rintro ⟨hcounted, hsize⟩
    refine ⟨hsize, ?_⟩
    have hmagic : cxt.magicNum.toNat < 256 ^ 2 := cxt.magicNum.toNat_lt
    have hseq : cxt.sequenceId.toNat < 256 ^ 8 := cxt.sequenceId.toNat_lt
    have htype : cxt.packetValue.directQueryType < 256 ^ 1 := by
      cases cxt.packetValue <;> simp [PacketValue.directQueryType]
    have hpacket := inverts_packetValue hcounted hsize []
    rw [List.append_nil] at hpacket
    simp only [serializeFrom, serializeTo, List.append_assoc, readLe_leBytes_of_lt hmagic,
      readLe_leBytes_of_lt hseq, readLe_leBytes_of_lt htype, hpacket, bind_eq_bind,
      bind_some, UInt16.ofNat_toNat, UInt64.ofNat_toNat]
    rfl

end ISearch.DirectQuery

import ISearch.DirectQuery.Range
import ISearch.DirectQuery.Reply

/-!
# Direct queries from end to end (`uds_client.cc`, `rocksdb_direct_worker.cc`)

The client writes a range query, a worker reads and serves it, and the client reads the reply. The
worker serves one query after another, each on the storage of its time.
-/

namespace ISearch.DirectQuery

open Option (bind_eq_bind bind_eq_some_iff pure_def bind_some)
open KeyFormat RocksProcess

variable {t : Table} (noReturn : Bool) (sort : List QueryCond → List QueryCond)

def Served.request (x : Served) : DirectRequestContext :=
  ⟨x.magicNum, x.sequenceId, .rangeQuery x.rangeQuery⟩

def Served.sorted (x : Served) : Served :=
  { x with rangeQuery := { x.rangeQuery with fieldConds := sort x.rangeQuery.fieldConds } }

/-- A query on its way through client and worker, which asserts that it fits the buffer and begins
with the primary key. What `std::sort` does is left open: the conditions are compared by no order.
-/
def exchange (w : Worker t) (x : Served) : Option (Received × Worker t) := do
  let data := x.request.serializeTo
  guard (data.length ≤ 16 * 1024)
  let cxt ← DirectRequestContext.serializeFrom data
  match cxt.packetValue with
  | .rangeQuery q =>
    let x := Served.sorted sort ⟨x.db, x.faults, cxt.magicNum, cxt.sequenceId, q⟩
    guard (x.rangeQuery.fieldConds.head?.any fun c => c.fieldIndex = 0)
    let (data, w) ← serve noReturn w x
    return (← sendAndRecv data (t.numFields + 1), w)
  | _ => none

def session : Worker t → List Served → Option (List Received)
  | _, [] => some []
  | w, x :: xs => do
    let (received, w) ← exchange noReturn sort w x
    return received :: (← session w xs)

/-! ## What a client may ask -/

/-- A query that fits its message, leaves nothing behind in the worker, and has a reply that fits an
`int`. -/
structure Asked (t : Table) where
  served : Served
  perm : (sort served.rangeQuery.fieldConds).Perm served.rangeQuery.fieldConds
  primary : (served.sorted sort).rangeQuery.fieldConds.head?.any fun c => c.fieldIndex = 0
  query : Query t
  query_eq : (served.sorted sort).rangeQuery.query t = some query
  harmless : Harmless t (served.sorted sort)
  counted : (PacketValue.rangeQuery served.rangeQuery).Counted
  size : (PacketValue.rangeQuery served.rangeQuery).size ≤ 16 * 1024
  reply : ∀ out, answer noReturn served.db query = some out →
    12 + (out.flatMap DirectRow.bytes).length < 2 ^ 31

/-- The row meets the conditions as the client wrote them. -/
def meetsAsked (t : Table) (conds : List QueryCond) (row : Row t) : Bool :=
  conds.all fun c => (fieldIdOf t c.fieldIndex.toNat).any fun i =>
    Cond.holds ⟨i, condOprOf c.condOpr, c.condValue⟩ row

theorem meetsAsked_eq {q : RangeQuery} {query : Query t} (h : q.query t = some query) :
    meetsAsked t q.fieldConds = meetsDirect query.fieldConds := by
  simp only [RangeQuery.query, bind_eq_bind, bind_eq_some_iff, pure_def,
    Option.some.injEq] at h
  obtain ⟨conds, hconds, _, -, rfl⟩ := h
  funext row
  rw [meetsAsked, meetsDirect]
  generalize q.fieldConds = l at hconds ⊢
  induction l generalizing conds with
  | nil => obtain rfl := Option.some.inj hconds; rfl
  | cons c l ih =>
    simp only [List.mapM_cons, bind_eq_bind, bind_eq_some_iff, pure_def,
      Option.some.injEq] at hconds
    obtain ⟨_, ⟨i, hi, rfl⟩, conds, hl, rfl⟩ := hconds
    rw [List.all_cons, hi, ih conds hl]
    rfl

variable {noReturn sort}

/-- The part of the rows that the limit names. -/
def LimitCond.page (l : LimitCond) (rows : List DirectRow) : List DirectRow :=
  if l.limited then (rows.drop l.limitStart.toInt.toNat).take l.limitStep.toInt.toNat else rows

/-- The client receives what a worker of its own would answer; where the scan is exact and there is
no order, these are the rows of the storage that meet all conditions, or the part of them that the
limit names. -/
def Asked.Right (a : Asked noReturn sort t) (received : Received) : Prop :=
  ∃ out, received = .rows out ∧ answer noReturn a.served.db a.query = some out ∧
    ∀ rows c primaryKeyConds conds, t.StringKey → Stores a.served.db rows →
      analysePrimaryKeyConds a.query.fieldConds = some (c :: primaryKeyConds, conds) →
      RangeExact rows a.query.fieldConds c primaryKeyConds conds → a.query.orderbyFields = [] →
      ∃ found, out = (a.query.limitCond.page found).reverse ∧
        found.Perm ((rows.filter (meetsAsked t a.served.rangeQuery.fieldConds)).map directRow)

theorem RangeQueryOk.page {db : Db} {rows : List (Row t)} {q : Query t}
    (h : RangeQueryOk noReturn db rows q.fieldConds) (horder : q.orderbyFields = []) :
    ∃ found, found.Perm ((rows.filter (meetsDirect q.fieldConds)).map directRow) ∧
      answer noReturn db q = some (q.limitCond.page found).reverse := by
  obtain ⟨found, hperm, hunlimited, hlimited⟩ := h
  obtain ⟨fieldConds, orderbyFields, l⟩ := q
  cases horder
  refine ⟨found, hperm, ?_⟩
  rw [LimitCond.page]
  split_ifs with hl
  · exact hlimited l hl
  · exact hunlimited l (Bool.eq_false_iff.mpr hl)

/-- A worker that nothing was left in answers, and the client reads its answer. -/
theorem Asked.received (a : Asked noReturn sort t) : ∃ data out,
    serve noReturn (Worker.fresh : Worker t) (a.served.sorted sort) = some (data, Worker.fresh) ∧
      answer noReturn a.served.db a.query = some out ∧
      sendAndRecv data (t.numFields + 1) = some (.rows out) := by
  obtain ⟨data, hserve⟩ := a.harmless.serve_fresh noReturn
  obtain ⟨rows, q, c, primaryKeyConds, conds, hstores, hquery, hanalyse, hvalue, hfew⟩ :=
    a.harmless.rows
  obtain rfl : q = a.query := Option.some.inj (hquery.symm.trans a.query_eq)
  obtain ⟨outcome, w, hprocess, hcases⟩ := processDirectQuery_fresh noReturn hstores hanalyse hvalue
  have hrows : w.rowValues.length < 2 ^ 15 := by
    rcases hcases with ⟨-, rfl⟩ | ⟨visited, hvisited, -, rfl⟩
    · exact Nat.two_pow_pos 15
    · exact length_drained_lt noReturn hfew hvisited
  have hanswer : answer noReturn (a.served.sorted sort).db a.query = some w.rowValues ∧
      0 ≤ (outcome.rowNums w.rowValues).toInt := by
    rw [answer, hprocess]
    rcases hcases with ⟨rfl, rfl⟩ | ⟨visited, hvisited, rfl, -⟩
    · exact ⟨rfl, le_rfl⟩
    · refine ⟨rfl, ?_⟩
      rw [Outcome.rowNums, Int16.toInt_ofNat_of_lt hrows]
      exact Int.natCast_nonneg _
  have hparts := hserve
  rw [serve, a.query_eq, a.harmless.faults] at hparts
  simp only [bind_eq_bind, bind_some, hprocess] at hparts
  obtain ⟨⟨_, rest⟩, hser, hfresh⟩ := bind_eq_some_iff.mp hparts
  obtain ⟨rfl, hworker⟩ := Prod.mk.inj (Option.some.inj hfresh)
  obtain rfl : rest = [] := congrArg Worker.rowValues hworker
  have hwide : Wide t w.rowValues :=
    wide_processDirectQuery (w := Worker.fresh) (List.forall_mem_nil _) hprocess
  obtain ⟨r, rfl, hrowNums, happ⟩ := exists_reply hwide (hrows.trans (by decide)) hser
  rw [List.append_nil] at happ
  rw [happ] at hanswer
  have hbytes := r.length_bytes
  have hlength : r.bytes.length < 2 ^ 31 := hbytes ▸ a.reply _ hanswer.1
  refine ⟨_, _, hserve, hanswer.1, ?_⟩
  simp only [sendAndRecv, Int32.toInt_ofNat_of_lt hlength]
  rw [if_neg (by omega), Int.toNat_natCast, List.take_length,
    parseResponse_rows r (hrowNums ▸ happ ▸ hanswer.2) hlength]
  rfl

theorem Asked.exchange (a : Asked noReturn sort t) :
    ∃ received, DirectQuery.exchange noReturn sort (Worker.fresh : Worker t) a.served =
      some (received, Worker.fresh) ∧ a.Right received := by
  obtain ⟨data, out, hserve, hanswer, hreceived⟩ := a.received
  refine ⟨.rows out, ?_, out, rfl, hanswer,
    fun rows c primaryKeyConds conds ht hstores hanalyse hexact horder => ?_⟩
  · rw [DirectQuery.exchange, ((DirectRequestContext.roundTrip_iff _).mpr
      ⟨a.counted, a.size.trans_lt (by decide)⟩).2, guard,
      if_pos ((DirectRequestContext.length_serializeTo _).trans_le a.size)]
    simp only [bind_eq_bind, pure_def, bind_some, Served.request, guard,
      if_pos a.primary, hserve, hreceived]
  · obtain ⟨found, hperm, hpage⟩ := (hexact.ok ht noReturn hstores hanalyse).page horder
    refine ⟨found, Option.some.inj (hanswer.symm.trans hpage), ?_⟩
    rw [show meetsAsked t a.served.rangeQuery.fieldConds = meetsDirect a.query.fieldConds from
      funext (fun _ => a.perm.all_eq.symm) |>.trans (meetsAsked_eq a.query_eq)]
    exact hperm

/-- The client of a worker that serves other queries before receives the right rows each time. -/
theorem session_right (asked : List (Asked noReturn sort t)) :
    ∃ received, session noReturn sort (Worker.fresh : Worker t) (asked.map Asked.served) =
      some received ∧
      List.Forall₂ Asked.Right asked received := by
  induction asked with
  | nil => exact ⟨[], rfl, .nil⟩
  | cons a asked ih =>
    obtain ⟨first, hfirst, hright⟩ := a.exchange
    obtain ⟨received, hsession, hall⟩ := ih
    refine ⟨first :: received, ?_, .cons hright hall⟩
    rw [List.map_cons, session, hfirst]
    simp only [bind_eq_bind, bind_some, hsession]
    rfl

/-- The query for the rows under the key `"a"`. -/
def askedEqual : Asked false id twoKeyTable where
  served := servedEqual ⟨none, none⟩
  perm := .rfl
  primary := rfl
  query := equalQuery
  query_eq := rfl
  harmless := harmless_servedEqual
  counted := ⟨by decide, by decide⟩
  size := by decide
  reply := by
    have hanswer : ∀ out ∈ answer false twoKeyDb equalQuery,
        12 + (out.flatMap DirectRow.bytes).length < 2 ^ 31 := by decide +kernel
    exact hanswer

theorem session_right_equal : ∃ received,
    session false id (Worker.fresh : Worker twoKeyTable)
      [servedEqual ⟨none, none⟩, servedEqual ⟨none, none⟩] = some received ∧
      List.Forall₂ Asked.Right [askedEqual, askedEqual] received :=
  session_right [askedEqual, askedEqual]

end ISearch.DirectQuery

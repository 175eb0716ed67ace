import ISearch.Lib.Ranks
import ISearch.DirectQuery.Range

/-!
# Range queries with `ORDER BY` and `LIMIT`

The rows that a query reaches go through a heap of the size `start + step`, whose greatest row is
taken out first. The rows that are skipped are the first ones that are taken out, so these are the
greatest: what is left is the beginning of the order and not the page that the limit names.
-/

namespace ISearch.DirectQuery

open KeyFormat RocksProcess List

variable {t : Table} {db : Db} {rows : List (Row t)}

/-! ## The order of the fields -/

/-- The part of a string that `strncmp` looks at. -/
def cString (s : Bytes) : Bytes := s.takeWhile (· ≠ 0)

theorem compare_length_succ (m n : Nat) : compare (m + 1) (n + 1) = compare m n := by
  simp only [compare, compareOfLessAndEq, Nat.add_lt_add_iff_right, Nat.add_right_cancel_iff]

theorem strncmp_then (ls rs : Bytes) :
    (strncmp ls rs).then (compare ls.length rs.length) =
      (compare (cString ls) (cString rs)).then (compare ls.length rs.length) := by
  induction ls generalizing rs with
  | nil =>
    cases rs with
    | nil => rfl
    | cons y rs =>
      have hlen : compare ([] : Bytes).length (y :: rs).length = .lt :=
        compare_lt_iff_lt.mpr (by simp)
      have hnil : strncmp [] (y :: rs) = .eq := by simp [strncmp]
      rw [hnil, hlen, cString, cString]
      by_cases hy : y = 0
      · simp [hy]
      · simp [hy]
  | cons x ls ih =>
    cases rs with
    | nil =>
      have hlen : compare (x :: ls).length ([] : Bytes).length = .gt :=
        compare_gt_iff_gt.mpr (by simp)
      have hnil : strncmp (x :: ls) [] = .eq := by simp [strncmp]
      rw [hnil, hlen, cString, cString]
      by_cases hx : x = 0
      · simp [hx]
      · simp [hx]
    | cons y rs =>
      have htake : ∀ (z : UInt8) (l : Bytes),
        (z :: l).take (min (x :: ls).length (y :: rs).length) =
          z :: l.take (min ls.length rs.length) := by
        intro z l
        rw [length_cons, length_cons, Nat.succ_min_succ, take_succ_cons]
      have hstep : strncmp (x :: ls) (y :: rs) =
          compare ((x :: ls.take (min ls.length rs.length)).takeWhile (· ≠ 0))
            ((y :: rs.take (min ls.length rs.length)).takeWhile (· ≠ 0)) := by
        simp only [strncmp, htake]
      rw [hstep, cString, cString, length_cons, length_cons, compare_length_succ]
      by_cases hx : x = 0 <;> by_cases hy : y = 0
      · simp [hx, hy]
      · simp [hx, hy]
      · simp [hx, hy]
      · simp only [takeWhile_cons, hx, hy, ne_eq, not_false_eq_true, decide_true, if_true,
          List.compare_cons_cons, Ordering.then_assoc]
        exact congrArg _ (ih rs)

/-- The order of strings that the comparator of the heap has, of what `f` makes of them. -/
def textOrder (f : Bytes → Bytes) : Bytes → Bytes → Ordering :=
  compareLex (compareOn fun s => cString (f s)) (compareOn fun s => (f s).length)

theorem compareField_eq (ty : FieldType) :
    (fun ls rs => compareField ls rs ty) = match ty with
      | .signed => compareOn strtoll
      | .unsigned => compareOn strtoull
      | .string => textOrder toLower
      | .binary => textOrder id := by
  cases ty with
  | signed => rfl
  | unsigned => rfl
  | string =>
    funext ls rs
    have hlen : ∀ s : Bytes, (toLower s).length = s.length := fun s => length_map _
    rw [compareField, ← hlen ls, ← hlen rs, strncmp_then]
    rfl
  | binary =>
    funext ls rs
    exact strncmp_then ls rs

instance (f : Bytes → Bytes) : Std.TransCmp (textOrder f) :=
  inferInstanceAs (Std.TransCmp (compareLex _ _))

instance (ty : FieldType) : Std.TransCmp fun ls rs => compareField ls rs ty := by
  rw [compareField_eq]
  cases ty with
  | signed => exact inferInstanceAs (Std.TransCmp (compareOn strtoll))
  | unsigned => exact inferInstanceAs (Std.TransCmp (compareOn strtoull))
  | string => exact inferInstanceAs (Std.TransCmp (textOrder toLower))
  | binary => exact inferInstanceAs (Std.TransCmp (textOrder id))

instance (ty : FieldType) : Std.TransCmp ty.cmp := by
  cases ty with
  | signed => exact inferInstanceAs (Std.TransCmp fun x y : Int64 => compare x y)
  | unsigned => exact inferInstanceAs (Std.TransCmp fun x y : UInt64 => compare x y)
  | string => exact inferInstanceAs (Std.TransCmp fun x y : Bytes => compare x y)
  | binary => exact inferInstanceAs (Std.TransCmp fun x y : Bytes => compare x y)

/-- The order that the comparator of the heap has: it sees the last value field empty. -/
def seenOrder (fields : List (t.FieldId × Bool)) : Row t → Row t → Ordering :=
  lexBy (fun i r r' => compareField (r.splitStr i) (r'.splitStr i) (t.type i)) fields

/-- The order that is asked for: of numbers, of text without regard to case, of bytes. -/
def requestedOrder (fields : List (t.FieldId × Bool)) : Row t → Row t → Ordering :=
  lexBy (fun i r r' => (t.type i).cmp (lowerValue (t.type i) (r i)) (lowerValue (t.type i) (r' i)))
    fields

theorem transCmp_comp {α β : Type} {cmp : β → β → Ordering} (h : Std.TransCmp cmp) (f : α → β) :
    Std.TransCmp fun a b => cmp (f a) (f b) where
  eq_swap := h.eq_swap
  isLE_trans hab hbc := h.isLE_trans hab hbc

instance (fields : List (t.FieldId × Bool)) : Std.TransCmp (seenOrder fields) :=
  transCmp_lexBy (fun i => transCmp_comp (inferInstance :
    Std.TransCmp fun ls rs => compareField ls rs (t.type i)) fun r : Row t => r.splitStr i) fields

instance (fields : List (t.FieldId × Bool)) : Std.TransCmp (requestedOrder fields) :=
  transCmp_lexBy (fun i => transCmp_comp (inferInstance : Std.TransCmp (t.type i).cmp)
    fun r : Row t => lowerValue (t.type i) (r i)) fields

theorem orderByLess_eq (noReturn : Bool) (r r' : Row t) (fields : List (t.FieldId × Bool)) :
    orderByLess noReturn (elementOf r) (elementOf r') fields =
      lessOr noReturn (seenOrder fields r r') := by
  induction fields with
  | nil => rfl
  | cons f fields ih =>
    obtain ⟨i, asc⟩ := f
    have hcons : seenOrder ((i, asc) :: fields) r r' =
        (if asc then compareField (r.splitStr i) (r'.splitStr i) (t.type i)
          else compareField (r'.splitStr i) (r.splitStr i) (t.type i)).then
          (seenOrder fields r r') := rfl
    have hswap : compareField (r'.splitStr i) (r.splitStr i) (t.type i) =
        (compareField (r.splitStr i) (r'.splitStr i) (t.type i)).swap :=
      (inferInstance : Std.TransCmp fun ls rs => compareField ls rs (t.type i)).eq_swap
    rw [orderByLess, elementOf_value, elementOf_value, ih, hcons, hswap]
    cases compareField (r.splitStr i) (r'.splitStr i) (t.type i) <;> cases asc <;> rfl

theorem compare_then_length (l r : Bytes) :
    (compare l r).then (compare l.length r.length) = compare l r := by
  cases hcmp : compare l r with
  | lt => rfl
  | gt => rfl
  | eq =>
    rw [Std.LawfulEqOrd.eq_of_compare hcmp]
    exact Std.ReflOrd.compare_self

theorem cString_of_notMem {s : Bytes} (h : 0 ∉ s) : cString s = s := by
  rw [cString, takeWhile_eq_self_iff]
  intro c hc
  rw [decide_eq_true_iff]
  rintro rfl
  exact h hc

theorem strncmp_of_notMem {l r : Bytes} (hl : 0 ∉ l) (hr : 0 ∉ r) :
    (strncmp l r).then (compare l.length r.length) = compare l r := by
  rw [strncmp_then, cString_of_notMem hl, cString_of_notMem hr, compare_then_length]

theorem zero_notMem_toLower {s : Bytes} (h : 0 ∉ s) : 0 ∉ toLower s := by
  intro hmem
  obtain ⟨c, hc, hlower⟩ := mem_map.mp hmem
  have hnat := toNat_lowerChar c
  have hzero : (0 : UInt8).toNat = 0 := rfl
  rw [hlower, hzero] at hnat
  have hc0 : c = 0 := by
    apply UInt8.toNat_inj.mp
    split at hnat <;> omega
  exact h (hc0 ▸ hc)

theorem compareField_toStr {ty : FieldType} {x y : ty.Value}
    (hx : ty = .string ∨ ty = .binary → 0 ∉ ty.toStr x)
    (hy : ty = .string ∨ ty = .binary → 0 ∉ ty.toStr y) :
    compareField (ty.toStr x) (ty.toStr y) ty = ty.cmp (lowerValue ty x) (lowerValue ty y) := by
  cases ty with
  | signed => exact congrArg₂ compare (strtoll_toStringS64 x) (strtoll_toStringS64 y)
  | unsigned => exact congrArg₂ compare (strtoull_toStringU64 x) (strtoull_toStringU64 y)
  | string =>
    have hlen : ∀ s : Bytes, (toLower s).length = s.length := fun s => length_map _
    have htext := strncmp_of_notMem (zero_notMem_toLower (hx (.inl rfl)))
      (zero_notMem_toLower (hy (.inl rfl)))
    rw [hlen, hlen] at htext
    exact htext
  | binary => exact strncmp_of_notMem (hx (.inr rfl)) (hy (.inr rfl))

/-- Without the last value field and without zero bytes, the comparator has the order that is asked
for. -/
theorem seenOrder_eq {fields : List (t.FieldId × Bool)} {r r' : Row t}
    (hlast : ∀ f ∈ fields, t.valueFields.getLast? ≠ some f.1)
    (hr : ∀ f ∈ fields, t.type f.1 = .string ∨ t.type f.1 = .binary → 0 ∉ r.str f.1)
    (hr' : ∀ f ∈ fields, t.type f.1 = .string ∨ t.type f.1 = .binary → 0 ∉ r'.str f.1) :
    seenOrder fields r r' = requestedOrder fields r r' := by
  induction fields with
  | nil => rfl
  | cons f fields ih =>
    obtain ⟨hf, hfields⟩ := forall_mem_cons.mp hlast
    obtain ⟨hrf, hrfields⟩ := forall_mem_cons.mp hr
    obtain ⟨hrf', hrfields'⟩ := forall_mem_cons.mp hr'
    have hseen : seenOrder (f :: fields) r r' =
        (if f.2 then compareField (r.splitStr f.1) (r'.splitStr f.1) (t.type f.1)
          else compareField (r'.splitStr f.1) (r.splitStr f.1) (t.type f.1)).then
          (seenOrder fields r r') := rfl
    rw [hseen, ih hfields hrfields hrfields', Row.splitStr, Row.splitStr, if_neg hf, if_neg hf,
      Row.str, Row.str, compareField_toStr hrf hrf', compareField_toStr hrf' hrf]
    rfl

/-- The rows of the heap, the greatest first. -/
def heapRows (noReturn : Bool) (q : Query t) (l : List (Row t)) : List (Row t) :=
  l.foldl (pushBounded (fun r r' => lessOr noReturn (seenOrder q.orderbyFields r r'))
    q.limitCond.heapSize) []

/-- The rows in the order that the comparator has. -/
def seenSorted (noReturn : Bool) (q : Query t) (l : List (Row t)) : List (Row t) :=
  (l.foldl (pushBy fun r r' => lessOr noReturn (seenOrder q.orderbyFields r r')) []).reverse

variable {noReturn : Bool} {q : Query t}

theorem seenSorted_spec (noReturn : Bool) (q : Query t) (l : List (Row t)) :
    SortedFor (seenOrder q.orderbyFields) (seenSorted noReturn q l) ∧
      (seenSorted noReturn q l).Perm l := by
  obtain ⟨hdesc, hperm, -⟩ :=
    foldl_pushBounded (seenOrder q.orderbyFields) noReturn q.limitCond.heapSize l
  exact ⟨pairwise_reverse.mpr hdesc, (reverse_perm _).trans hperm⟩

theorem heapRows_eq (noReturn : Bool) (q : Query t) (l : List (Row t)) :
    heapRows noReturn q l = ((seenSorted noReturn q l).take q.limitCond.heapSize).reverse := by
  obtain ⟨-, hperm, hbounded⟩ :=
    foldl_pushBounded (seenOrder q.orderbyFields) noReturn q.limitCond.heapSize l
  rw [heapRows, hbounded, seenSorted, take_reverse, reverse_reverse, hperm.length_eq]

/-- `add_row`, for one row after the other. -/
def OrderByUnit.addRows (noReturn : Bool) (u : OrderByUnit t) (es : List OrderByUnitElement) :
    OrderByUnit t :=
  es.foldl (OrderByUnit.addRow noReturn) u

theorem rawRows_addRow (u : OrderByUnit t) (l : List (Row t)) (hl : u.rawRows = l.map elementOf)
    (row : Row t) : (u.addRow noReturn (elementOf row)).rawRows =
      (pushBounded (fun r r' => lessOr noReturn (seenOrder u.orderbyFields r r')) u.maxRowSize l
        row).map elementOf := by
  have hpush : u.push noReturn (elementOf row) =
      (pushBy (fun r r' => lessOr noReturn (seenOrder u.orderbyFields r r')) l row).map
        elementOf := by
    have hless : ((fun e' => orderByLess noReturn (elementOf row) e' u.orderbyFields) ∘ elementOf) =
        fun r' => lessOr noReturn (seenOrder u.orderbyFields row r') :=
      funext fun r' => orderByLess_eq noReturn row r' u.orderbyFields
    rw [OrderByUnit.push, hl, takeWhile_map, dropWhile_map, hless, pushBy, map_append,
      map_cons]
  rw [OrderByUnit.addRow, pushBounded, hpush]
  dsimp only
  rw [length_map]
  split
  · rw [map_tail]
  · rfl

theorem rawRows_addRows (q : Query t) (l : List (Row t)) :
    (OrderByUnit.addRows noReturn ⟨q.limitCond.heapSize, q.orderbyFields, []⟩
      (l.map elementOf)).rawRows = (heapRows noReturn q l).map elementOf := by
  rw [OrderByUnit.addRows, heapRows]
  suffices h : ∀ (u : OrderByUnit t) (done : List (Row t)), u.rawRows = done.map elementOf →
      u.maxRowSize = q.limitCond.heapSize → u.orderbyFields = q.orderbyFields →
      ((l.map elementOf).foldl (OrderByUnit.addRow noReturn) u).rawRows =
        (l.foldl (pushBounded (fun r r' => lessOr noReturn (seenOrder q.orderbyFields r r'))
          q.limitCond.heapSize) done).map elementOf from h _ [] rfl rfl rfl
  induction l with
  | nil => exact fun u done hrows _ _ => hrows
  | cons row l ih =>
    intro u done hrows hsize hfields
    refine ih (u.addRow noReturn (elementOf row)) _ ?_ hsize hfields
    rw [rawRows_addRow u done hrows row, hsize, hfields]

variable {conds : List (Cond t)} {verdict : Bytes → Option Verdict} {rowVerdict : Row t → Verdict}

/-- The unit of a query, before the first row. -/
def unitOf (q : Query t) (s : QueryState t) : OrderByUnit t :=
  s.orderByUnit.getD ⟨q.limitCond.heapSize, q.orderbyFields, []⟩

theorem keepRow_ordered (horder : q.orderbyFields ≠ []) (e : OrderByUnitElement)
    (s : QueryState t) : keepRow noReturn q e s =
      ({ s with orderByUnit := some ((unitOf q s).addRow noReturn e) }, false) := by
  rw [keepRow, if_pos (by simp [horder])]
  rfl

theorem keepAll_ordered (horder : q.orderbyFields ≠ []) (es : List OrderByUnitElement)
    (s : QueryState t) : (keepAll noReturn q s es).2 = false ∧
      (keepAll noReturn q s es).1.rowValues = s.rowValues ∧
      unitOf q (keepAll noReturn q s es).1 = (unitOf q s).addRows noReturn es := by
  induction es generalizing s with
  | nil => exact ⟨rfl, rfl, rfl⟩
  | cons e es ih =>
    rw [keepAll, keepRow_ordered horder, if_neg Bool.false_ne_true]
    exact ih _

theorem drainOrderBy_rowValues (s : QueryState t) (hrows : s.rowValues = [])
    (hlimit : q.limitCond.limited = true) :
    (drainOrderBy q s).rowValues = (((unitOf q s).rawRows.drop
      q.limitCond.limitStart.toInt.toNat).map (buildDirectRow t)).reverse := by
  rw [drainOrderBy, unitOf]
  cases s.orderByUnit with
  | none => simp [hrows]
  | some u => simp [hrows, hlimit]

/-- The key that a loop stands at behind the rows: the first one that it stops at. -/
def behindKey (rowVerdict : Row t → Verdict) (rows : List (Row t)) (fullKey : Bytes) : Bytes :=
  match rows with
  | [] => fullKey
  | row :: rows =>
    if rowVerdict row = .stop then row.rocksKey else behindKey rowVerdict rows row.rocksKey

theorem scanLoop_fullKey (hfull : ∀ e s, (keepRow noReturn q e s).2 = false)
    (hfits : ∀ row ∈ rows, row.Fits)
    (hverdict : ∀ row ∈ rows, verdict row.rocksKey = some (rowVerdict row)) (fullKey : Bytes)
    (s : QueryState t) :
    ∃ s', scanLoop noReturn q conds verdict false fullKey s (rows.map Row.entry) =
      some ⟨s', behindKey rowVerdict rows fullKey, false⟩ := by
  induction rows generalizing fullKey s with
  | nil => exact ⟨s, rfl⟩
  | cons row rows ih =>
    have hrest := ih (fun r hr => hfits r (mem_cons_of_mem row hr))
      (fun r hr => hverdict r (mem_cons_of_mem row hr)) row.rocksKey
    rw [map_cons, Row.entry, scanLoop, hverdict row mem_cons_self, behindKey]
    simp only [Option.bind_eq_bind, Option.bind_some]
    cases rowVerdict row with
    | stop => exact ⟨s, rfl⟩
    | skip => exact hrest s
    | accept =>
      simp only [saveDirectRow, directElement_entry (hfits row mem_cons_self),
        Option.bind_eq_bind, Option.bind_some]
      have haccept : ¬ Verdict.accept = .stop := by decide
      simp only [if_neg haccept]
      by_cases hmatch : (elementOf row).matched conds = true
      · obtain ⟨s', hs'⟩ := hrest (keepRow noReturn q (elementOf row) s).1
        refine ⟨s', ?_⟩
        rw [if_pos hmatch]
        change (if (keepRow noReturn q (elementOf row) s).2 = true then _ else _) = _
        rw [hfull, if_neg Bool.false_ne_true]
        exact hs'
      · rw [if_neg hmatch]
        exact hrest s

/-- A loop of a query with `ORDER BY`. -/
theorem scanLoop_ordered (horder : q.orderbyFields ≠ []) (hfits : ∀ row ∈ rows, row.Fits)
    (hverdict : ∀ row ∈ rows, verdict row.rocksKey = some (rowVerdict row)) (fullKey : Bytes)
    (s : QueryState t) :
    scanLoop noReturn q conds verdict false fullKey s (rows.map Row.entry) =
      some ⟨(keepAll noReturn q s ((accepted rowVerdict conds rows).map elementOf)).1,
        behindKey rowVerdict rows fullKey, false⟩ := by
  have hfull : ∀ e s, (keepRow noReturn q e s).2 = false := fun e s => by
    rw [keepRow_ordered horder]
  have hscan : ∃ key, scanLoop noReturn q conds verdict false fullKey s (rows.map Row.entry) =
      some ⟨_, key, false⟩ ∧ _ := scanLoop_entries hfits hverdict fullKey s
  obtain ⟨key, hscan, -⟩ := hscan
  have hkey : ∃ s', scanLoop noReturn q conds verdict false fullKey s (rows.map Row.entry) =
      some ⟨s', _, false⟩ := scanLoop_fullKey hfull hfits hverdict fullKey s
  obtain ⟨s', hs'⟩ := hkey
  rw [hscan, Option.some_inj, Scanned.mk.injEq] at hs'
  rw [hscan, hs'.2.1]

/-! ## The rows that a query reaches -/

variable {fieldConds : List (Cond t)} {c : Cond t} {primaryKeyConds : List (Cond t)}

/-- The key that the range loop starts at. -/
def rangeStart (rows : List (Row t)) (c : Cond t) : Bytes :=
  if c.condOpr = some .le then
    behindKey (equalVerdict (preKeyOf c)) (equalRows rows (preKeyOf c)) (preKeyOf c)
  else preKeyOf c

/-- The rows that `save_direct_row` finds to match, in the order of the visit. -/
def reachedRows (rows : List (Row t)) (c : Cond t) (primaryKeyConds conds : List (Cond t)) :
    List (Row t) :=
  (if c.condOpr = some .le then
    accepted (equalVerdict (preKeyOf c)) conds (equalRows rows (preKeyOf c)) else []) ++
    accepted (rangeVerdict (c :: primaryKeyConds)) conds
      (rangeRows rows (c.condOpr.any Comparator.forward) (rangeStart rows c))

theorem behindKey_mem {fullKey : Bytes} (hne : rows ≠ []) :
    ∃ row ∈ rows, behindKey rowVerdict rows fullKey = row.rocksKey := by
  induction rows generalizing fullKey with
  | nil => exact absurd rfl hne
  | cons row rows ih =>
    rw [behindKey]
    split_ifs
    · exact ⟨row, mem_cons_self, rfl⟩
    · by_cases hnil : rows = []
      · subst hnil
        exact ⟨row, mem_cons_self, rfl⟩
      · obtain ⟨row', hrow', heq⟩ := ih hnil
        exact ⟨row', mem_cons_of_mem row hrow', heq⟩

theorem reachedRows_eq_nil
    (hnil : rangeRows rows (c.condOpr.any Comparator.forward) (rangeStart rows c) = []) :
    reachedRows rows c primaryKeyConds conds = [] := by
  rw [reachedRows, hnil]
  split_ifs with hle
  · by_cases hequal : equalRows rows (preKeyOf c) = []
    · rw [hequal]
      rfl
    · -- the range loop would see the row that the equal loop has stopped at
      obtain ⟨row, hrow, hkey⟩ : ∃ row ∈ equalRows rows (preKeyOf c),
        behindKey (equalVerdict (preKeyOf c)) (equalRows rows (preKeyOf c)) (preKeyOf c) =
          row.rocksKey := behindKey_mem hequal
      rw [rangeStart, if_pos hle, hkey, hle, rangeRows, if_neg (by decide)] at hnil
      have hmem : row ∈ (rows.filter fun r => r.rocksKey ≤ row.rocksKey).reverse :=
        mem_reverse.mpr (mem_filter.mpr
          ⟨mem_of_mem_equalRows hrow, decide_eq_true le_rfl⟩)
      rw [hnil] at hmem
      cases hmem
  · rfl

theorem mem_of_mem_reachedRows {row : Row t}
    (h : row ∈ reachedRows rows c primaryKeyConds conds) : row ∈ rows := by
  rw [reachedRows, mem_append] at h
  rcases h with h | h
  · split_ifs at h with hle
    · exact mem_of_mem_equalRows ((takeWhile_sublist _).mem (mem_filter.mp h).1)
    · cases h
  · exact mem_of_mem_rangeRows ((takeWhile_sublist _).mem (mem_filter.mp h).1)

theorem addRows_append (u : OrderByUnit t) (es es' : List OrderByUnitElement) :
    u.addRows noReturn (es ++ es') = (u.addRows noReturn es).addRows noReturn es' :=
  foldl_append

theorem processDirectQuery_ordered (noReturn : Bool) (h : Stores db rows)
    (hanalyse : analysePrimaryKeyConds q.fieldConds = some (c :: primaryKeyConds, conds))
    (hvalue : c.condValue ≠ []) (horder : q.orderbyFields ≠ []) :
    processDirectQuery db noReturn ⟨none, none⟩ q Worker.fresh =
      rangeSection db noReturn q (c :: primaryKeyConds) conds (c.condOpr.any Comparator.forward)
        ⟨none, none⟩ (rangeStart rows c) (keepAll noReturn q QueryState.start
          ((if c.condOpr = some .le then accepted (equalVerdict (preKeyOf c)) conds
            (equalRows rows (preKeyOf c)) else []).map elementOf)).1 := by
  rw [processDirectQuery, hanalyse]
  dsimp only
  rw [if_neg hvalue, rangeStart]
  by_cases hle : c.condOpr = some .le
  · have hequal : equalLoop db noReturn q conds (preKeyOf c) ⟨none, none⟩ QueryState.start =
        some ⟨(keepAll noReturn q QueryState.start ((accepted (equalVerdict (preKeyOf c)) conds
          (equalRows rows (preKeyOf c))).map elementOf)).1,
          behindKey (equalVerdict (preKeyOf c)) (equalRows rows (preKeyOf c)) (preKeyOf c),
          false⟩ := by
      rw [equalLoop, samePrefix_stores h]
      exact scanLoop_ordered horder (fun row hrow => h.fits row (mem_of_mem_equalRows hrow))
        (fun _ _ => rfl) (preKeyOf c) QueryState.start
    rw [if_pos hle, if_pos hle, if_pos hle]
    change (equalLoop db noReturn q conds (preKeyOf c) ⟨none, none⟩ QueryState.start).bind _ = _
    rw [hequal, Option.bind_some, if_neg Bool.false_ne_true]
  · rw [if_neg hle, if_neg hle, if_neg hle]
    rfl

/-- The page that a query returns. -/
theorem answer_ordered (noReturn : Bool) (h : Stores db rows)
    (hanalyse : analysePrimaryKeyConds q.fieldConds = some (c :: primaryKeyConds, conds))
    (hvalue : c.condValue ≠ []) (horder : q.orderbyFields ≠ [])
    (hlimit : q.limitCond.limited = true) :
    answer noReturn db q =
      some (((heapRows noReturn q (reachedRows rows c primaryKeyConds conds)).drop
        q.limitCond.limitStart.toInt.toNat).reverse.map directRow) := by
  have hsection : rangeSection db noReturn q (c :: primaryKeyConds) conds
      (c.condOpr.any Comparator.forward) ⟨none, none⟩ (rangeStart rows c) (keepAll noReturn q
        QueryState.start ((if c.condOpr = some .le then accepted (equalVerdict (preKeyOf c)) conds
          (equalRows rows (preKeyOf c)) else []).map elementOf)).1 = some _ :=
    rangeSection_stores h _ _ _
  rw [answer, processDirectQuery_ordered noReturn h hanalyse hvalue horder, hsection]
  by_cases hnil : rangeRows rows (c.condOpr.any Comparator.forward) (rangeStart rows c) = []
  · rw [if_pos hnil, reachedRows_eq_nil hnil]
    simp [heapRows]
  · rw [if_neg hnil]
    obtain ⟨-, hrows, hunit⟩ := keepAll_ordered horder ((if c.condOpr = some .le then
      accepted (equalVerdict (preKeyOf c)) conds (equalRows rows (preKeyOf c)) else []).map
        elementOf) QueryState.start
    obtain ⟨-, hrows', hunit'⟩ := keepAll_ordered horder
      ((accepted (rangeVerdict (c :: primaryKeyConds)) conds
        (rangeRows rows (c.condOpr.any Comparator.forward) (rangeStart rows c))).map elementOf)
      (keepAll noReturn q QueryState.start ((if c.condOpr = some .le then accepted
        (equalVerdict (preKeyOf c)) conds (equalRows rows (preKeyOf c)) else []).map elementOf)).1
    rw [hunit, ← addRows_append, ← map_append] at hunit'
    have hraw : (OrderByUnit.addRows noReturn (unitOf q QueryState.start)
        ((reachedRows rows c primaryKeyConds conds).map elementOf)).rawRows = _ :=
      rawRows_addRows q (reachedRows rows c primaryKeyConds conds)
    refine congrArg some ((drainOrderBy_rowValues _ (hrows'.trans hrows) hlimit).trans ?_)
    rw [hunit', ← reachedRows, hraw, ← map_drop, map_map, map_reverse]
    rfl

/-! ## The page -/

/-- `LIMIT start, step`. -/
def Query.start (q : Query t) : Nat := q.limitCond.limitStart.toInt.toNat
def Query.step (q : Query t) : Nat := q.limitCond.limitStep.toInt.toNat

/-- The response is the part that the limit names of the rows in the order that is asked for, with
ties in any order. -/
def SliceOf (noReturn : Bool) (db : Db) (q : Query t) (l : List (Row t)) : Prop :=
  ∃ L : List (Row t), L.Perm l ∧ SortedFor (requestedOrder q.orderbyFields) L ∧
    answer noReturn db q = some (((L.drop q.start).take q.step).map directRow)

/-- The response is that part of all matching rows. -/
def PageOk (noReturn : Bool) (db : Db) (rows : List (Row t)) (q : Query t) : Prop :=
  SliceOf noReturn db q (rows.filter (meetsDirect q.fieldConds))

/-- The comparator of the heap orders the rows as it is asked for. -/
def SeenAsRequested (q : Query t) (l : List (Row t)) : Prop :=
  ∀ r ∈ l, ∀ r' ∈ l, seenOrder q.orderbyFields r r' = requestedOrder q.orderbyFields r r'

/-- The rows at the beginning of the order that the comparator has belong to the page. -/
def RowsBelong (noReturn : Bool) (q : Query t) (l : List (Row t)) : Prop :=
  ∀ (j : Nat) (row : Row t), j < min q.step (l.length - q.start) →
    (seenSorted noReturn q l)[j]? = some row →
      Belongs (requestedOrder q.orderbyFields) l row (q.start + j)

/-- The size of the heap does not overflow, or the rows end before. Nothing is skipped, or nothing
is left, or all rows up to the end of the page tie. -/
structure PageExact (q : Query t) (l : List (Row t)) : Prop where
  size : q.start + q.step < 2 ^ 31 ∨ l.length ≤ q.start + q.step
  skipped : q.start = 0 ∨ l.length ≤ q.start ∨
    FirstTie (requestedOrder q.orderbyFields) l (min (q.start + q.step) l.length)

theorem PageExact.perm {l l' : List (Row t)} (hperm : l.Perm l') (h : PageExact q l) :
    PageExact q l' := by
  obtain ⟨hsize, hskipped⟩ := h
  rw [hperm.length_eq] at hsize hskipped
  exact ⟨hsize, hskipped.imp_right (Or.imp_right (FirstTie.perm hperm))⟩

/-- The rows of the page: the beginning of the order. -/
theorem drop_heapRows (noReturn : Bool) (q : Query t) (l : List (Row t)) (start : Nat) :
    ((heapRows noReturn q l).drop start).reverse =
      (seenSorted noReturn q l).take (min q.limitCond.heapSize l.length - start) := by
  rw [heapRows_eq, drop_reverse, reverse_reverse, length_take,
    (seenSorted_spec noReturn q l).2.length_eq, take_take]
  congr 1
  omega

theorem heapSize_eq (h : q.limitCond.limited = true) :
    0 < q.step ∧ (q.start + q.step < 2 ^ 31 → q.limitCond.heapSize = q.start + q.step) ∧
      (2 ^ 31 ≤ q.start + q.step → q.start + q.step < q.limitCond.heapSize) := by
  have hpos : 0 ≤ q.limitCond.limitStart.toInt ∧ 0 < q.limitCond.limitStep.toInt := by
    simpa [LimitCond.limited] using h
  have hstart := q.limitCond.limitStart.toInt_lt
  have hstep := q.limitCond.limitStep.toInt_lt
  have hsum : (q.limitCond.limitStart + q.limitCond.limitStep).toInt =
      Int.bmod (q.limitCond.limitStart.toInt + q.limitCond.limitStep.toInt) (2 ^ 32) :=
    Int32.toInt_add _ _
  rw [LimitCond.heapSize, if_pos h, hsum, Int.bmod_def, Query.start, Query.step]
  refine ⟨by omega, fun hlt => ?_, fun hge => ?_⟩
  · split <;> omega
  · split <;> omega

/-- The page has the length that the limit allows. -/
theorem length_page_iff (h : q.limitCond.limited = true) (n : Nat) :
    min q.limitCond.heapSize n - q.start = min q.step (n - q.start) ↔
      q.start + q.step < 2 ^ 31 ∨ n ≤ q.start + q.step := by
  obtain ⟨hstep, hsmall, hlarge⟩ := heapSize_eq h
  by_cases hlt : q.start + q.step < 2 ^ 31
  · have hsize := hsmall hlt
    exact iff_of_true (by omega) (.inl hlt)
  · have hsize := hlarge (by omega)
    rw [or_iff_right hlt]
    omega

theorem rowsBelong_iff (noReturn : Bool) {l : List (Row t)} (hstep : 0 < q.step)
    (hseen : SeenAsRequested q l) :
    RowsBelong noReturn q l ↔ q.start = 0 ∨ l.length ≤ q.start ∨
      FirstTie (requestedOrder q.orderbyFields) l (min (q.start + q.step) l.length) := by
  obtain ⟨hsorted, hperm⟩ := seenSorted_spec noReturn q l
  have hlen := hperm.length_eq
  have hrequested : SortedFor (requestedOrder q.orderbyFields) (seenSorted noReturn q l) := by
    refine List.Pairwise.imp_of_mem (fun hr hr' hle => ?_) hsorted
    rwa [hseen _ (hperm.mem_iff.mp hr) _ (hperm.mem_iff.mp hr')] at hle
  by_cases hrows : l.length ≤ q.start
  · refine iff_of_true (fun j row hj => ?_) (.inr (.inl hrows))
    omega
  · have hshift :=
      hrequested.belongs_shift_iff (s := q.start) (m := min q.step (l.length - q.start))
      (by omega)
    have hget : RowsBelong noReturn q l ↔ ∀ (j : Nat) (hj : j < min q.step (l.length - q.start)),
        Belongs (requestedOrder q.orderbyFields) (seenSorted noReturn q l)
          ((seenSorted noReturn q l).get ⟨j, by omega⟩) (q.start + j) := by
      constructor
      · exact fun h j hj => (h j _ hj (List.getElem?_eq_getElem (by omega))).perm hperm.symm
      · intro h j row hj hrow
        obtain ⟨hlt, rfl⟩ := List.getElem?_eq_some_iff.mp hrow
        exact (h j hj).perm hperm
    have hmin : q.start + min q.step (l.length - q.start) = min (q.start + q.step) l.length := by
      omega
    rw [hget, hshift, or_iff_right hrows, hmin]
    constructor
    · rintro (h | h | h)
      · exact .inl h
      · omega
      · exact .inr (h.perm hperm)
    · rintro (h | h)
      · exact .inl h
      · exact .inr (.inr (h.perm hperm.symm))

theorem map_directRow_iff (h : Stores db rows) {l l' : List (Row t)} (hl : ∀ row ∈ l, row ∈ rows)
    (hl' : ∀ row ∈ l', row ∈ rows) : l.map directRow = l'.map directRow ↔ l = l' := by
  refine ⟨fun heq => ?_, fun heq => by rw [heq]⟩
  have hlen : l.length = l'.length := by simpa using congrArg List.length heq
  apply ext_getElem hlen
  intro i hi hi'
  have hrow : (l.map directRow)[i]? = (l'.map directRow)[i]? := by rw [heq]
  rw [List.getElem?_map, List.getElem?_map, List.getElem?_eq_getElem hi,
    List.getElem?_eq_getElem hi'] at hrow
  exact directRow_inj h (hl _ (getElem_mem hi)) (hl' _ (getElem_mem hi'))
    (Option.some.inj hrow)

/-- The page of a query whose rows are `l`. -/
theorem sliceOf_iff (h : Stores db rows) {l : List (Row t)} (hl : ∀ row ∈ l, row ∈ rows)
    (hlimit : q.limitCond.limited = true) (hseen : SeenAsRequested q l)
    (hanswer : answer noReturn db q =
      some (((heapRows noReturn q l).drop q.start).reverse.map directRow)) :
    SliceOf noReturn db q l ↔ PageExact q l := by
  obtain ⟨-, hperm⟩ := seenSorted_spec noReturn q l
  have hlen := hperm.length_eq
  have hslices : SliceOf noReturn db q l ↔ ∃ L : List (Row t), L.Perm l ∧
      SortedFor (requestedOrder q.orderbyFields) L ∧ (L.drop q.start).take q.step =
        (seenSorted noReturn q l).take (min q.limitCond.heapSize l.length - q.start) := by
    refine exists_congr fun L => and_congr_right fun hL => and_congr_right fun _ => ?_
    rw [hanswer, drop_heapRows, Option.some_inj, map_directRow_iff h, eq_comm]
    · exact fun row hrow => hl row (hperm.mem_iff.mp (mem_of_mem_take hrow))
    · exact fun row hrow =>
        hl row (hL.mem_iff.mp (mem_of_mem_drop (mem_of_mem_take hrow)))
  have hbelongs := rowsBelong_iff noReturn (heapSize_eq hlimit).1 hseen
  have hlength : ((seenSorted noReturn q l).take
      (min q.limitCond.heapSize l.length - q.start)).length = min q.step (l.length - q.start) ↔
      q.start + q.step < 2 ^ 31 ∨ l.length ≤ q.start + q.step := by
    rw [← length_page_iff hlimit, length_take, hlen]
    omega
  have hsub : ((seenSorted noReturn q l).take
      (min q.limitCond.heapSize l.length - q.start)).Subperm l :=
    (take_sublist _ _).subperm.trans hperm.subperm
  rw [hslices, exists_slice_iff, hlength]
  constructor
  · rintro ⟨-, hsize, hpage⟩
    have hk := (length_page_iff hlimit _).mpr hsize
    rw [hk] at hpage
    refine ⟨hsize, hbelongs.mp fun j row hj hrow => ?_⟩
    obtain ⟨hlt, rfl⟩ := List.getElem?_eq_some_iff.mp hrow
    have := hpage j (by rw [length_take]; omega)
    rwa [getElem_take] at this
  · intro hexact
    have hk := (length_page_iff hlimit _).mpr hexact.size
    refine ⟨hsub, hexact.size, fun j hj => ?_⟩
    rw [length_take, hk] at hj
    rw [getElem_take]
    exact hbelongs.mpr hexact.skipped j _ (by omega) (List.getElem?_eq_getElem _)

theorem sliceOf_perm {l l' : List (Row t)} (h : l.Perm l') (hl : SliceOf noReturn db q l) :
    SliceOf noReturn db q l' := by
  obtain ⟨L, hL, hsorted, hanswer⟩ := hl
  exact ⟨L, hL.trans h, hsorted, hanswer⟩

theorem behindKey_eq_lastKey (hstop : ∀ row ∈ rows, rowVerdict row ≠ .stop) (fullKey : Bytes) :
    behindKey rowVerdict rows fullKey = lastKey rows fullKey := by
  induction rows generalizing fullKey with
  | nil => rfl
  | cons row rows ih =>
    obtain ⟨hrow, hrows⟩ := forall_mem_cons.mp hstop
    rw [behindKey, if_neg hrow, ih hrows, lastKey_cons]

/-- Where the scan is exact, the rows that a query reaches are the matching ones. -/
theorem perm_reachedRows (ht : t.StringKey) (h : Stores db rows)
    (hanalyse : analysePrimaryKeyConds fieldConds = some (c :: primaryKeyConds, conds))
    (hexact : RangeExact rows fieldConds c primaryKeyConds conds) :
    (reachedRows rows c primaryKeyConds conds).Perm (rows.filter (meetsDirect fieldConds)) := by
  have hstart : rangeStart rows c = startKey rows c := by
    rw [rangeStart, startKey]
    split_ifs with hle
    · rw [behindKey_eq_lastKey, equalRows_eq ht h]
      intro row hrow
      rw [equalRows_eq ht h] at hrow
      rw [equalVerdict, if_pos (mem_filter.mp hrow).2]
      decide
    · rfl
  have hvisited : reachedRows rows c primaryKeyConds conds =
      visitedRows rows c primaryKeyConds conds := by
    rw [reachedRows, visitedRows, hstart, accepted_equalRows ht h, equalPassing, scanRows]
  rw [hvisited]
  exact hexact.perm ht h hanalyse

/-- When a query with `ORDER BY` and `LIMIT` returns the page that is asked for, if the scan sees
the matching rows and the comparator orders them as it is asked for. -/
theorem pageOk_iff (noReturn : Bool) (db : Db) (rows : List (Row t)) (h : Stores db rows)
    (ht : t.StringKey) (q : Query t) (horder : q.orderbyFields ≠ [])
    (hlimit : q.limitCond.limited = true) (c : Cond t) (primaryKeyConds conds : List (Cond t))
    (hanalyse : analysePrimaryKeyConds q.fieldConds = some (c :: primaryKeyConds, conds))
    (hexact : RangeExact rows q.fieldConds c primaryKeyConds conds)
    (hseen : SeenAsRequested q (rows.filter (meetsDirect q.fieldConds))) :
    PageOk noReturn db rows q ↔ PageExact q (rows.filter (meetsDirect q.fieldConds)) := by
  have hperm := perm_reachedRows ht h hanalyse hexact
  have hslice := sliceOf_iff h (fun _ => mem_of_mem_reachedRows) hlimit
    (fun r hr r' hr' => hseen r (hperm.mem_iff.mp hr) r' (hperm.mem_iff.mp hr'))
    (answer_ordered noReturn h hanalyse hexact.value horder hlimit)
  exact ⟨fun hpage => (hslice.mp (sliceOf_perm hperm.symm hpage)).perm hperm,
    fun hpage => sliceOf_perm hperm (hslice.mpr (hpage.perm hperm.symm))⟩

/-- The rows from the key `"a"` on, by the second field. -/
def orderedQuery (limitStart : Int32) : Query twoKeyTable where
  fieldConds := [⟨0, some .ge, [97]⟩]
  orderbyFields := [(1, true)]
  limitCond := ⟨limitStart, 1⟩

theorem seenAsRequested_orderedQuery (limitStart : Int32) (l : List (Row twoKeyTable)) :
    SeenAsRequested (orderedQuery limitStart) l := by
  have hfields : twoKeyTable.valueFields = [] := by decide
  have htext : ∀ r : Row twoKeyTable, ∀ f ∈ (orderedQuery limitStart).orderbyFields,
      twoKeyTable.type f.1 = .string ∨ twoKeyTable.type f.1 = .binary → 0 ∉ r.str f.1 := by
    intro r f hf
    obtain rfl := mem_singleton.mp hf
    rintro (h | h) <;> cases h
  intro r _ r' _
  refine seenOrder_eq (fun f _ => ?_) (htext r) (htext r')
  rw [hfields]
  exact nofun

theorem meetsDirect_orderedQuery : ∀ row ∈ [twoKeyRow 1, twoKeyRow 2],
    rangeVerdict [⟨0, some .ge, [97]⟩] row = .accept ∧
      meetsDirect [⟨0, some .ge, [97]⟩] row = true := by
  simp only [forall_mem_cons]
  exact ⟨by decide +kernel, by decide +kernel, forall_mem_nil _⟩

theorem pageOk_orderedQuery :
    PageOk false twoKeyDb [twoKeyRow 1, twoKeyRow 2] (orderedQuery 0) := by
  have hanalyse : analysePrimaryKeyConds (orderedQuery 0).fieldConds =
      some ([⟨0, some .ge, [97]⟩], []) := by
    simp [analysePrimaryKeyConds, orderedQuery]
  have hexact : RangeExact [twoKeyRow 1, twoKeyRow 2] (orderedQuery 0).fieldConds
      ⟨0, some .ge, [97]⟩ [] [] := by
    refine .of_accepts (by decide) (by decide) fun row hrow => ?_
    exact ⟨(meetsDirect_orderedQuery row hrow).1, (meetsDirect_orderedQuery row hrow).2.symm⟩
  exact (pageOk_iff false twoKeyDb _ stores_twoKeyDb (.inl rfl) (orderedQuery 0) (by decide)
    (by decide) _ _ _ hanalyse hexact (seenAsRequested_orderedQuery 0 _)).mpr
      ⟨.inl (by decide), .inl rfl⟩

/-- Both rows match, and the second page holds the first row. -/
theorem not_pageOk_orderedQuery :
    ¬ PageOk false twoKeyDb [twoKeyRow 1, twoKeyRow 2] (orderedQuery 1) := by
  have hmatch : [twoKeyRow 1, twoKeyRow 2].filter (meetsDirect (orderedQuery 1).fieldConds) =
      [twoKeyRow 1, twoKeyRow 2] :=
    filter_eq_self.mpr fun row hrow => (meetsDirect_orderedQuery row hrow).2
  rw [PageOk, hmatch]
  intro h
  have hexact := (sliceOf_iff stores_twoKeyDb (fun _ h => h) (by decide)
    (seenAsRequested_orderedQuery 1 _) (by decide +kernel)).mp h
  rcases hexact.skipped with h | h | ⟨a, ha, hnone, hcount⟩
  · exact absurd h (by decide)
  · exact absurd h (by decide)
  · rcases mem_cons.mp ha with rfl | ha
    · exact absurd hcount (by decide +kernel)
    · obtain rfl := mem_singleton.mp ha
      exact absurd hnone (by decide +kernel)

end ISearch.DirectQuery

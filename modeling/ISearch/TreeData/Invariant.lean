import ISearch.TreeData.Defs
import ISearch.TTree.Run
import ISearch.TTree.Nodes
import Mathlib.Data.List.Nodup
import Mathlib.Algebra.Order.BigOperators.Group.List

/-!
# The invariant of a tree node

The records of the live handles are those of the T-tree, each under the index value all its rows
share. `Inv` leaves out whether a record has rows: while a request empties a record, the T-tree
still holds it. Each primitive of the engine has one lemma that says what it does to the handles,
the records and the rows.
-/

namespace ISearch.TreeData

open TTree BufferProcess Function List

variable {K R : Type} [LinearOrder K] {T : Table K R} {env : Mallocator} {st st' : State K R}

/-- `KeyCompare` decides the order of the index values, also as the `int` most callers store. -/
structure Table.Orders (T : Table K R) : Prop where
  asInt : OrdersAsInt T.keyCompare id
  zero : ∀ k, T.keyCompare k k = 0

namespace State

/-- The handles of the records in index order. -/
def handles (st : State K R) : List Handle := st.root.toList

/-- All rows, in index order. -/
def rows (st : State K R) : List (Row R) := st.handles.flatMap fun h => (st.mem h).rows

structure Inv (T : Table K R) (st : State K R) : Prop where
  shape : st.root.Shape
  sorted : SortedBy st.keyOf st.handles
  live_iff : ∀ h, st.live h = true ↔ h ∈ st.handles
  lt_calls : ∀ h ∈ st.handles, h < st.calls
  index : ∀ h ∈ st.handles, ∀ r ∈ (st.mem h).rows, T.index r.value = st.keyOf h
  fits : ∀ h ∈ st.handles, (st.mem h).dataSize T ≤ (st.mem h).chunkSize

/-- The chunks of the records and of the T-tree nodes. -/
def treeBytes (st : State K R) : Nat :=
  (st.handles.flatMap fun h => [(st.mem h).chunkSize]).sum + sizeofTtreeNode * st.root.nodes

/-- `m_treeSize` is the size of the chunks. -/
def Sized (st : State K R) : Prop := st.data.treeSize = .ofNat st.treeBytes

/-- Every record has a row. -/
def Full (st : State K R) : Prop := ∀ h ∈ st.handles, (st.mem h).rows ≠ []

end State

open State

theorem Table.Orders.pfComp (H : T.Orders) (st : State K R) :
    OrdersAsInt (st.pfComp T) st.keyOf where
  neg_iff k h := H.asInt.neg_iff k (st.keyOf h)
  zero_iff k h := H.asInt.zero_iff k (st.keyOf h)

theorem Table.Orders.zeroOnEqual (H : T.Orders) (st : State K R) : ZeroOnEqual (st.pfComp T) := by
  intro k h hz
  have heq : k = st.keyOf h := ((H.pfComp st).zero_iff k h).mp hz
  rw [State.pfComp, heq]
  exact H.zero _

theorem Table.Orders.keyCompare_eq_zero (H : T.Orders) (k k' : K) :
    T.keyCompare k k' = 0 ↔ k = k' := by
  constructor
  · intro h
    exact (H.asInt.zero_iff k k').mp (by rw [iDiff, h]; rfl)
  · rintro rfl
    exact H.zero k

/-- Rows of two numbers, indexed by the first. -/
def natTable : Table Nat (Nat × Nat) := ⟨Prod.fst, threeWay 0, fun _ => 8⟩

theorem natTable_orders : natTable.Orders where
  asInt := threeWay_orders (by decide)
  zero k := by simp [natTable, threeWay]

/-- An empty node whose members are zero. -/
def emptyNode : State Nat (Nat × Nat) := .init (fun _ => ⟨0, 0, []⟩) 0 0 false

theorem State.inv_init (T : Table K R) (mem : Handle → Record K R) (rowsInc dirtyRowsInc : Int)
    (async : Bool) : (State.init mem rowsInc dirtyRowsInc async).Inv T where
  shape := trivial
  sorted := .nil
  live_iff h := by simp [State.init, State.handles]
  lt_calls := nofun
  index := nofun
  fits := nofun

omit [LinearOrder K] in
theorem State.full_init (mem : Handle → Record K R) (rowsInc dirtyRowsInc : Int) (async : Bool) :
    (State.init mem rowsInc dirtyRowsInc async).Full := nofun

theorem State.Inv.find_eq_some (H : T.Orders) (hinv : st.Inv T) {k : K} {h : Handle} :
    st.find T k = some h ↔ h ∈ st.handles ∧ st.keyOf h = k :=
  TtreeNode.find_spec (H.pfComp st) hinv.shape hinv.sorted k h

theorem State.Inv.find_eq_none (H : T.Orders) (hinv : st.Inv T) {k : K} :
    st.find T k = none ↔ ∀ h ∈ st.handles, st.keyOf h ≠ k := by
  constructor
  · intro hnone h hh hk
    rw [(hinv.find_eq_some H).mpr ⟨hh, hk⟩] at hnone
    cases hnone
  · intro hne
    cases hf : st.find T k with
    | none => rfl
    | some h =>
      obtain ⟨hh, hk⟩ := (hinv.find_eq_some H).mp hf
      exact absurd hk (hne h hh)

theorem State.Inv.not_mem_calls (hinv : st.Inv T) : st.calls ∉ st.handles := fun h =>
  absurd (hinv.lt_calls _ h) (lt_irrefl _)

theorem State.Inv.congr (hinv : st.Inv T) (hroot : st'.root = st.root) (hmem : st'.mem = st.mem)
    (hlive : st'.live = st.live) (hcalls : st'.calls = st.calls) : st'.Inv T := by
  obtain ⟨root, mem, live, calls, data, affectedRows, rowsInc, dirtyRowsInc, async⟩ := st'
  subst hroot hmem hlive hcalls
  exact ⟨hinv.shape, hinv.sorted, hinv.live_iff, hinv.lt_calls, hinv.index, hinv.fits⟩

theorem toList_replaceItem (old new : Handle) (t : TtreeNode Handle) :
    (replaceItem old new t).toList = t.toList.map fun h => if h = old then new else h := by
  induction t with
  | nil => rfl
  | node l r b items ihl ihr => simp [replaceItem, ihl, ihr]

theorem height_replaceItem (old new : Handle) (t : TtreeNode Handle) :
    (replaceItem old new t).height = t.height := by
  induction t with
  | nil => rfl
  | node l r b items ihl ihr => simp [replaceItem, ihl, ihr]

theorem nodes_replaceItem (old new : Handle) (t : TtreeNode Handle) :
    (replaceItem old new t).nodes = t.nodes := by
  induction t with
  | nil => rfl
  | node l r b items ihl ihr => simp [replaceItem, ihl, ihr]

theorem shape_replaceItem (old new : Handle) {t : TtreeNode Handle} (h : t.Shape) :
    (replaceItem old new t).Shape := by
  induction t with
  | nil => trivial
  | node l r b items ihl ihr =>
    obtain ⟨hocc, hbal, hl, hr⟩ := h
    refine ⟨by simpa using hocc, ?_, ihl hl, ihr hr⟩
    rwa [height_replaceItem, height_replaceItem]

theorem replaceItem_self (h : Handle) (t : TtreeNode Handle) : replaceItem h h t = t := by
  induction t with
  | nil => rfl
  | node l r b items ihl ihr =>
    have hid : (fun g => if g = h then h else g) = id := by
      funext g
      by_cases hg : g = h <;> simp [hg]
    rw [replaceItem, ihl, ihr, hid, map_id]

section DataSize

omit [LinearOrder K]

variable {record : Record K R}

theorem dataSize_eraseIdx_le (T : Table K R) (record : Record K R) (pos : Nat) :
    (record.setRows T (record.rows.eraseIdx pos)).dataSize T ≤ record.dataSize T := by
  refine Nat.add_le_add_left ?_ headerSize
  exact ((eraseIdx_sublist record.rows pos).map _).sum_le_sum fun _ _ => Nat.zero_le _

theorem dataSize_set {pos : Nat} {row : Row R} (T : Table K R) (chunkSize : Nat) (row' : Row R)
    (hrow : record.rows[pos]? = some row) :
    (Record.setRows T { record with chunkSize } (record.rows.set pos row')).dataSize T +
      T.rowSize row.value = record.dataSize T + T.rowSize row'.value := by
  obtain ⟨hpos, hget⟩ := List.getElem?_eq_some_iff.mp hrow
  have hold : record.rows = record.rows.take pos ++ row :: record.rows.drop (pos + 1) := by
    rw [← hget, ← drop_eq_getElem_cons hpos, take_append_drop]
  have hnew : record.rows.set pos row' =
      record.rows.take pos ++ row' :: record.rows.drop (pos + 1) :=
    set_eq_take_append_cons_drop.trans (if_pos hpos)
  simp only [Record.dataSize, Record.setRows]
  rw [hnew]
  conv_rhs => rw [hold]
  simp only [map_append, map_cons, sum_append, sum_cons]
  omega

theorem dataSize_append (T : Table K R) (chunkSize : Nat) (record : Record K R) (row : Row R) :
    (Record.setRows T { record with chunkSize } (record.rows ++ [row])).dataSize T =
      record.dataSize T + T.rowSize row.value := by
  simp only [Record.dataSize, Record.setRows, map_append, map_cons, map_nil,
    sum_append, sum_cons, sum_nil]
  omega

end DataSize

/-! ## What a primitive does to the records -/

/-- The rows `old` are replaced by the rows `new`, the others stay in place. -/
def RowsChange (st st' : State K R) (old new : List (Row R)) : Prop :=
  ∃ a b, st.rows = a ++ old ++ b ∧ st'.rows = a ++ new ++ b

/-- The record of `h` is rewritten, and its handle is `h'` then. -/
structure Rewrites (st : State K R) (h h' : Handle) (record : Record K R) (st' : State K R) :
    Prop where
  root : st'.root = replaceItem h h' st.root
  mem : st'.mem = update st.mem h' record
  live : st'.live = update (update st.live h false) h' true
  fresh : h' = h ∨ h' = st.calls
  calls : st.calls ≤ st'.calls
  lt_calls : h' < st'.calls

namespace Rewrites

variable {h h' : Handle} {record : Record K R}

omit [LinearOrder K] in
theorem handles (hw : Rewrites st h h' record st') :
    st'.handles = st.handles.map fun g => if g = h then h' else g := by
  rw [State.handles, hw.root, toList_replaceItem]
  rfl

omit [LinearOrder K] in
theorem mem_self (hw : Rewrites st h h' record st') : st'.mem h' = record := by
  rw [hw.mem, update_self]

omit [LinearOrder K] in
theorem mem_of_ne (hw : Rewrites st h h' record st') {g : Handle} (hg : g ≠ h') :
    st'.mem g = st.mem g := by
  rw [hw.mem, update_of_ne hg]

theorem ne_of_mem (hw : Rewrites st h h' record st') (hinv : st.Inv T) {g : Handle}
    (hg : g ∈ st.handles) (hne : g ≠ h) : g ≠ h' := by
  rintro rfl
  rcases hw.fresh with heq | heq
  · exact hne heq
  · exact hinv.not_mem_calls (heq ▸ hg)

omit [LinearOrder K] in
theorem mem_handles (hw : Rewrites st h h' record st') (hh : h ∈ st.handles) :
    h' ∈ st'.handles := by
  rw [hw.handles]
  exact mem_map.mpr ⟨h, hh, if_pos rfl⟩

omit [LinearOrder K] in
/-- A handle of the new node is the renamed one or another one from before. -/
theorem mem_handles_iff (hw : Rewrites st h h' record st') (hh : h ∈ st.handles) {g : Handle} :
    g ∈ st'.handles ↔ g = h' ∨ g ∈ st.handles ∧ g ≠ h := by
  rw [hw.handles, mem_map]
  constructor
  · rintro ⟨x, hx, rfl⟩
    by_cases hxh : x = h
    · exact .inl (if_pos hxh)
    · rw [if_neg hxh]
      exact .inr ⟨hx, hxh⟩
  · rintro (rfl | ⟨hg, hne⟩)
    · exact ⟨h, hh, if_pos rfl⟩
    · exact ⟨g, hg, if_neg hne⟩

theorem keyOf_rename (hw : Rewrites st h h' record st') (hinv : st.Inv T)
    (hkey : record.key = st.keyOf h) {g : Handle} (hg : g ∈ st.handles) :
    st'.keyOf (if g = h then h' else g) = st.keyOf g := by
  by_cases hgh : g = h
  · rw [if_pos hgh, State.keyOf, hw.mem_self, hkey, hgh]
  · rw [if_neg hgh, State.keyOf, hw.mem_of_ne (hw.ne_of_mem hinv hg hgh), State.keyOf]

theorem inv (hw : Rewrites st h h' record st') (hinv : st.Inv T) (hh : h ∈ st.handles)
    (hkey : record.key = st.keyOf h)
    (hindex : ∀ r ∈ record.rows, T.index r.value = record.key)
    (hfits : record.dataSize T ≤ record.chunkSize) : st'.Inv T where
  shape := hw.root ▸ shape_replaceItem h h' hinv.shape
  sorted := by
    rw [hw.handles, SortedBy, pairwise_map]
    refine hinv.sorted.imp_of_mem fun ha hb hlt => ?_
    rwa [hw.keyOf_rename hinv hkey ha, hw.keyOf_rename hinv hkey hb]
  live_iff g := by
    rw [hw.mem_handles_iff hh, hw.live]
    by_cases hg : g = h'
    · simp [hg]
    · rw [update_of_ne hg]
      by_cases hgh : g = h
      · subst hgh
        simp [hg]
      · rw [update_of_ne hgh, hinv.live_iff]
        simp [hg, hgh]
  lt_calls g hg := by
    rcases (hw.mem_handles_iff hh).mp hg with rfl | ⟨hg, -⟩
    · exact hw.lt_calls
    · exact (hinv.lt_calls g hg).trans_le hw.calls
  index g hg r hr := by
    rcases (hw.mem_handles_iff hh).mp hg with rfl | ⟨hg, hne⟩
    · rw [hw.mem_self] at hr
      rw [State.keyOf, hw.mem_self]
      exact hindex r hr
    · have hgh' : g ≠ h' := hw.ne_of_mem hinv hg hne
      rw [hw.mem_of_ne hgh'] at hr
      rw [State.keyOf, hw.mem_of_ne hgh']
      exact hinv.index g hg r hr
  fits g hg := by
    rcases (hw.mem_handles_iff hh).mp hg with rfl | ⟨hg, hne⟩
    · rw [hw.mem_self]
      exact hfits
    · rw [hw.mem_of_ne (hw.ne_of_mem hinv hg hne)]
      exact hinv.fits g hg

/-- What is read off the records, in index order, changes at the record of `h`. -/
theorem flatMap (hw : Rewrites st h h' record st') (hinv : st.Inv T) (hh : h ∈ st.handles)
    {A : Type} (f : Record K R → List A) :
    ∃ a b, st.handles.flatMap (fun g => f (st.mem g)) = a ++ f (st.mem h) ++ b ∧
      st'.handles.flatMap (fun g => f (st'.mem g)) = a ++ f record ++ b := by
  obtain ⟨a, b, hab⟩ := append_of_mem hh
  have hnodup := hinv.sorted.nodup
  rw [hab, nodup_middle, nodup_cons] at hnodup
  have hsame : ∀ g ∈ a ++ b, (if g = h then h' else g) = g ∧ st'.mem g = st.mem g := by
    intro g hg
    have hne : g ≠ h := fun heq => hnodup.1 (heq ▸ hg)
    have hgm : g ∈ st.handles := by
      rw [hab]
      rcases mem_append.mp hg with hg | hg
      · exact mem_append_left _ hg
      · exact mem_append_right _ (mem_cons_of_mem _ hg)
    exact ⟨if_neg hne, hw.mem_of_ne (hw.ne_of_mem hinv hgm hne)⟩
  have hpart : ∀ l : List Handle, l ⊆ a ++ b →
      ((l.map fun g => if g = h then h' else g).flatMap fun g => f (st'.mem g)) =
        l.flatMap fun g => f (st.mem g) := by
    intro l hl
    rw [flatMap_map]
    refine flatMap_congr fun g hg => ?_
    rw [(hsame g (hl hg)).1, (hsame g (hl hg)).2]
  refine ⟨a.flatMap fun g => f (st.mem g), b.flatMap fun g => f (st.mem g), ?_, ?_⟩
  · rw [hab]
    simp
  · rw [hw.handles, hab, map_append, map_cons, if_pos rfl,
      flatMap_append, flatMap_cons, hw.mem_self, hpart a (by simp), hpart b (by simp)]
    simp

theorem rowsChange (hw : Rewrites st h h' record st') (hinv : st.Inv T) (hh : h ∈ st.handles) :
    RowsChange st st' (st.mem h).rows record.rows :=
  hw.flatMap hinv hh Record.rows

theorem treeBytes (hw : Rewrites st h h' record st') (hinv : st.Inv T) (hh : h ∈ st.handles) :
    st'.treeBytes + (st.mem h).chunkSize = st.treeBytes + record.chunkSize := by
  obtain ⟨a, b, hst, hst'⟩ := hw.flatMap hinv hh fun record => [record.chunkSize]
  rw [State.treeBytes, State.treeBytes, hst, hst', hw.root, nodes_replaceItem]
  simp only [sum_append, sum_singleton]
  omega

theorem sized (hw : Rewrites st h h' record st') (hinv : st.Inv T) (hh : h ∈ st.handles)
    (hsize : st'.data.treeSize = st.data.treeSize - .ofNat (st.mem h).chunkSize +
      .ofNat record.chunkSize) (hsized : st.Sized) : st'.Sized := by
  have hbytes := congrArg UInt32.ofNat (hw.treeBytes hinv hh)
  rw [UInt32.ofNat_add, UInt32.ofNat_add, ← hsized] at hbytes
  rw [State.Sized, hsize]
  grind

theorem full (hw : Rewrites st h h' record st') (hinv : st.Inv T) (hh : h ∈ st.handles)
    (hfull : st.Full) (hrows : record.rows ≠ []) : st'.Full := by
  intro g hg
  rcases (hw.mem_handles_iff hh).mp hg with rfl | ⟨hg, hne⟩
  · rwa [hw.mem_self]
  · rw [hw.mem_of_ne (hw.ne_of_mem hinv hg hne)]
    exact hfull g hg

end Rewrites

/-- A record is added under a new handle. -/
structure Adds (st : State K R) (record : Record K R) (st' : State K R) : Prop where
  shape : st'.root.Shape
  spliced : Spliced st'.keyOf st.calls st.handles st'.handles
  mem : st'.mem = update st.mem st.calls record
  live : st'.live = update st.live st.calls true
  calls : st.calls < st'.calls

namespace Adds

variable {record : Record K R}

theorem mem_of_mem (ha : Adds st record st') (hinv : st.Inv T) {g : Handle}
    (hg : g ∈ st.handles) : st'.mem g = st.mem g := by
  rw [ha.mem, update_of_ne]
  rintro rfl
  exact hinv.not_mem_calls hg

theorem mem_self (ha : Adds st record st') : st'.mem st.calls = record := by
  rw [ha.mem, update_self]

theorem inv (ha : Adds st record st') (hinv : st.Inv T)
    (hindex : ∀ r ∈ record.rows, T.index r.value = record.key)
    (hfits : record.dataSize T ≤ record.chunkSize) : st'.Inv T where
  shape := ha.shape
  sorted := by
    refine ha.spliced.sorted (hinv.sorted.imp_of_mem fun hx hy hlt => ?_)
    rwa [State.keyOf, State.keyOf, ha.mem_of_mem hinv hx, ha.mem_of_mem hinv hy]
  live_iff g := by
    rw [ha.live, ha.spliced.mem_iff]
    by_cases hg : g = st.calls
    · simp [hg]
    · rw [update_of_ne hg, hinv.live_iff]
      simp [hg]
  lt_calls g hg := by
    rcases ha.spliced.mem_iff.mp hg with rfl | hg
    · exact ha.calls
    · exact (hinv.lt_calls g hg).trans ha.calls
  index g hg r hr := by
    rcases ha.spliced.mem_iff.mp hg with rfl | hg
    · rw [ha.mem_self] at hr
      rw [State.keyOf, ha.mem_self]
      exact hindex r hr
    · rw [ha.mem_of_mem hinv hg] at hr
      rw [State.keyOf, ha.mem_of_mem hinv hg]
      exact hinv.index g hg r hr
  fits g hg := by
    rcases ha.spliced.mem_iff.mp hg with rfl | hg
    · rw [ha.mem_self]
      exact hfits
    · rw [ha.mem_of_mem hinv hg]
      exact hinv.fits g hg

theorem flatMap (ha : Adds st record st') (hinv : st.Inv T) {A : Type} (f : Record K R → List A) :
    ∃ a b, st.handles.flatMap (fun g => f (st.mem g)) = a ++ b ∧
      st'.handles.flatMap (fun g => f (st'.mem g)) = a ++ f record ++ b := by
  obtain ⟨a, b, hab, hab', -, -⟩ := ha.spliced
  have hpart : ∀ l : List Handle, l ⊆ a ++ b →
      (l.flatMap fun g => f (st'.mem g)) = l.flatMap fun g => f (st.mem g) := by
    intro l hl
    refine flatMap_congr fun g hg => ?_
    rw [ha.mem_of_mem hinv (hab ▸ hl hg)]
  refine ⟨a.flatMap fun g => f (st.mem g), b.flatMap fun g => f (st.mem g), ?_, ?_⟩
  · rw [hab, flatMap_append]
  · rw [hab', flatMap_append, flatMap_cons, ha.mem_self,
      hpart a (by simp), hpart b (by simp), append_assoc]

theorem rowsChange (ha : Adds st record st') (hinv : st.Inv T) :
    RowsChange st st' [] record.rows := by
  obtain ⟨a, b, hst, hst'⟩ := ha.flatMap hinv Record.rows
  exact ⟨a, b, by rw [State.rows, hst, append_nil], hst'⟩

theorem treeBytes (ha : Adds st record st') (hinv : st.Inv T) :
    st'.treeBytes + sizeofTtreeNode * st.root.nodes =
      st.treeBytes + record.chunkSize + sizeofTtreeNode * st'.root.nodes := by
  obtain ⟨a, b, hst, hst'⟩ := ha.flatMap hinv fun record => [record.chunkSize]
  rw [State.treeBytes, State.treeBytes, hst, hst']
  simp only [sum_append, sum_singleton]
  omega

end Adds

/-- The record of `h` is taken out of the T-tree and its chunk is freed. -/
structure Drops (st : State K R) (h : Handle) (st' : State K R) : Prop where
  shape : st'.root.Shape
  spliced : Spliced st.keyOf h st'.handles st.handles
  mem : st'.mem = st.mem
  live : st'.live = update st.live h false
  calls : st'.calls = st.calls

namespace Drops

variable {h : Handle}

theorem inv (hd : Drops st h st') (hinv : st.Inv T) : st'.Inv T where
  shape := hd.shape
  sorted := by
    have hkey : st'.keyOf = st.keyOf := by
      funext g
      rw [State.keyOf, State.keyOf, hd.mem]
    rw [hkey]
    exact hd.spliced.sorted_of hinv.sorted
  live_iff g := by
    rw [hd.live]
    by_cases hg : g = h
    · simp only [hg, update_self, Bool.false_eq_true, false_iff]
      exact fun hmem => hd.spliced.key_ne hmem rfl
    · rw [update_of_ne hg, hinv.live_iff, hd.spliced.mem_iff]
      simp [hg]
  lt_calls g hg := by
    rw [hd.calls]
    exact hinv.lt_calls g (hd.spliced.mem_iff.mpr (.inr hg))
  index g hg r hr := by
    rw [hd.mem] at hr
    rw [State.keyOf, hd.mem]
    exact hinv.index g (hd.spliced.mem_iff.mpr (.inr hg)) r hr
  fits g hg := by
    rw [hd.mem]
    exact hinv.fits g (hd.spliced.mem_iff.mpr (.inr hg))

theorem flatMap (hd : Drops st h st') {A : Type} (f : Record K R → List A) :
    ∃ a b, st.handles.flatMap (fun g => f (st.mem g)) = a ++ f (st.mem h) ++ b ∧
      st'.handles.flatMap (fun g => f (st'.mem g)) = a ++ b := by
  obtain ⟨a, b, hab', hab, -, -⟩ := hd.spliced
  refine ⟨a.flatMap fun g => f (st.mem g), b.flatMap fun g => f (st.mem g), ?_, ?_⟩
  · rw [hab, flatMap_append, flatMap_cons, append_assoc]
  · rw [hab', hd.mem, flatMap_append]

theorem rowsChange (hd : Drops st h st') : RowsChange st st' (st.mem h).rows [] := by
  obtain ⟨a, b, hst, hst'⟩ := hd.flatMap Record.rows
  exact ⟨a, b, hst, by rw [State.rows, hst', append_nil]⟩

theorem treeBytes (hd : Drops st h st') :
    st'.treeBytes + (st.mem h).chunkSize + sizeofTtreeNode * st.root.nodes =
      st.treeBytes + sizeofTtreeNode * st'.root.nodes := by
  obtain ⟨a, b, hst, hst'⟩ := hd.flatMap fun record => [record.chunkSize]
  rw [State.treeBytes, State.treeBytes, hst, hst']
  simp only [sum_append, sum_singleton]
  omega

theorem sized (hd : Drops st h st') {isFreeNode : Bool}
    (hsize : st'.data.treeSize = st.data.treeSize - .ofNat ((if isFreeNode then sizeofTtreeNode
      else 0) + (st.mem h).chunkSize))
    (hnodes : st'.root.nodes + (if isFreeNode then 1 else 0) = st.root.nodes)
    (hsized : st.Sized) : st'.Sized := by
  have hbytes := hd.treeBytes
  rw [← hnodes, Nat.mul_add] at hbytes
  have hfreed : sizeofTtreeNode * (if isFreeNode then 1 else 0) =
      if isFreeNode then sizeofTtreeNode else 0 := by
    cases isFreeNode <;> rfl
  rw [hfreed] at hbytes
  have hsum : st'.treeBytes + ((if isFreeNode then sizeofTtreeNode else 0) +
      (st.mem h).chunkSize) = st.treeBytes := by omega
  have hsum' := congrArg UInt32.ofNat hsum
  rw [UInt32.ofNat_add, ← hsized] at hsum'
  rw [State.Sized, hsize]
  grind

end Drops

end ISearch.TreeData

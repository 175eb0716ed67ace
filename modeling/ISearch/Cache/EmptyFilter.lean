import ISearch.Lib.Bitmap
import ISearch.Lib.Run
import Mathlib.Data.UInt

/-!
# The empty-node filter (`empty_filter.cc`)

Bitmaps that tell for which keys the database is known to have no rows: one table for every
remainder of the key, grown by reallocation when a bit behind its end is set. What the allocator
returns belongs to the call: the bytes of the new block, or a failure.
-/

namespace ISearch.EmptyFilter

open Function

/-- `none` is `INVALID_HANDLE`, which stands for no memory. -/
structure Table where
  handle : Option (Nat → UInt8) := none
  size : Nat := 0

structure EmptyNodeFilter where
  step : Nat
  mod : Nat
  tables : Nat → Table

namespace EmptyNodeFilter

def init (step mod : UInt32) : EmptyNodeFilter where
  step := if step = 0 then 512 else step.toNat
  mod := if mod = 0 then 30000 else mod.toNat
  tables _ := {}

def index (f : EmptyNodeFilter) (key : UInt32) : Nat := key.toNat % f.mod

def offset (f : EmptyNodeFilter) (key : UInt32) : Nat := key.toNat / f.mod

/-- The memory of a table is written; `none` where there is no memory. -/
def changeMem (f : EmptyNodeFilter) (n : Nat) (change : (Nat → UInt8) → Nat → UInt8) :
    Option EmptyNodeFilter :=
  (f.tables n).handle.map fun m =>
    { f with tables := update f.tables n { f.tables n with handle := some (change m) } }

/-- The bit of the key is behind the end of its table. -/
def Outside (f : EmptyNodeFilter) (key : UInt32) : Prop :=
  (f.tables (f.index key)).size < f.offset key / 8 + 1

instance (f : EmptyNodeFilter) (key : UInt32) : Decidable (f.Outside key) :=
  inferInstanceAs (Decidable (_ < _))

def isset (f : EmptyNodeFilter) (key : UInt32) : Option Bool :=
  if f.Outside key then some false
  else (f.tables (f.index key)).handle.map fun m => isBitSet m (f.offset key)

/-- The size that the table grows to, a multiple of the step more, in 32 bits. -/
def newSize (f : EmptyNodeFilter) (key : UInt32) : Nat :=
  let size := (f.tables (f.index key)).size
  let incbyte := f.offset key / 8 + 1 - size
  let how := (incbyte + f.step - 1) % 2 ^ 32 / f.step
  (size + how * f.step) % 2 ^ 32

/-- `M_REALLOC` keeps the old bytes; without a handle it is a plain allocation. -/
def realloc (t : Table) (fresh : Nat → UInt8) : Nat → UInt8 :=
  match t.handle with
  | some old => fun i => if i < t.size then old i else fresh i
  | none => fresh

/-- The table once `M_REALLOC` has answered the bytes `fresh`. A failed reallocation overwrites the
handle and keeps the size. -/
def grow (f : EmptyNodeFilter) (key : UInt32) (fresh : Option (Nat → UInt8)) : EmptyNodeFilter :=
  let t := f.tables (f.index key)
  let t' : Table := match fresh with
    | none => { t with handle := none }
    | some fresh => ⟨some (realloc t fresh), f.newSize key⟩
  { f with tables := update f.tables (f.index key) t' }

def set (f : EmptyNodeFilter) (key : UInt32) (fresh : Option (Nat → UInt8)) :
    Option EmptyNodeFilter :=
  if f.Outside key then
    let f' := f.grow key fresh
    if fresh.isNone then some f'
    else f'.changeMem (f.index key) (setBit · (f.offset key))
  else f.changeMem (f.index key) (setBit · (f.offset key))

def clr (f : EmptyNodeFilter) (key : UInt32) : Option EmptyNodeFilter :=
  if f.Outside key then some f
  else f.changeMem (f.index key) (clearBit · (f.offset key))

end EmptyNodeFilter

/-! ## The set of keys -/

inductive Call
  | set (key : UInt32) (fresh : Option (Nat → UInt8))
  | clr (key : UInt32)
  | isset (key : UInt32)

/-- The filter, and the set of keys that it stands for. -/
structure State where
  filter : EmptyNodeFilter
  keys : UInt32 → Bool := fun _ => false

namespace State

/-- A `SET` whose growth fails sets nothing. -/
def step (s : State) : Call → Option State
  | .set key fresh => (s.filter.set key fresh).map fun filter =>
    { filter
      keys := if s.filter.Outside key ∧ fresh.isNone then s.keys
        else update s.keys key true }
  | .clr key => (s.filter.clr key).map fun filter =>
    { filter, keys := update s.keys key false }
  | .isset key => (s.filter.isset key).map fun _ => s

/-- The answers are those of the set. -/
def Exact (s : State) : Prop := ∀ key, s.filter.isset key = some (s.keys key)

/-- A table that grows gets no bit of another key, and growth fails only for a table without
bytes. -/
def Clean (s : State) : Call → Prop
  | .set key fresh => s.filter.Outside key →
    match fresh with
    | none => (s.filter.tables (s.filter.index key)).size = 0
    | some fresh => ∀ key', key' ≠ key → s.filter.index key' = s.filter.index key →
        (s.filter.tables (s.filter.index key)).size ≤ s.filter.offset key' / 8 →
        s.filter.offset key' / 8 < s.filter.newSize key →
        isBitSet fresh (s.filter.offset key') = false
  | _ => True

end State

namespace EmptyNodeFilter

variable {f : EmptyNodeFilter} {key key' : UInt32}

theorem key_eq (hi : f.index key' = f.index key) (ho : f.offset key' = f.offset key) :
    key' = key := by
  apply UInt32.toNat_inj.mp
  rw [← Nat.div_add_mod key'.toNat f.mod, ← Nat.div_add_mod key.toNat f.mod]
  rw [index, index] at hi
  rw [offset, offset] at ho
  rw [hi, ho]

/-- The table grows as far as the bit needs. -/
theorem newSize_spec (hpos : 0 < f.step) (hstep : f.step ≤ 2 ^ 31) (h : f.Outside key) :
    f.offset key / 8 < f.newSize key ∧ (f.tables (f.index key)).size ≤ f.newSize key := by
  have hoff : f.offset key < 2 ^ 32 := lt_of_le_of_lt (Nat.div_le_self _ _) key.toNat_lt
  rw [Outside] at h
  rw [newSize]
  generalize (f.tables (f.index key)).size = size at h ⊢
  obtain ⟨incbyte, hinc⟩ : ∃ n, f.offset key / 8 + 1 - size = n := ⟨_, rfl⟩
  have hround := Nat.div_add_mod (incbyte + f.step - 1) f.step
  have hrem := Nat.mod_lt (incbyte + f.step - 1) hpos
  have hmod : (incbyte + f.step - 1) % 2 ^ 32 = incbyte + f.step - 1 := Nat.mod_eq_of_lt (by omega)
  rw [mul_comm] at hround
  simp only [hinc, hmod]
  generalize (incbyte + f.step - 1) / f.step * f.step = grown at hround ⊢
  rw [Nat.mod_eq_of_lt (by omega)]
  omega

/-- The answer from one table. -/
def Table.isset (t : Table) (i : Nat) : Option Bool :=
  if t.size < i / 8 + 1 then some false else t.handle.map fun m => isBitSet m i

theorem isset_eq (f : EmptyNodeFilter) (key : UInt32) :
    f.isset key = Table.isset (f.tables (f.index key)) (f.offset key) := rfl

/-- Every table has a block, unless it has no bytes. -/
def Valid (f : EmptyNodeFilter) : Prop :=
  ∀ t, (f.tables t).handle = none → (f.tables t).size = 0

/-- A table is replaced by another one. -/
theorem isset_update (f : EmptyNodeFilter) (t : Table) (n : Nat) :
    ({ f with tables := update f.tables n t } : EmptyNodeFilter).isset key' =
      if f.index key' = n then Table.isset t (f.offset key') else f.isset key' := by
  rw [isset_eq, isset_eq]
  by_cases hn : f.index key' = n
  · subst hn
    rw [if_pos rfl]
    change Table.isset (update f.tables (f.index key') t (f.index key')) _ = _
    rw [update_self]
    rfl
  · rw [if_neg hn]
    change Table.isset (update f.tables n t (f.index key')) _ = _
    rw [update_of_ne hn]
    rfl

theorem valid_update (hf : f.Valid) {t : Table} (ht : t.handle = none → t.size = 0) (n : Nat) :
    ({ f with tables := update f.tables n t } : EmptyNodeFilter).Valid := by
  intro n'
  by_cases hn : n' = n
  · subst hn
    change (update f.tables n' t n').handle = none →
      (update f.tables n' t n').size = 0
    rwa [update_self]
  · change (update f.tables n t n').handle = none →
      (update f.tables n t n').size = 0
    rw [update_of_ne hn]
    exact hf n'

/-- Inside of the table the bit of the key alone changes. -/
theorem isset_changeMem (hf : f.Valid) (h : ¬f.Outside key) {change : (Nat → UInt8) → Nat → UInt8}
    {b : Bool} (hkey : ∀ m, isBitSet (change m) (f.offset key) = b)
    (hother : ∀ m i, i ≠ f.offset key → isBitSet (change m) i = isBitSet m i) :
    ∃ f', f.changeMem (f.index key) change = some f' ∧ f'.step = f.step ∧ f'.Valid ∧
      ∀ key', f'.isset key' = if key' = key then some b else f.isset key' := by
  have hsize : f.offset key / 8 + 1 ≤ (f.tables (f.index key)).size := not_lt.mp h
  obtain ⟨m, hm⟩ : ∃ m, (f.tables (f.index key)).handle = some m := by
    refine Option.ne_none_iff_exists'.mp fun hnone => ?_
    have hzero := hf _ hnone
    omega
  rw [changeMem, hm]
  refine ⟨_, rfl, rfl, valid_update (t := ⟨some _, _⟩) hf nofun _, fun key' => ?_⟩
  rw [isset_update]
  by_cases hi : f.index key' = f.index key
  · rw [if_pos hi, Table.isset]
    by_cases hk : key' = key
    · subst hk
      rw [if_pos rfl]
      exact (if_neg h).trans (congrArg some (hkey m))
    · have ho : f.offset key' ≠ f.offset key := fun ho => hk (key_eq hi ho)
      simp only [if_neg hk, isset, Outside, hi, hm, Option.map_some, hother _ _ ho]
  · have hk : key' ≠ key := fun hk => hi (hk ▸ rfl)
    rw [if_neg hi, if_neg hk]

theorem isset_setBit (hf : f.Valid) (h : ¬f.Outside key) :
    ∃ f', f.changeMem (f.index key) (setBit · (f.offset key)) = some f' ∧ f'.step = f.step ∧
      f'.Valid ∧ ∀ key', f'.isset key' = if key' = key then some true else f.isset key' := by
  refine isset_changeMem hf h (fun m => ?_) (fun m i hi => ?_)
  · rw [isBitSet_setBit, decide_eq_true rfl, Bool.true_or]
  · rw [isBitSet_setBit, decide_eq_false (Ne.symm hi), Bool.false_or]

theorem isset_clearBit (hf : f.Valid) (h : ¬f.Outside key) :
    ∃ f', f.changeMem (f.index key) (clearBit · (f.offset key)) = some f' ∧ f'.step = f.step ∧
      f'.Valid ∧ ∀ key', f'.isset key' = if key' = key then some false else f.isset key' := by
  refine isset_changeMem hf h (fun m => ?_) (fun m i hi => ?_)
  · rw [isBitSet_clearBit, decide_eq_true rfl, Bool.not_true, Bool.false_and]
  · rw [isBitSet_clearBit, decide_eq_false (Ne.symm hi), Bool.not_false, Bool.true_and]

/-- A failure on a table without bytes changes nothing. -/
theorem isset_grow_none (hf : f.Valid) (h : (f.tables (f.index key)).size = 0) :
    (f.grow key none).Valid ∧ ∀ key', (f.grow key none).isset key' = f.isset key' := by
  refine ⟨valid_update (t := ⟨none, _⟩) hf (fun _ => h) _, fun key' => ?_⟩
  rw [grow, isset_update]
  split
  · rename_i hi
    rw [isset_eq, hi, Table.isset, Table.isset, h]
    simp
  · rfl

/-- A table that grew by clean bytes, with the bit of the key set. -/
theorem isset_grow_some (hf : f.Valid) (hpos : 0 < f.step) (hstep : f.step ≤ 2 ^ 31)
    (h : f.Outside key) {fresh : Nat → UInt8}
    (hclean : ∀ key', key' ≠ key → f.index key' = f.index key →
      (f.tables (f.index key)).size ≤ f.offset key' / 8 →
      f.offset key' / 8 < f.newSize key → isBitSet fresh (f.offset key') = false) :
    (f.grow key (some fresh)).Valid ∧ ¬(f.grow key (some fresh)).Outside key ∧
      ∀ key', key' ≠ key → (f.grow key (some fresh)).isset key' = f.isset key' := by
  obtain ⟨hnew, hold⟩ := newSize_spec hpos hstep h
  simp only [grow]
  refine ⟨valid_update (t := ⟨some _, _⟩) hf nofun _, ?_, fun key' hk => ?_⟩
  · change ¬(update f.tables (f.index key) _ (f.index key)).size < f.offset key / 8 + 1
    rw [update_self]
    exact not_lt.mpr hnew
  rw [isset_update]
  split
  · rename_i hi
    have hclean := hclean key' hk hi
    have hvalid := hf (f.index key)
    rw [isset_eq, hi]
    generalize f.tables (f.index key) = t at hold hvalid hclean ⊢
    obtain ⟨handle, size⟩ := t
    rw [Table.isset, Table.isset]
    by_cases hout : f.newSize key < f.offset key' / 8 + 1
    · have hlt : size < f.offset key' / 8 + 1 := lt_of_le_of_lt hold hout
      rw [if_pos hout, if_pos hlt]
    rw [if_neg hout]
    by_cases hlt : size < f.offset key' / 8 + 1
    · rw [if_pos hlt]
      have hbit := hclean (Nat.le_of_lt_succ hlt) (by omega)
      cases handle with
      | none => exact congrArg some hbit
      | some old =>
        have hge : ¬f.offset key' / 8 < size := by omega
        simpa [realloc, isBitSet, hge] using hbit
    · rw [if_neg hlt]
      cases handle with
      | none =>
        have := hvalid rfl
        simp only at this
        omega
      | some old =>
        have hin : f.offset key' / 8 < size := by omega
        simp [realloc, isBitSet, hin]
  · rfl

end EmptyNodeFilter

namespace State

variable {s : State}

/-- The parameters are usable, every table has its block, and the answers are those of the set. -/
structure Inv (s : State) : Prop where
  pos : 0 < s.filter.step
  bound : s.filter.step ≤ 2 ^ 31
  valid : s.filter.Valid
  exact : s.Exact

/-- A call that replaces the filter but not its parameters. -/
theorem Inv.of_isset (hs : s.Inv) {s' : State} (hparam : s'.filter.step = s.filter.step)
    (hvalid : s'.filter.Valid) (hexact : s'.Exact) : s'.Inv :=
  ⟨by rw [hparam]; exact hs.pos, by rw [hparam]; exact hs.bound, hvalid, hexact⟩

theorem inv_set (hs : s.Inv) {key : UInt32} {fresh : Option (Nat → UInt8)}
    (hclean : s.Clean (.set key fresh)) : ∃ s', s.step (.set key fresh) = some s' ∧ s'.Inv := by
  by_cases hout : s.filter.Outside key
  · cases fresh with
    | none =>
      obtain ⟨hvalid, hsame⟩ := EmptyNodeFilter.isset_grow_none hs.valid (hclean hout)
      simp only [step, EmptyNodeFilter.set, hout, Option.isNone_none, if_true, and_self,
        Option.map_some]
      exact ⟨_, rfl, hs.of_isset rfl hvalid fun key' => (hsame key').trans (hs.exact key')⟩
    | some fresh =>
      obtain ⟨hvalid, hin, hsame⟩ :=
        EmptyNodeFilter.isset_grow_some hs.valid hs.pos hs.bound hout (hclean hout)
      obtain ⟨f', heq, hparam, hvalid', hset⟩ := EmptyNodeFilter.isset_setBit hvalid hin
      have hset' : s.filter.set key (some fresh) = some f' := by
        rw [EmptyNodeFilter.set, if_pos hout]
        exact heq
      rw [step, hset']
      refine ⟨_, rfl, hs.of_isset hparam hvalid' fun key' => (hset key').trans ?_⟩
      by_cases hk : key' = key
      · simp [hk]
      · simp [hk, hsame key' hk, hs.exact key']
  · obtain ⟨f', heq, hparam, hvalid, hset⟩ := EmptyNodeFilter.isset_setBit hs.valid hout
    rw [step, EmptyNodeFilter.set, if_neg hout, heq]
    refine ⟨_, rfl, hs.of_isset hparam hvalid fun key' => (hset key').trans ?_⟩
    by_cases hk : key' = key
    · simp [hk, hout]
    · simp [hk, hout, hs.exact key']

theorem inv_clr (hs : s.Inv) (key : UInt32) : ∃ s', s.step (.clr key) = some s' ∧ s'.Inv := by
  by_cases hout : s.filter.Outside key
  · rw [step, EmptyNodeFilter.clr, if_pos hout]
    refine ⟨_, rfl, hs.of_isset rfl hs.valid fun key' => ?_⟩
    by_cases hk : key' = key
    · subst hk
      simp [EmptyNodeFilter.isset, hout]
    · simp [hk, hs.exact key']
  · obtain ⟨f', heq, hparam, hvalid, hclr⟩ := EmptyNodeFilter.isset_clearBit hs.valid hout
    rw [step, EmptyNodeFilter.clr, if_neg hout, heq]
    refine ⟨_, rfl, hs.of_isset hparam hvalid fun key' => (hclr key').trans ?_⟩
    by_cases hk : key' = key
    · simp [hk]
    · simp [hk, hs.exact key']

theorem inv_step (hs : s.Inv) {c : Call} (hclean : s.Clean c) : ∃ s', s.step c = some s' ∧ s'.Inv := by
  cases c with
  | set key fresh => exact inv_set hs hclean
  | clr key => exact inv_clr hs key
  | isset key =>
    rw [step, hs.exact key]
    exact ⟨s, rfl, hs⟩

theorem inv_init {step mod : UInt32} (hstep : step ≤ 2 ^ 31) :
    (⟨EmptyNodeFilter.init step mod, fun _ => false⟩ : State).Inv := by
  refine ⟨?_, ?_, fun t _ => rfl, fun key => ?_⟩
  · simp only [EmptyNodeFilter.init]
    split
    · decide
    · rename_i hne
      exact Nat.pos_of_ne_zero fun h => hne (UInt32.toNat_inj.mp h)
  · simp only [EmptyNodeFilter.init]
    split
    · decide
    · exact UInt32.le_iff_toNat_le.mp hstep
  · simp [EmptyNodeFilter.isset, EmptyNodeFilter.Outside, EmptyNodeFilter.init]

end State

/-- The filter answers as the set of keys in every state of a run whose growing tables get clean
bytes, and no call of the run reads without memory. -/
theorem exact_along {step mod : UInt32} (hstep : step ≤ 2 ^ 31) (calls : List Call)
    (hclean : AlongRun State.step State.Clean
      ⟨EmptyNodeFilter.init step mod, fun _ => false⟩ calls) :
    ∃ s, runOps State.step ⟨EmptyNodeFilter.init step mod, fun _ => false⟩ calls = some s ∧
      s.Exact := by
  obtain ⟨s, hs, hinv⟩ :=
    invariant_along (fun _ _ hs hc => State.inv_step hs hc) (State.inv_init hstep) calls hclean
  exact ⟨s, hs, hinv.exact⟩

def zeros : Nat → UInt8 := fun _ => 0

theorem exact_along_zeros : ∃ s, runOps State.step ⟨EmptyNodeFilter.init 0 0, fun _ => false⟩
    [.set 7 (some zeros), .clr 7, .set 8 none] = some s ∧ s.Exact := by
  refine exact_along (by decide) _ ⟨?_, ?_⟩
  · intro _ key' _ _ _ _
    simp [isBitSet, zeros]
  · rintro s ⟨⟩
    refine ⟨trivial, ?_⟩
    rintro s ⟨⟩
    exact ⟨fun _ => rfl, fun _ _ => trivial⟩

/-- Old bytes in a new block set the bits of other keys, and after a failed growth a key of the
table is looked up without memory. -/
theorem not_exact_dirty :
    (∃ s, runOps State.step ⟨EmptyNodeFilter.init 0 0, fun _ => false⟩
      [.set 0 (some fun _ => 0xFF)] = some s ∧ ¬s.Exact) ∧
    runOps State.step ⟨EmptyNodeFilter.init 0 0, fun _ => false⟩
      [.set 0 (some zeros), .set 122880000 none, .isset 0] = none := by
  refine ⟨⟨_, rfl, fun hexact => ?_⟩, rfl⟩
  have hkey := hexact 30000
  revert hkey
  decide

end ISearch.EmptyFilter

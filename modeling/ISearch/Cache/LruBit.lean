import Mathlib.Data.Finset.Card
import ISearch.Lib.Bitmap
import ISearch.Lib.Run

/-!
# Changes of the LRU list (`lru_bit.cc`, `lru_bit.h`)

A bitmap keeps the ids of the nodes that were used. `Scan` walks over it a part at a time, from
where it stopped, and writes the ids it finds to the log. The bitmap is cut into blocks of `2 ^ 21`
ids that are allocated when an id in them is set. In a block, one index bit stands for 64 ids.
-/

namespace ISearch.LruBit

open Function List

/-- `BBLK_OFF` to `BLK_BYTE_SHIFT`. -/
def bblkOff (v : Nat) : Nat := v / 2 ^ 21
def idxByteOff (v : Nat) : Nat := v / 2 ^ 9 % 2 ^ 12
def idxByteShift (v : Nat) : Nat := v / 2 ^ 6 % 2 ^ 3
def blkByteOff (v : Nat) : Nat := v / 2 ^ 3 % 2 ^ 18
def blkByteShift (v : Nat) : Nat := v % 2 ^ 3

def idxSize : Nat := 4 * 2 ^ 10

/-- `lru_bit_t`. -/
structure Block where
  idx : Nat → UInt8
  blk : Nat → UInt8

namespace Block

def new : Block := ⟨fun _ => 0, fun _ => 0⟩

/-- `set`, with whether the bit was set before. -/
def set (p : Block) (v : Nat) (b : Bool) : Bool × Block :=
  let bit := 8 * blkByteOff v + blkByteShift v
  if b then
    if isBitSet p.blk bit then (true, p)
    else (false, { p with
      blk := setBit p.blk bit
      idx := setBit p.idx (8 * idxByteOff v + idxByteShift v) })
  else (false, { p with blk := clearBit p.blk bit })

/-- `clear`, with the number of bits that `COUNT_B` finds. -/
def clear (p : Block) (idxOff : Nat) : Nat × Block :=
  (((List.range (8 * 2 ^ 6)).filter fun k => isBitSet p.blk (8 * (idxOff * 2 ^ 6) + k)).length,
    { idx := fun i => if i = idxOff then 0 else p.idx i
      blk := fun i => if idxOff * 2 ^ 6 ≤ i ∧ i < idxOff * 2 ^ 6 + 2 ^ 6 then 0 else p.blk i })

/-- The bits of the word that `read` returns. -/
def read (p : Block) (idxOff idxShift i : Nat) : Bool :=
  isBitSet p.idx (8 * idxOff + idxShift) && isBitSet p.blk (64 * (idxOff * 2 ^ 3 + idxShift) + i)

end Block

/-! ## The bitmap -/

/-- `LruBitObj`. `log` are the ids of the rows that were committed. -/
structure LruBitObj where
  lruBits : Nat → Option Block
  maxLruBit : Nat
  scanLruBit : Nat
  scanIdxOff : Nat
  scanStopUntil : Nat
  totalBits : Nat
  total1Bits : UInt32
  log : List Nat

namespace LruBitObj

def init (stopUntil : Nat) : LruBitObj where
  lruBits _ := none
  maxLruBit := 0
  scanLruBit := 0
  scanIdxOff := 0
  scanStopUntil := stopUntil % 2 ^ 16
  totalBits := 0
  total1Bits := 0
  log := []

/-- `SetNodeID`. `memory` says whether a block can be allocated. -/
def setNodeID (s : LruBitObj) (v : Nat) (b memory : Bool) : LruBitObj :=
  let off := bblkOff v
  match (s.lruBits off).or (if memory then some Block.new else none) with
  | none => s
  | some p =>
    let (hit, p) := p.set v b
    { s with
      lruBits := update s.lruBits off (some p)
      total1Bits := if !hit && b then s.total1Bits + 1 else s.total1Bits
      maxLruBit := if s.maxLruBit < off then off else s.maxLruBit
      totalBits := if s.totalBits < v then v else s.totalBits }

/-- The ids that the two inner loops of `Scan` find. -/
def foundIds (s : LruBitObj) (p : Block) : List Nat :=
  (List.range 8).flatMap fun j =>
    ((List.range 64).filter fun i => p.read s.scanIdxOff j i).map fun i =>
      s.scanLruBit * 2 ^ 21 + s.scanIdxOff * 2 ^ 9 + j * 2 ^ 6 + i

/-- `LruWriter::Write` for each id, which leaves out those without a node, and `Commit`. -/
def write (s : LruBitObj) (node : Nat → Bool) (ids : List Nat) : LruBitObj :=
  { s with log := s.log ++ ids.filter node }

/-- The body of the loop of `Scan`, with the number of ids. -/
def scanByte (s : LruBitObj) (node : Nat → Bool) (p : Block) : Nat × LruBitObj :=
  let found := s.foundIds p
  let s :=
    if found ≠ [] then
      let s := s.write node found
      let (bits, p) := p.clear s.scanIdxOff
      { s with
        lruBits := update s.lruBits s.scanLruBit (some p)
        total1Bits := s.total1Bits - UInt32.ofNat bits }
    else s
  (found.length, { s with scanIdxOff := s.scanIdxOff + 1 })

/-- The loop of `Scan` for the next `n` index bytes; it ends early once `_scan_stop_until` ids are
found. -/
def scanLoop (node : Nat → Bool) : Nat → Nat → LruBitObj → Bool × LruBitObj
  | 0, _, s => (false, s)
  | n + 1, foundId, s =>
    match s.lruBits s.scanLruBit with
    | none => (true, s)
    | some p =>
      let (found, s) := s.scanByte node p
      if foundId + found ≥ s.scanStopUntil then (true, s) else scanLoop node n (foundId + found) s

def scan (s : LruBitObj) (node : Nat → Bool) : LruBitObj :=
  match s.lruBits s.scanLruBit with
  | none => s
  | some _ =>
    let (stop, s) := scanLoop node (idxSize - s.scanIdxOff) 0 s
    if stop then s
    else
      { s with
        scanIdxOff := 0
        scanLruBit := if s.scanLruBit + 1 > s.maxLruBit then 0 else s.scanLruBit + 1 }

/-- A call of `SetNodeID` or of `Scan`. -/
inductive Op where
  | set (v : UInt32) (b memory : Bool)
  | scan
  deriving DecidableEq, Repr

variable (node : Nat → Bool)

def step (s : LruBitObj) : Op → LruBitObj
  | .set v b memory => s.setNodeID v.toNat b memory
  | .scan => s.scan node

/-- The id is marked. -/
def isMarked (s : LruBitObj) (v : Nat) : Bool :=
  match s.lruBits (v / 2 ^ 21) with
  | none => false
  | some p => isBitSet p.blk (v % 2 ^ 21)

/-- The marked ids. -/
def marked (s : LruBitObj) : Finset Nat := (Finset.range (2 ^ 32)).filter fun v => s.isMarked v

/-- Index bits cover the bits of their ids; a block that is allocated lies below the greatest, and
the scan stands in the bitmap. -/
structure Inv (s : LruBitObj) : Prop where
  covered : ∀ b p, s.lruBits b = some p → ∀ x < 2 ^ 21, isBitSet p.blk x →
    isBitSet p.idx (x / 2 ^ 6)
  allocated : ∀ b p, s.lruBits b = some p → b ≤ s.maxLruBit
  max_lt : s.maxLruBit < 2 ^ 11
  scan_le : s.scanLruBit ≤ s.maxLruBit
  off_le : s.scanIdxOff ≤ idxSize

end LruBitObj

/-! ## Setting a bit -/

variable {v x : Nat} {p : Block} {b memory : Bool}

theorem blk_bit (v : Nat) : 8 * blkByteOff v + blkByteShift v = v % 2 ^ 21 := by
  rw [blkByteOff, blkByteShift]
  omega

theorem idx_bit (v : Nat) : 8 * idxByteOff v + idxByteShift v = v % 2 ^ 21 / 2 ^ 6 := by
  rw [idxByteOff, idxByteShift]
  omega

namespace Block

theorem set_fst (p : Block) (v : Nat) (b : Bool) :
    (p.set v b).1 = (b && isBitSet p.blk (v % 2 ^ 21)) := by
  rw [set, blk_bit]
  cases b with
  | false => rfl
  | true => cases h : isBitSet p.blk (v % 2 ^ 21) <;> simp

theorem isBitSet_set_blk (p : Block) (v : Nat) (b : Bool) (x : Nat) :
    isBitSet (p.set v b).2.blk x = if v % 2 ^ 21 = x then b else isBitSet p.blk x := by
  rw [set, blk_bit]
  generalize v % 2 ^ 21 = y
  cases b with
  | false => by_cases h : y = x <;> simp [h]
  | true =>
    cases hset : isBitSet p.blk y with
    | false => by_cases h : y = x <;> simp [h]
    | true =>
      by_cases h : y = x
      · simp [← h, hset]
      · simp [h]

/-- Every bit has its index bit. -/
def Covered (p : Block) : Prop := ∀ x < 2 ^ 21, isBitSet p.blk x → isBitSet p.idx (x / 2 ^ 6)

/-- A new bit comes with its index bit. -/
theorem covered_set (hcov : p.Covered) (v : Nat) (b : Bool) : (p.set v b).2.Covered := by
  intro x hx hbit
  rw [set, blk_bit, idx_bit] at hbit ⊢
  cases b with
  | false =>
    simp only [Bool.false_eq_true, if_false, isBitSet_clearBit, Bool.and_eq_true] at hbit ⊢
    exact hcov x hx hbit.2
  | true =>
    simp only [if_true] at hbit ⊢
    split at hbit
    · rename_i hset
      rw [if_pos hset]
      exact hcov x hx hbit
    · rename_i hset
      rw [if_neg hset]
      simp only [isBitSet_setBit, Bool.or_eq_true, decide_eq_true_eq] at hbit ⊢
      rcases hbit with rfl | hbit
      · exact .inl rfl
      · exact .inr (hcov x hx hbit)

end Block

theorem isBitSet_zero (x : Nat) : isBitSet (fun _ => 0) x = false := by
  rw [isBitSet_eq_testBit]
  exact Nat.zero_testBit _

theorem isBitSet_congr {m m' : Nat → UInt8} (h : m (x / 8) = m' (x / 8)) :
    isBitSet m x = isBitSet m' x := by
  rw [isBitSet, isBitSet, h]

theorem isBitSet_of_zero {m : Nat → UInt8} (h : m (x / 8) = 0) : isBitSet m x = false := by
  rw [isBitSet_eq_testBit, h]
  exact Nat.zero_testBit _

namespace Block

theorem isBitSet_clear_blk (p : Block) (off x : Nat) :
    isBitSet (p.clear off).2.blk x =
      (isBitSet p.blk x && !decide (off * 2 ^ 9 ≤ x ∧ x < off * 2 ^ 9 + 2 ^ 9)) := by
  by_cases hin : off * 2 ^ 9 ≤ x ∧ x < off * 2 ^ 9 + 2 ^ 9
  · rw [decide_eq_true hin, Bool.not_true, Bool.and_false]
    refine isBitSet_of_zero (if_pos ?_)
    omega
  · rw [decide_eq_false hin, Bool.not_false, Bool.and_true]
    refine isBitSet_congr (if_neg ?_)
    omega

theorem covered_clear (hcov : p.Covered) (off : Nat) : (p.clear off).2.Covered := by
  intro x hx hbit
  rw [isBitSet_clear_blk, Bool.and_eq_true, Bool.not_eq_true', decide_eq_false_iff_not] at hbit
  have hkeep : isBitSet (p.clear off).2.idx (x / 2 ^ 6) = isBitSet p.idx (x / 2 ^ 6) := by
    refine isBitSet_congr (if_neg ?_)
    omega
  rw [hkeep]
  exact hcov x hx hbit.1

end Block

namespace LruBitObj

variable {s s' : LruBitObj} {node : Nat → Bool}

/-! ## `SetNodeID` -/

/-- The call finds its block or allocates it. -/
def CanSet (s : LruBitObj) (v : Nat) (memory : Bool) : Prop :=
  (s.lruBits (bblkOff v)).isSome ∨ memory = true

theorem setNodeID_of_not (h : ¬ s.CanSet v memory) : s.setNodeID v b memory = s := by
  rw [CanSet, not_or, Bool.not_eq_true, Option.isSome_eq_false_iff, Option.isNone_iff_eq_none] at h
  simp [setNodeID, h.1, h.2]

theorem setNodeID_eq (h : s.CanSet v memory) : ∃ p, (s.lruBits (bblkOff v) = some p ∨
      s.lruBits (bblkOff v) = none ∧ p = Block.new) ∧
    s.setNodeID v b memory = { s with
      lruBits := update s.lruBits (bblkOff v) (some (p.set v b).2)
      total1Bits := if !(p.set v b).1 && b then s.total1Bits + 1 else s.total1Bits
      maxLruBit := if s.maxLruBit < bblkOff v then bblkOff v else s.maxLruBit
      totalBits := if s.totalBits < v then v else s.totalBits } := by
  rcases hb : s.lruBits (bblkOff v) with _ | p
  · have hmem : memory = true := by simpa [CanSet, hb] using h
    exact ⟨Block.new, .inr ⟨rfl, rfl⟩, by simp [setNodeID, hb, hmem]⟩
  · exact ⟨p, .inl rfl, by simp [setNodeID, hb]⟩

/-- A block that is new has no bit of an id that was marked. -/
theorem isBitSet_eq_isMarked {p : Block} (h : s.lruBits (bblkOff v) = some p ∨
    s.lruBits (bblkOff v) = none ∧ p = Block.new) :
    isBitSet p.blk (v % 2 ^ 21) = s.isMarked v := by
  rw [bblkOff] at h
  rcases h with h | ⟨h, rfl⟩
  · simp only [isMarked, h]
  · simp only [isMarked, h]
    exact isBitSet_zero _

theorem isMarked_setNodeID (h : s.CanSet v memory) (x : Nat) :
    (s.setNodeID v b memory).isMarked x = if x = v then b else s.isMarked x := by
  obtain ⟨p, hp, heq⟩ := setNodeID_eq (b := b) h
  rw [heq]
  by_cases hblock : x / 2 ^ 21 = bblkOff v
  · have hx : isBitSet p.blk (x % 2 ^ 21) = s.isMarked x := by
      refine isBitSet_eq_isMarked ?_
      rwa [bblkOff, hblock]
    simp only [isMarked, hblock, update_self, Block.isBitSet_set_blk]
    by_cases hxv : x = v
    · rw [if_pos hxv, if_pos (by rw [hxv])]
    · rw [if_neg hxv, if_neg (by rw [bblkOff] at hblock; omega), hx, isMarked, hblock]
  · have hxv : x ≠ v := fun h => hblock (by rw [h, bblkOff])
    rw [if_neg hxv]
    simp only [isMarked, update_of_ne hblock]

theorem total_setNodeID (h : s.CanSet v memory) :
    (s.setNodeID v b memory).total1Bits =
      if b && !s.isMarked v then s.total1Bits + 1 else s.total1Bits := by
  obtain ⟨p, hp, heq⟩ := setNodeID_eq (b := b) h
  rw [heq]
  simp only [Block.set_fst, isBitSet_eq_isMarked hp]
  cases b <;> cases s.isMarked v <;> rfl

theorem Inv.setNodeID (inv : s.Inv) (hv : v < 2 ^ 32) : (s.setNodeID v b memory).Inv := by
  by_cases h : s.CanSet v memory
  · obtain ⟨p, hp, heq⟩ := setNodeID_eq (b := b) h
    have hlt : bblkOff v < 2 ^ 11 := by
      rw [bblkOff]
      omega
    have hcov : p.Covered := by
      rcases hp with hp | ⟨-, rfl⟩
      · exact inv.covered _ p hp
      · intro x _ hx
        have hzero : isBitSet Block.new.blk x = false := isBitSet_zero x
        rw [hzero] at hx
        cases hx
    rw [heq]
    refine ⟨fun b' q hq => ?_, fun b' q hq => ?_, ?_, ?_, inv.off_le⟩
    · dsimp only at hq
      by_cases hb : b' = bblkOff v
      · rw [hb, update_self] at hq
        cases hq
        exact Block.covered_set hcov v b
      · rw [update_of_ne hb] at hq
        exact inv.covered b' q hq
    · dsimp only at hq ⊢
      by_cases hb : b' = bblkOff v
      · rw [hb]
        split <;> omega
      · rw [update_of_ne hb] at hq
        have hle := inv.allocated b' q hq
        split <;> omega
    · dsimp only
      have hmax := inv.max_lt
      split <;> omega
    · dsimp only
      have hle := inv.scan_le
      split <;> omega
  · rwa [setNodeID_of_not h]

/-! ## One index byte -/

/-- The ids of the index byte where the scan stands. -/
def inByte (s : LruBitObj) (v : Nat) : Prop :=
  s.scanLruBit * 2 ^ 21 + s.scanIdxOff * 2 ^ 9 ≤ v ∧
    v < s.scanLruBit * 2 ^ 21 + (s.scanIdxOff + 1) * 2 ^ 9

theorem range_eq_flatMap : List.range 512 =
    (List.range 8).flatMap fun j => (List.range 64).map fun i => 64 * j + i := by decide +kernel

/-- The bits of the index byte, under index bits that cover them. -/
theorem foundIds_eq (hcov : p.Covered) (hoff : s.scanIdxOff < idxSize) :
    s.foundIds p = ((List.range (8 * 2 ^ 6)).filter fun k =>
      isBitSet p.blk (8 * (s.scanIdxOff * 2 ^ 6) + k)).map fun k =>
        s.scanLruBit * 2 ^ 21 + s.scanIdxOff * 2 ^ 9 + k := by
  have h512 : 8 * 2 ^ 6 = 512 := rfl
  rw [idxSize] at hoff
  rw [foundIds, h512, range_eq_flatMap, filter_flatMap, map_flatMap]
  refine flatMap_congr fun j hj => ?_
  rw [filter_map, map_map]
  have hj : j < 8 := mem_range.mp hj
  have hread : ∀ i ∈ List.range 64, p.read s.scanIdxOff j i =
      isBitSet p.blk (8 * (s.scanIdxOff * 2 ^ 6) + (64 * j + i)) := by
    intro i hi
    have hi : i < 64 := mem_range.mp hi
    have hblk : 64 * (s.scanIdxOff * 2 ^ 3 + j) + i =
        8 * (s.scanIdxOff * 2 ^ 6) + (64 * j + i) := by omega
    rw [Block.read, hblk]
    cases hbit : isBitSet p.blk (8 * (s.scanIdxOff * 2 ^ 6) + (64 * j + i)) with
    | false => rw [Bool.and_false]
    | true =>
      have hidx := hcov _ (by omega) hbit
      rw [show (8 * (s.scanIdxOff * 2 ^ 6) + (64 * j + i)) / 2 ^ 6 = 8 * s.scanIdxOff + j by omega]
        at hidx
      rw [hidx, Bool.true_and]
  rw [filter_congr hread]
  refine map_congr_left fun i _ => ?_
  simp only [Function.comp]
  omega

theorem length_foundIds (hcov : p.Covered) (hoff : s.scanIdxOff < idxSize) :
    (s.foundIds p).length = (p.clear s.scanIdxOff).1 := by
  rw [foundIds_eq hcov hoff, length_map, Block.clear]

theorem nodup_foundIds (hcov : p.Covered) (hoff : s.scanIdxOff < idxSize) :
    (s.foundIds p).Nodup := by
  have hinj : Function.Injective fun k => s.scanLruBit * 2 ^ 21 + s.scanIdxOff * 2 ^ 9 + k :=
    fun _ _ h => Nat.add_left_cancel h
  rw [foundIds_eq hcov hoff]
  exact (nodup_range.filter _).map hinj

theorem mem_foundIds (hcov : p.Covered) (hoff : s.scanIdxOff < idxSize)
    (hp : s.lruBits s.scanLruBit = some p) :
    v ∈ s.foundIds p ↔ s.isMarked v ∧ s.inByte v := by
  rw [idxSize] at hoff
  rw [foundIds_eq hcov hoff, mem_map, inByte]
  constructor
  · rintro ⟨k, hk, rfl⟩
    rw [mem_filter, mem_range] at hk
    refine ⟨?_, by omega, by omega⟩
    have hblock : (s.scanLruBit * 2 ^ 21 + s.scanIdxOff * 2 ^ 9 + k) / 2 ^ 21 = s.scanLruBit := by
      omega
    have hmod : (s.scanLruBit * 2 ^ 21 + s.scanIdxOff * 2 ^ 9 + k) % 2 ^ 21 =
        8 * (s.scanIdxOff * 2 ^ 6) + k := by omega
    simp only [isMarked, hblock, hp, hmod]
    exact hk.2
  · rintro ⟨hmark, hlo, hhi⟩
    have hblock : v / 2 ^ 21 = s.scanLruBit := by omega
    simp only [isMarked, hblock, hp] at hmark
    refine ⟨v - (s.scanLruBit * 2 ^ 21 + s.scanIdxOff * 2 ^ 9), ?_, by omega⟩
    rw [mem_filter, mem_range]
    refine ⟨by omega, ?_⟩
    rwa [show 8 * (s.scanIdxOff * 2 ^ 6) + (v - (s.scanLruBit * 2 ^ 21 + s.scanIdxOff * 2 ^ 9)) =
      v % 2 ^ 21 by omega]

/-- The ids from `lo` to `hi` are written to the log and unmarked. -/
structure Shipped (node : Nat → Bool) (s s' : LruBitObj) (lo hi : Nat) (ids : List Nat) :
    Prop where
  isMarked : ∀ v, s'.isMarked v = (s.isMarked v && !decide (lo ≤ v ∧ v < hi))
  log : s'.log = s.log ++ ids.filter node
  nodup : ids.Nodup
  mem : ∀ v, v ∈ ids ↔ s.isMarked v ∧ lo ≤ v ∧ v < hi
  total : s'.total1Bits = s.total1Bits - UInt32.ofNat ids.length
  maxLruBit : s'.maxLruBit = s.maxLruBit

namespace Shipped

variable {s₁ : LruBitObj} {lo mid hi : Nat} {ids ids₁ ids₂ : List Nat}

theorem refl (node : Nat → Bool) (s : LruBitObj) (lo : Nat) : Shipped node s s lo lo [] where
  isMarked v := by
    have hnot : ¬ (lo ≤ v ∧ v < lo) := by omega
    simp [hnot]
  log := by simp
  nodup := nodup_nil
  mem v := by
    refine iff_of_false (not_mem_nil) ?_
    rintro ⟨-, hlo, hhi⟩
    omega
  total := (UInt32.sub_zero _).symm
  maxLruBit := rfl

theorem trans (h₁ : Shipped node s s₁ lo mid ids₁) (h₂ : Shipped node s₁ s' mid hi ids₂)
    (hlo : lo ≤ mid) (hhi : mid ≤ hi) : Shipped node s s' lo hi (ids₁ ++ ids₂) where
  isMarked v := by
    rw [h₂.isMarked, h₁.isMarked, Bool.and_assoc, ← Bool.not_or, ← Bool.decide_or]
    congr 3
    exact propext (by omega)
  log := by rw [h₂.log, h₁.log, filter_append, append_assoc]
  nodup := by
    refine nodup_append.mpr ⟨h₁.nodup, h₂.nodup, ?_⟩
    rintro a ha b hb rfl
    have hlt := ((h₁.mem a).mp ha).2.2
    have hge := ((h₂.mem a).mp hb).2.1
    omega
  mem v := by
    rw [mem_append, h₁.mem, h₂.mem, h₁.isMarked]
    simp only [Bool.and_eq_true, Bool.not_eq_true', decide_eq_false_iff_not]
    constructor
    · rintro (⟨hm, h⟩ | ⟨⟨hm, -⟩, h⟩)
      · exact ⟨hm, by omega⟩
      · exact ⟨hm, by omega⟩
    · rintro ⟨hm, h⟩
      by_cases hmid : v < mid
      · exact .inl ⟨hm, h.1, hmid⟩
      · exact .inr ⟨⟨hm, by omega⟩, by omega⟩
  total := by
    rw [h₂.total, h₁.total, length_append, UInt32.ofNat_add]
    grind
  maxLruBit := h₂.maxLruBit.trans h₁.maxLruBit

end Shipped

theorem shipped_scanByte (inv : s.Inv) (hoff : s.scanIdxOff < idxSize)
    (hp : s.lruBits s.scanLruBit = some p) (node : Nat → Bool) :
    Shipped node s (s.scanByte node p).2 (s.scanLruBit * 2 ^ 21 + s.scanIdxOff * 2 ^ 9)
      (s.scanLruBit * 2 ^ 21 + (s.scanIdxOff + 1) * 2 ^ 9) (s.foundIds p) ∧
    (s.scanByte node p).2.scanIdxOff = s.scanIdxOff + 1 ∧ (s.scanByte node p).2.Inv ∧
    (s.scanByte node p).2.scanStopUntil = s.scanStopUntil ∧
    (s.scanByte node p).2.scanLruBit = s.scanLruBit ∧
    ((s.scanByte node p).2.lruBits s.scanLruBit).isSome := by
  have hcov := inv.covered _ p hp
  have hmem := fun v => mem_foundIds (v := v) hcov hoff hp
  have hlen := length_foundIds hcov hoff
  by_cases hnil : s.foundIds p = []
  · have heq : (s.scanByte node p).2 = { s with scanIdxOff := s.scanIdxOff + 1 } := by
      simp [scanByte, hnil]
    have hnone (v : Nat) : ¬ (s.isMarked v ∧ s.inByte v) := fun h => by
      have hin := (hmem v).mpr h
      rw [hnil] at hin
      exact not_mem_nil hin
    rw [heq]
    refine ⟨?_, rfl, { inv with off_le := hoff }, rfl, rfl, by rw [hp]; rfl⟩
    refine ⟨fun v => ?_, by simp [hnil], by simp [hnil], hmem, by simp [hnil], rfl⟩
    change s.isMarked v = _
    cases hm : s.isMarked v with
    | false => rfl
    | true =>
      have hout : ¬ (s.scanLruBit * 2 ^ 21 + s.scanIdxOff * 2 ^ 9 ≤ v ∧
          v < s.scanLruBit * 2 ^ 21 + (s.scanIdxOff + 1) * 2 ^ 9) := fun h => hnone v ⟨hm, h⟩
      rw [decide_eq_false hout]
      rfl
  · have heq : (s.scanByte node p).2 = { s with
        log := s.log ++ (s.foundIds p).filter node
        lruBits := update s.lruBits s.scanLruBit (some (p.clear s.scanIdxOff).2)
        total1Bits := s.total1Bits - UInt32.ofNat (s.foundIds p).length
        scanIdxOff := s.scanIdxOff + 1 } := by
      simp [scanByte, hnil, write, hlen]
    rw [heq]
    refine ⟨?_, rfl, ?_, rfl, rfl, by simp⟩
    · refine ⟨fun v => ?_, rfl, nodup_foundIds hcov hoff, hmem, rfl, rfl⟩
      rw [idxSize] at hoff
      by_cases hblock : v / 2 ^ 21 = s.scanLruBit
      · have hin : (s.scanLruBit * 2 ^ 21 + s.scanIdxOff * 2 ^ 9 ≤ v ∧
            v < s.scanLruBit * 2 ^ 21 + (s.scanIdxOff + 1) * 2 ^ 9) ↔
            (s.scanIdxOff * 2 ^ 9 ≤ v % 2 ^ 21 ∧ v % 2 ^ 21 < s.scanIdxOff * 2 ^ 9 + 2 ^ 9) := by
          omega
        simp only [hin]
        simp only [isMarked, hblock, update_self, hp, Block.isBitSet_clear_blk]
      · have hout : ¬ (s.scanLruBit * 2 ^ 21 + s.scanIdxOff * 2 ^ 9 ≤ v ∧
            v < s.scanLruBit * 2 ^ 21 + (s.scanIdxOff + 1) * 2 ^ 9) := by omega
        rw [decide_eq_false hout, Bool.not_false, Bool.and_true]
        simp only [isMarked, update_of_ne hblock]
    · refine ⟨fun b' q hq => ?_, fun b' q hq => ?_, inv.max_lt, inv.scan_le, hoff⟩
      · dsimp only at hq
        by_cases hb : b' = s.scanLruBit
        · rw [hb, update_self] at hq
          cases hq
          exact Block.covered_clear hcov _
        · rw [update_of_ne hb] at hq
          exact inv.covered b' q hq
      · dsimp only at hq ⊢
        by_cases hb : b' = s.scanLruBit
        · rw [hb]
          exact inv.scan_le
        · rw [update_of_ne hb] at hq
          exact inv.allocated b' q hq

/-! ## `Scan` -/

theorem shipped_scanLoop (node : Nat → Bool) (n foundId : Nat) {s : LruBitObj} (inv : s.Inv)
    (hn : s.scanIdxOff + n = idxSize) (hp : (s.lruBits s.scanLruBit).isSome) :
    ∃ ids, Shipped node s (scanLoop node n foundId s).2
        (s.scanLruBit * 2 ^ 21 + s.scanIdxOff * 2 ^ 9)
        (s.scanLruBit * 2 ^ 21 + (scanLoop node n foundId s).2.scanIdxOff * 2 ^ 9) ids ∧
      (scanLoop node n foundId s).2.Inv ∧
      ((scanLoop node n foundId s).1 = true →
        s.scanIdxOff < (scanLoop node n foundId s).2.scanIdxOff) ∧
      s.scanIdxOff ≤ (scanLoop node n foundId s).2.scanIdxOff ∧
      ((scanLoop node n foundId s).1 = false →
        (scanLoop node n foundId s).2.scanIdxOff = idxSize) ∧
      (scanLoop node n foundId s).2.scanLruBit = s.scanLruBit ∧
      ((scanLoop node n foundId s).2.lruBits s.scanLruBit).isSome := by
  induction n generalizing s foundId with
  | zero => exact ⟨[], Shipped.refl node s _, inv, nofun, le_rfl,
      fun _ => hn, rfl, hp⟩
  | succ n ih =>
    obtain ⟨p, hblock⟩ := Option.isSome_iff_exists.mp hp
    obtain ⟨hship, hoff, inv₁, hstop, hblock₁, hsome⟩ :=
      shipped_scanByte inv (by omega) hblock node
    simp only [scanLoop, hblock]
    generalize hbyte : s.scanByte node p = r at hship hoff inv₁ hstop hblock₁ hsome
    obtain ⟨found, s₁⟩ := r
    dsimp only at hship hoff inv₁ hstop hblock₁ hsome ⊢
    split
    · refine ⟨s.foundIds p, ?_, inv₁, fun _ => ?_, ?_, nofun, hblock₁, hsome⟩
      · rw [hoff]
        exact hship
      · rw [hoff]
        omega
      · rw [hoff]
        omega
    · obtain ⟨ids, hship₂, inv₂, -, hle, hend, hblock₂, hsome₂⟩ :=
        ih (foundId + found) inv₁ (by rw [hoff]; omega) (by rw [hblock₁]; exact hsome)
      rw [hblock₁] at hship₂ hsome₂
      rw [hoff] at hship₂ hle
      refine ⟨_, hship.trans hship₂ ?_ ?_, inv₂, fun _ => by omega, by omega, hend,
        hblock₂.trans hblock₁, hsome₂⟩
      · omega
      · omega

/-- Where the scan stands, and where it comes to an id. A block ends behind its last index byte. -/
def position (s : LruBitObj) : Nat := s.scanLruBit * (idxSize + 1) + s.scanIdxOff

def positionOf (v : Nat) : Nat := v / 2 ^ 21 * (idxSize + 1) + v % 2 ^ 21 / 2 ^ 9

/-- The positions of all blocks. -/
def positions : Nat := 2 ^ 11 * (idxSize + 1)

/-- How far the scan is from an id. -/
def distance (s : LruBitObj) (v : Nat) : Nat :=
  if s.position ≤ positionOf v then positionOf v - s.position
  else positions + positionOf v - s.position

theorem position_eq (s : LruBitObj) : s.position = s.scanLruBit * 4097 + s.scanIdxOff := rfl

theorem positionOf_eq (v : Nat) : positionOf v = v / 2 ^ 21 * 4097 + v % 2 ^ 21 / 2 ^ 9 := rfl

theorem position_lt (hblock : s.scanLruBit < 2 ^ 11) (hoff : s.scanIdxOff ≤ idxSize) :
    s.position < positions := by
  have hpositions : positions = 8390656 := by decide
  have hposition := s.position_eq
  have hidx : idxSize = 4096 := rfl
  omega

theorem distance_lt (hlt : s.position < s'.position)
    (hle : s.position ≤ positionOf v → s'.position ≤ positionOf v)
    (hbound : s'.position ≤ positions) : s'.distance v < s.distance v := by
  rw [distance, distance]
  split <;> split <;> omega

/-- The scan starts again from the first block. -/
theorem distance_lt_of_wrap (hzero : s'.position = 0) (hgt : positionOf v < s.position)
    (hbound : s.position < positions) : s'.distance v < s.distance v := by
  rw [distance, distance, if_neg (Nat.not_le.mpr hgt), if_pos (by omega)]
  omega

theorem Shipped.congr {lo hi : Nat} {ids : List Nat} (h : Shipped node s s' lo hi ids) (a b : Nat) :
    Shipped node s { s' with scanLruBit := a, scanIdxOff := b } lo hi ids :=
  ⟨h.isMarked, h.log, h.nodup, h.mem, h.total, h.maxLruBit⟩

theorem Inv.block_le (inv : s.Inv) (h : s.isMarked v) : v / 2 ^ 21 ≤ s.maxLruBit := by
  rw [isMarked] at h
  split at h
  · cases h
  · rename_i p hp
    exact inv.allocated _ p hp

/-- A scan that finds its block ships some ids, and each one that it does not ship is nearer
then. -/
theorem shipped_scan (inv : s.Inv) (node : Nat → Bool)
    (hp : (s.lruBits s.scanLruBit).isSome) :
    (s.scan node).Inv ∧ (∃ lo hi ids, Shipped node s (s.scan node) lo hi ids) ∧
      ∀ v, (s.scan node).isMarked v → (s.scan node).distance v < s.distance v := by
  obtain ⟨ids, hship, inv₁, hlt, hle, hend, hblock, hsome⟩ :=
    shipped_scanLoop node (idxSize - s.scanIdxOff) 0 inv (by have := inv.off_le; omega) hp
  obtain ⟨p, hblk⟩ := Option.isSome_iff_exists.mp hp
  have hscan : s.scan node = if (scanLoop node (idxSize - s.scanIdxOff) 0 s).1 then
      (scanLoop node (idxSize - s.scanIdxOff) 0 s).2 else
      { (scanLoop node (idxSize - s.scanIdxOff) 0 s).2 with
        scanIdxOff := 0
        scanLruBit := if s.scanLruBit + 1 > s.maxLruBit then 0 else s.scanLruBit + 1 } := by
    simp only [scan, hblk]
    rw [hblock, hship.maxLruBit]
  rw [hscan]
  generalize scanLoop node (idxSize - s.scanIdxOff) 0 s = r at hship inv₁ hlt hle hend hblock hsome
  obtain ⟨stop, s₁⟩ := r
  dsimp only at hship inv₁ hlt hle hend hblock hsome ⊢
  have hoff := inv₁.off_le
  have hmax := inv.max_lt
  have hscanle := inv.scan_le
  have hoff₀ := inv.off_le
  have hidx : idxSize = 4096 := rfl
  have hmarked (v : Nat) (hv : s₁.isMarked v) : v / 2 ^ 21 ≤ s.maxLruBit ∧
      ¬ (s.scanLruBit * 2 ^ 21 + s.scanIdxOff * 2 ^ 9 ≤ v ∧
        v < s.scanLruBit * 2 ^ 21 + s₁.scanIdxOff * 2 ^ 9) := by
    rw [hship.isMarked, Bool.and_eq_true, Bool.not_eq_true', decide_eq_false_iff_not] at hv
    exact ⟨inv.block_le hv.1, hv.2⟩
  cases stop with
  | true =>
    rw [if_pos rfl]
    have hnear := hlt rfl
    have hex : ∃ lo hi ids, Shipped node s s₁ lo hi ids := ⟨_, _, ids, hship⟩
    refine ⟨inv₁, hex, fun v hv => ?_⟩
    obtain ⟨-, hout⟩ := hmarked v hv
    have hpos := s.position_eq
    have hpos₁ := s₁.position_eq
    have hposv := positionOf_eq v
    rw [hblock] at hpos₁
    exact distance_lt (by omega) (fun hle => by omega)
      (Nat.le_of_lt (position_lt (by rw [hblock]; omega) hoff))
  | false =>
    rw [if_neg (by decide)]
    have hfull := hend rfl
    refine ⟨{ inv₁ with scan_le := ?_, off_le := Nat.zero_le _ }, ⟨_, _, ids, hship.congr _ _⟩,
      fun v hv => ?_⟩
    · dsimp only
      rw [hship.maxLruBit]
      split <;> omega
    · obtain ⟨hblockle, hout⟩ := hmarked v hv
      have hpos := s.position_eq
      have hposv := positionOf_eq v
      rw [hfull, hidx] at hout
      by_cases hwrap : s.scanLruBit + 1 > s.maxLruBit
      · simp only [if_pos hwrap]
        exact distance_lt_of_wrap (by simp [position_eq]) (by omega)
          (position_lt (by omega) inv.off_le)
      · simp only [if_neg hwrap]
        have hpos₁ := position_eq { s₁ with scanIdxOff := 0, scanLruBit := s.scanLruBit + 1 }
        dsimp only at hpos₁
        exact distance_lt (by omega) (fun hle => by omega)
          (Nat.le_of_lt (position_lt (by dsimp only; omega) (Nat.zero_le _)))

/-! ## Runs -/

/-- A step that keeps the count and does not stall: `Scan` finds its block allocated or no id
marked, no marked id is unmarked, and not every id is marked. -/
def Meets (s : LruBitObj) : Op → Prop
  | .set v true _ => s.isMarked v.toNat ∨ s.marked.card + 1 < 2 ^ 32
  | .set v false _ => s.isMarked v.toNat = false
  | .scan => (s.lruBits s.scanLruBit).isSome ∨ s.marked = ∅

/-- The invariant with the count of the marked ids. -/
structure Counted (s : LruBitObj) : Prop extends Inv s where
  total : s.total1Bits.toNat = s.marked.card

theorem mem_marked : v ∈ s.marked ↔ v < 2 ^ 32 ∧ s.isMarked v := by
  rw [marked, Finset.mem_filter, Finset.mem_range]

theorem Inv.lt_of_isMarked (inv : s.Inv) (h : s.isMarked v) : v < 2 ^ 32 := by
  have hle := inv.block_le h
  have hlt := inv.max_lt
  omega

theorem Shipped.card_marked {lo hi : Nat} {ids : List Nat} (h : Shipped node s s' lo hi ids)
    (inv : s.Inv) : s'.marked.card + ids.length = s.marked.card := by
  have hsub : ids.toFinset ⊆ s.marked := by
    intro v hv
    have hmark := ((h.mem v).mp (mem_toFinset.mp hv)).1
    exact mem_marked.mpr ⟨inv.lt_of_isMarked hmark, hmark⟩
  have heq : s'.marked = s.marked \ ids.toFinset := by
    ext v
    rw [Finset.mem_sdiff, mem_marked, mem_marked, mem_toFinset, h.mem, h.isMarked,
      Bool.and_eq_true, Bool.not_eq_true', decide_eq_false_iff_not]
    tauto
  rw [heq, ← toFinset_card_of_nodup h.nodup]
  exact Finset.card_sdiff_add_card_eq_card hsub

theorem Shipped.counted {lo hi : Nat} {ids : List Nat} (h : Shipped node s s' lo hi ids)
    (hs : s.Counted) : s'.total1Bits.toNat = s'.marked.card := by
  have hcard := h.card_marked hs.toInv
  have htotal := hs.total
  have hlt := s.total1Bits.toNat_lt
  have hids : (UInt32.ofNat ids.length).toNat = ids.length := by
    rw [UInt32.toNat_ofNat', Nat.mod_eq_of_lt (by omega)]
  rw [h.total, UInt32.toNat_sub_of_le _ _ (UInt32.le_iff_toNat_le.mpr (by omega)), hids]
  omega

theorem marked_setNodeID (h : s.CanSet v memory) (hv : v < 2 ^ 32) :
    (s.setNodeID v b memory).marked = if b then insert v s.marked else s.marked.erase v := by
  ext x
  rw [mem_marked, isMarked_setNodeID h]
  by_cases hx : x = v
  · subst hx
    cases b with
    | false => simp
    | true => exact iff_of_true ⟨hv, by simp⟩ (Finset.mem_insert_self ..)
  · rw [if_neg hx]
    cases b with
    | false => exact mem_marked.symm.trans (by simp [hx])
    | true => exact mem_marked.symm.trans (by simp [hx])

theorem shipped_scan_of_meets (inv : s.Inv) (node : Nat → Bool) (h : s.Meets .scan) :
    (s.scan node).Inv ∧ (∃ lo hi ids, Shipped node s (s.scan node) lo hi ids) ∧
      ∀ v, (s.scan node).isMarked v → (s.scan node).distance v < s.distance v := by
  by_cases hp : (s.lruBits s.scanLruBit).isSome
  · exact shipped_scan inv node hp
  · have hnone (v : Nat) : ¬s.isMarked v = true := fun hmark => Finset.notMem_empty v
      (h.resolve_left hp ▸ mem_marked.mpr ⟨inv.lt_of_isMarked hmark, hmark⟩)
    rw [scan, Option.not_isSome_iff_eq_none.mp hp]
    exact ⟨inv, ⟨0, 0, [], .refl node s 0⟩, fun v hmark => absurd hmark (hnone v)⟩

theorem Counted.step (h : s.Counted) {op : Op} (hop : s.Meets op) (node : Nat → Bool) :
    (s.step node op).Counted := by
  cases op with
  | set v b memory =>
    refine ⟨h.toInv.setNodeID v.toNat_lt, ?_⟩
    by_cases hcan : s.CanSet v.toNat memory
    · have htotal := h.total
      rw [LruBitObj.step, total_setNodeID hcan, marked_setNodeID hcan v.toNat_lt]
      cases b with
      | false =>
        have hnot : v.toNat ∉ s.marked := fun hin => by
          have hmark := (mem_marked.mp hin).2
          rw [hop] at hmark
          cases hmark
        rw [Bool.false_and, if_neg (by decide), if_neg (by decide), Finset.erase_eq_of_notMem hnot,
          htotal]
      | true =>
        rw [Bool.true_and, if_pos rfl]
        by_cases hmark : s.isMarked v.toNat = true
        · rw [hmark, Bool.not_true, if_neg (by decide),
            Finset.insert_eq_of_mem (mem_marked.mpr ⟨v.toNat_lt, hmark⟩), htotal]
        · have hroom := hop.resolve_left hmark
          have hnot : v.toNat ∉ s.marked := fun hin => hmark (mem_marked.mp hin).2
          rw [Bool.not_eq_true] at hmark
          rw [hmark, Bool.not_false, if_pos rfl, Finset.card_insert_of_notMem hnot,
            UInt32.toNat_add, htotal]
          exact Nat.mod_eq_of_lt hroom
    · rw [LruBitObj.step, setNodeID_of_not hcan]
      exact h.total
  | scan =>
    obtain ⟨inv, ⟨lo, hi, ids, hship⟩, -⟩ := shipped_scan_of_meets h.toInv node hop
    exact ⟨inv, hship.counted h⟩

/-- No call unmarks the id, or marks it again after it was written. -/
def Keeps (v : Nat) (s : LruBitObj) : Op → Prop
  | .set w b _ => w.toNat = v → b = true ∧ s.isMarked v
  | .scan => True

/-- The scans that write the id, at most. -/
def remaining (s : LruBitObj) (v : Nat) : Nat := if s.isMarked v then s.distance v + 1 else 0

theorem isMarked_set_of_keeps {w : UInt32} (h : s.Keeps v (.set w b memory)) :
    (s.setNodeID w.toNat b memory).isMarked v = s.isMarked v := by
  by_cases hcan : s.CanSet w.toNat memory
  · rw [isMarked_setNodeID hcan]
    split
    · rename_i heq
      obtain ⟨hb, hmark⟩ := h heq.symm
      rw [hb, hmark]
    · rfl
  · rw [setNodeID_of_not hcan]

theorem log_setNodeID : (s.setNodeID v b memory).log = s.log := by
  by_cases hcan : s.CanSet v memory
  · obtain ⟨p, -, heq⟩ := setNodeID_eq (b := b) hcan
    rw [heq]
  · rw [setNodeID_of_not hcan]

theorem position_setNodeID : (s.setNodeID v b memory).position = s.position := by
  by_cases hcan : s.CanSet v memory
  · obtain ⟨p, -, heq⟩ := setNodeID_eq (b := b) hcan
    rw [heq]
    rfl
  · rw [setNodeID_of_not hcan]

theorem Shipped.count {lo hi : Nat} {ids : List Nat} (h : Shipped node s s' lo hi ids)
    (hnode : node v = true) :
    s'.log.count v + (s'.isMarked v).toNat = s.log.count v + (s.isMarked v).toNat := by
  have hcount : (ids.filter node).count v = if v ∈ ids then 1 else 0 := by
    rw [count_filter hnode]
    split
    · exact count_eq_one_of_mem h.nodup (by assumption)
    · exact count_eq_zero_of_not_mem (by assumption)
  rw [h.log, count_append, hcount, h.isMarked]
  by_cases hin : v ∈ ids
  · obtain ⟨hmark, hrange⟩ := (h.mem v).mp hin
    rw [if_pos hin, hmark, decide_eq_true hrange]
    rfl
  · rw [if_neg hin, Nat.add_zero]
    cases hmark : s.isMarked v with
    | false => rfl
    | true =>
      have hout : ¬ (lo ≤ v ∧ v < hi) := fun hr => hin ((h.mem v).mpr ⟨hmark, hr⟩)
      rw [decide_eq_false hout]
      rfl

/-- A step writes the id as often as it stops being marked. -/
theorem count_step (hs : s.Counted) {op : Op} (hop : s.Meets op) (hkeep : s.Keeps v op)
    (hnode : node v = true) : (s.step node op).log.count v + ((s.step node op).isMarked v).toNat =
      s.log.count v + (s.isMarked v).toNat := by
  cases op with
  | set w b memory => rw [step, log_setNodeID, isMarked_set_of_keeps hkeep]
  | scan =>
    obtain ⟨-, ⟨lo, hi, ids, hship⟩, -⟩ := shipped_scan_of_meets hs.toInv node hop
    exact hship.count hnode

theorem remaining_step (hs : s.Counted) {op : Op} (hop : s.Meets op) (hkeep : s.Keeps v op)
    (node : Nat → Bool) :
    (s.step node op).remaining v ≤ s.remaining v - [op].count .scan := by
  cases op with
  | set w b memory =>
    rw [step, remaining, remaining, isMarked_set_of_keeps hkeep, distance, distance,
      position_setNodeID]
    exact Nat.le_refl _
  | scan =>
    obtain ⟨-, ⟨lo, hi, ids, hship⟩, hnear⟩ := shipped_scan_of_meets hs.toInv node hop
    rw [step, remaining]
    split
    · rename_i hmark
      have hlt := hnear v hmark
      have hmark' : s.isMarked v = true := by
        rw [hship.isMarked, Bool.and_eq_true] at hmark
        exact hmark.1
      rw [remaining, if_pos hmark']
      simp
      omega
    · exact Nat.zero_le _

/-! ## Every mark is shipped once -/

/-- The steps as a machine. -/
def machine (node : Nat → Bool) (s : LruBitObj) (op : Op) : Option LruBitObj := some (s.step node op)

theorem counted_init (stopUntil : Nat) : (init stopUntil).Counted where
  covered _ _ h := nomatch h
  allocated _ _ h := nomatch h
  max_lt := Nat.two_pow_pos 11
  scan_le := Nat.le_refl _
  off_le := Nat.zero_le _
  total := by
    have hnone : (init stopUntil).marked = ∅ := by
      ext v
      rw [mem_marked]
      exact iff_of_false (fun h => nomatch h.2) (Finset.notMem_empty v)
    rw [hnone]
    rfl

theorem counted_run {ops : List Op} (hs : s.Counted)
    (hmeets : AlongRun (machine node) Meets s ops) (hrun : runOps (machine node) s ops = some s') :
    s'.Counted :=
  invariant_run_along (fun _ _ _ hs hop hstep => by cases hstep; exact hs.step hop node) hs ops
    hmeets hrun

/-- What a run does to one id. -/
theorem remaining_run {ops : List Op} (hs : s.Counted) (hnode : node v = true)
    (hmeets : AlongRun (machine node) Meets s ops)
    (hkeeps : AlongRun (machine node) (Keeps v) s ops)
    (hrun : runOps (machine node) s ops = some s') :
    s'.log.count v + (s'.isMarked v).toNat = s.log.count v + (s.isMarked v).toNat ∧
      s'.remaining v ≤ s.remaining v - ops.count .scan := by
  induction ops generalizing s with
  | nil =>
    cases hrun
    exact ⟨rfl, Nat.le_refl _⟩
  | cons op ops ih =>
    obtain ⟨hop, hmeets⟩ := hmeets
    obtain ⟨hkeep, hkeeps⟩ := hkeeps
    rw [runOps_cons] at hrun
    obtain ⟨s₁, hs₁, hrun⟩ := Option.bind_eq_some_iff.mp hrun
    obtain rfl := Option.some.inj hs₁
    obtain ⟨hcount, hle⟩ := ih (hs.step hop node) (hmeets _ rfl) (hkeeps _ rfl) hrun
    have hcount₁ := count_step hs hop hkeep hnode
    have hle₁ := remaining_step hs hop hkeep node
    refine ⟨hcount.trans hcount₁, ?_⟩
    have hcons := count_cons (a := Op.scan) (b := op) (l := ops)
    have hone := count_cons (a := Op.scan) (b := op) (l := [])
    rw [count_nil] at hone
    omega

/-- In a run that does not stall and unmarks no id, the count is right, and every marked id is
written once within some number of scans. -/
theorem shipped_once (stopUntil : Nat) (node : Nat → Bool) (ops : List Op)
    (hmeets : AlongRun (machine node) Meets (init stopUntil) ops) (s : LruBitObj)
    (hrun : runOps (machine node) (init stopUntil) ops = some s) :
    s.total1Bits.toNat = s.marked.card ∧
    ∀ v, s.isMarked v → node v → ∃ n, ∀ ops' s',
      AlongRun (machine node) Meets s ops' → AlongRun (machine node) (Keeps v) s ops' →
      runOps (machine node) s ops' = some s' → n ≤ ops'.count .scan →
        s'.log.count v = s.log.count v + 1 := by
  have hs := counted_run (counted_init stopUntil) hmeets hrun
  refine ⟨hs.total, fun v hmark hnode => ⟨s.remaining v, fun ops' s' hmeets' hkeeps hrun' hn => ?_⟩⟩
  obtain ⟨hcount, hle⟩ := remaining_run hs hnode hmeets' hkeeps hrun'
  have hunmarked : s'.isMarked v = false := by
    rw [← Bool.not_eq_true]
    intro hmark'
    rw [remaining, if_pos hmark'] at hle
    omega
  rw [hmark, hunmarked] at hcount
  exact hcount

/-- Node `5` is used. -/
theorem shipped_once_five : ∃ s,
    runOps (machine fun _ => true) (init 20) [.set 5 true true] = some s ∧
    s.total1Bits.toNat = s.marked.card ∧ ∃ n, ∀ ops' s',
      AlongRun (machine fun _ => true) Meets s ops' →
      AlongRun (machine fun _ => true) (Keeps 5) s ops' →
      runOps (machine fun _ => true) s ops' = some s' → n ≤ ops'.count .scan →
        s'.log.count 5 = s.log.count 5 + 1 := by
  have hmeets : AlongRun (machine fun _ => true) Meets (init 20) [.set 5 true true] := by
    refine ⟨.inr ?_, fun _ _ => trivial⟩
    rw [← (counted_init 20).total]
    decide
  obtain ⟨htotal, hship⟩ := shipped_once 20 (fun _ => true) [.set 5 true true] hmeets _ rfl
  exact ⟨_, rfl, htotal, hship 5 (by decide) rfl⟩

/-- Nodes of the second block are never shipped while the first one is not there, and an id that is
unmarked stays in the count. -/
theorem not_shipped_second_block :
    (∀ n, ((replicate n Op.scan).foldl (step fun _ => true)
      ((init 20).step (fun _ => true) (.set 2097152 true true))).log = []) ∧
    ((init 20).step (fun _ => true) (.set 2097152 true true)).isMarked 2097152 = true ∧
    ([Op.set 5 true true, .set 5 false true].foldl (step fun _ => true) (init 20)).total1Bits = 1 ∧
    ([Op.set 5 true true, .set 5 false true].foldl (step fun _ => true) (init 20)).marked = ∅ := by
  refine ⟨fun n => ?_, by decide, by decide, ?_⟩
  · induction n with
    | zero => rfl
    | succ n ih =>
      rw [replicate_succ, foldl_cons]
      exact ih
  · ext v
    refine iff_of_false (fun h => ?_) (Finset.notMem_empty v)
    have hmark := (mem_marked.mp h).2
    rw [foldl_cons, foldl_cons, foldl_nil, step, isMarked_setNodeID (.inr rfl), step,
      isMarked_setNodeID (.inr rfl)] at hmark
    split at hmark
    · cases hmark
    · cases hmark

end LruBitObj

end ISearch.LruBit

import ISearch.PtMalloc.Defs

/-!
# The fields of a chunk under changes of the memory
-/

namespace ISearch.PtMalloc

@[simp] theorem or_sizeBits (x y : Nat) : realSize x ||| sizeBits y = realSize x + sizeBits y := by
  have hlt : sizeBits y < 2 ^ 3 := Nat.mod_lt _ (by decide)
  have h := Nat.two_pow_add_eq_or_of_lt hlt (x / 8)
  rw [realSize, mul_comm (x / 8)]
  exact h.symm

theorem or_one (x : Nat) : x ||| 1 = x / 2 * 2 + 1 := by
  have h := Nat.two_pow_add_eq_or_of_lt (i := 1) (b := 1) (by decide) (x / 2)
  rcases Nat.mod_two_eq_zero_or_one x with h0 | h1
  · have hx : 2 ^ 1 * (x / 2) = x := by omega
    rw [hx] at h
    omega
  · have hx : 2 ^ 1 * (x / 2) + 1 = x := by omega
    rw [hx] at h
    rw [h, Nat.or_assoc, Nat.or_self, ← h]
    omega

theorem realSize_mod (x : Nat) : realSize x % 8 = 0 := Nat.mul_mod_left _ _

theorem realSize_eq {x : Nat} (h : x % 8 = 0) : realSize x = x := by
  rw [realSize]
  omega

theorem sizeBits_lt (x : Nat) : sizeBits x < 8 := Nat.mod_lt _ (by decide)

theorem binIndex_mono : Monotone binIndex := by
  intro a b hab
  simp only [binIndex, inSmallbinRange, smallbinIndex, largebinIndex, decide_eq_true_eq]
  split_ifs <;> omega

theorem binIndex_lt (sz : Nat) : binIndex sz < 127 := by
  simp only [binIndex, inSmallbinRange, smallbinIndex, largebinIndex, decide_eq_true_eq]
  split_ifs <;> omega

namespace Heap

variable {h : Heap} {m' : Mem} {p q v i : Nat} {bin : CBin}

/-! ## The fields that the operations on chunks leave -/

def rest (h : Heap) : Nat × UInt64 × UInt64 × Nat × Int × Int × Nat :=
  (h.tSize, h.tUserAllocSize, h.tUserAllocChunkCnt, h.hBottom, h.statChunkTotal, h.statDataSize,
    h.minChunkSize)

@[simp] theorem rest_setTPreSize : (h.setTPreSize p v).rest = h.rest := rfl
@[simp] theorem rest_setTSize : (h.setTSize p v).rest = h.rest := rfl
@[simp] theorem rest_setHPreChunk : (h.setHPreChunk p v).rest = h.rest := rfl
@[simp] theorem rest_setHNextChunk : (h.setHNextChunk p v).rest = h.rest := rfl
@[simp] theorem rest_setBin : (h.setBin i bin).rest = h.rest := rfl
@[simp] theorem rest_setBinBitMap : (h.setBinBitMap i).rest = h.rest := rfl
@[simp] theorem rest_clearBinBitMap : (h.clearBinBitMap i).rest = h.rest := rfl
@[simp] theorem rest_setSizeAt : (h.setSizeAt p v).rest = h.rest := rfl
@[simp] theorem rest_setPresizeAt : (h.setPresizeAt p v).rest = h.rest := rfl
@[simp] theorem rest_setInuseBit : (h.setInuseBit p).rest = h.rest := rfl
@[simp] theorem rest_clearInuseBit : (h.clearInuseBit p).rest = h.rest := rfl

@[simp] theorem hTop_setTPreSize : (h.setTPreSize p v).hTop = h.hTop := rfl
@[simp] theorem hTop_setTSize : (h.setTSize p v).hTop = h.hTop := rfl
@[simp] theorem hTop_setHPreChunk : (h.setHPreChunk p v).hTop = h.hTop := rfl
@[simp] theorem hTop_setHNextChunk : (h.setHNextChunk p v).hTop = h.hTop := rfl
@[simp] theorem hTop_setBin : (h.setBin i bin).hTop = h.hTop := rfl
@[simp] theorem hTop_setBinBitMap : (h.setBinBitMap i).hTop = h.hTop := rfl
@[simp] theorem hTop_clearBinBitMap : (h.clearBinBitMap i).hTop = h.hTop := rfl
@[simp] theorem hTop_setSizeAt : (h.setSizeAt p v).hTop = h.hTop := rfl
@[simp] theorem hTop_setPresizeAt : (h.setPresizeAt p v).hTop = h.hTop := rfl
@[simp] theorem hTop_setInuseBit : (h.setInuseBit p).hTop = h.hTop := rfl
@[simp] theorem hTop_clearInuseBit : (h.clearInuseBit p).hTop = h.hTop := rfl

theorem getMinChunkSize_of_rest {h' : Heap} (hrest : h'.rest = h.rest) :
    h'.getMinChunkSize = h.getMinChunkSize := by
  simp only [rest, Prod.mk.injEq] at hrest
  obtain ⟨-, -, -, -, htotal, hdata, hmin⟩ := hrest
  rw [getMinChunkSize, htotal, hdata, hmin, getMinChunkSize]

theorem tSize_of_rest {h' : Heap} (hrest : h'.rest = h.rest) : h'.tSize = h.tSize :=
  congrArg Prod.fst hrest

theorem hBottom_of_rest {h' : Heap} (hrest : h'.rest = h.rest) : h'.hBottom = h.hBottom :=
  congrArg (fun r => r.2.2.2.1) hrest

@[simp] theorem rest_unlinkBin : (h.unlinkBin i p).rest = h.rest := by
  dsimp only [unlinkBin]
  split_ifs <;> simp

@[simp] theorem hTop_unlinkBin : (h.unlinkBin i p).hTop = h.hTop := by
  dsimp only [unlinkBin]
  split_ifs <;> simp

@[simp] theorem rest_unlinkClear : (h.unlinkClear i p).rest = h.rest := by
  dsimp only [unlinkClear]
  split_ifs <;> simp

@[simp] theorem hTop_unlinkClear : (h.unlinkClear i p).hTop = h.hTop := by
  dsimp only [unlinkClear]
  split_ifs <;> simp

@[simp] theorem rest_linkBin : (h.linkBin i p).rest = h.rest := by
  dsimp only [linkBin]
  split_ifs <;> simp

@[simp] theorem hTop_linkBin : (h.linkBin i p).hTop = h.hTop := by
  dsimp only [linkBin]
  split_ifs <;> simp

theorem tPreSizeAt_congr (hm : ∀ k, p ≤ k → k < p + 4 → m' k = h.mem k) :
    { h with mem := m' }.tPreSizeAt p = h.tPreSizeAt p := loadLe_congr hm

theorem tSizeAt_congr (hm : ∀ k, p + 4 ≤ k → k < p + 8 → m' k = h.mem k) :
    { h with mem := m' }.tSizeAt p = h.tSizeAt p := loadLe_congr hm

theorem hPreChunkAt_congr (hm : ∀ k, p + 8 ≤ k → k < p + 16 → m' k = h.mem k) :
    { h with mem := m' }.hPreChunkAt p = h.hPreChunkAt p := loadLe_congr hm

theorem hNextChunkAt_congr (hm : ∀ k, p + 16 ≤ k → k < p + 24 → m' k = h.mem k) :
    { h with mem := m' }.hNextChunkAt p = h.hNextChunkAt p := loadLe_congr hm

theorem chunkSize_congr (hm : ∀ k, p + 4 ≤ k → k < p + 8 → m' k = h.mem k) :
    { h with mem := m' }.chunkSize p = h.chunkSize p := by
  rw [chunkSize, tSizeAt_congr hm, chunkSize]

theorem prevInuse_congr (hm : ∀ k, p + 4 ≤ k → k < p + 8 → m' k = h.mem k) :
    { h with mem := m' }.prevInuse p = h.prevInuse p := by
  rw [prevInuse, tSizeAt_congr hm, prevInuse]

theorem prevInuse_of_tSizeAt {h' : Heap} (heq : h'.tSizeAt p = h.tSizeAt p) :
    h'.prevInuse p = h.prevInuse p := by
  rw [prevInuse, heq, prevInuse]

theorem mem_setTPreSize {k : Nat} (hk : k < p ∨ p + 4 ≤ k) : (h.setTPreSize p v).mem k = h.mem k :=
  storeLe_apply_of_disjoint hk

theorem mem_setTSize {k : Nat} (hk : k < p + 4 ∨ p + 8 ≤ k) : (h.setTSize p v).mem k = h.mem k :=
  storeLe_apply_of_disjoint (by omega)

theorem tSizeAt_lt (h : Heap) (p : Nat) : h.tSizeAt p < 2 ^ 32 := loadLe_lt _ _ 4

theorem tPreSizeAt_lt (h : Heap) (p : Nat) : h.tPreSizeAt p < 2 ^ 32 := loadLe_lt _ _ 4

theorem hPreChunkAt_lt (h : Heap) (p : Nat) : h.hPreChunkAt p < 2 ^ 64 := loadLe_lt _ _ 8

theorem hNextChunkAt_lt (h : Heap) (p : Nat) : h.hNextChunkAt p < 2 ^ 64 := loadLe_lt _ _ 8

theorem tPreSizeAt_setTPreSize (hv : v < 2 ^ 32) : (h.setTPreSize p v).tPreSizeAt p = v :=
  loadLe_storeLe hv

theorem tSizeAt_setTSize (hv : v < 2 ^ 32) : (h.setTSize p v).tSizeAt p = v := loadLe_storeLe hv

theorem chunkSize_lt (h : Heap) (p : Nat) : h.chunkSize p < 2 ^ 32 := by
  have hlt := h.tSizeAt_lt p
  rw [chunkSize, realSize]
  omega

theorem chunkSize_mod (h : Heap) (p : Nat) : h.chunkSize p % 8 = 0 := realSize_mod _

/-- `set_size_at_offset` keeps the bit of the chunk before. -/
theorem setSizeAt_self (hv : v < 2 ^ 32) (hmod : v % 8 = 0) :
    (h.setSizeAt p v).chunkSize p = v ∧ (h.setSizeAt p v).prevInuse p = h.prevInuse p := by
  have hbits := sizeBits_lt (h.tSizeAt p)
  have hsize : (h.setSizeAt p v).tSizeAt p = v + sizeBits (h.tSizeAt p) := by
    rw [setSizeAt, or_sizeBits, realSize_eq hmod, tSizeAt_setTSize (by omega)]
  rw [chunkSize, prevInuse, prevInuse, hsize]
  rw [sizeBits] at *
  constructor
  · rw [realSize]
    omega
  · congr 1
    omega

theorem setInuseBit_self :
    (h.setInuseBit p).chunkSize p = h.chunkSize p ∧ (h.setInuseBit p).prevInuse p = true := by
  have hlt := h.tSizeAt_lt p
  have hsize : (h.setInuseBit p).tSizeAt p = h.tSizeAt p / 2 * 2 + 1 := by
    rw [setInuseBit, or_one, tSizeAt_setTSize (by omega)]
  rw [chunkSize, prevInuse, chunkSize, hsize, realSize, realSize, beq_iff_eq]
  omega

theorem clearInuseBit_self :
    (h.clearInuseBit p).chunkSize p = h.chunkSize p ∧ (h.clearInuseBit p).prevInuse p = false := by
  have hlt := h.tSizeAt_lt p
  have hsize : (h.clearInuseBit p).tSizeAt p = h.tSizeAt p / 2 * 2 := by
    rw [clearInuseBit, tSizeAt_setTSize (by omega)]
  rw [chunkSize, prevInuse, chunkSize, hsize, realSize, realSize, beq_eq_false_iff_ne]
  omega

end Heap

end ISearch.PtMalloc

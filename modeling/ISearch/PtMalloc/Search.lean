import ISearch.PtMalloc.Free

/-!
# The search for a free chunk

`inter_malloc` looks in the own bin of a size, then skips the words of the bitmap that are 0, then
the empty bins, and walks back in the first bin that is not empty.
-/

namespace ISearch.PtMalloc

variable {e : Prop} {h h' : Heap} {g g' : Layout} {a b p s t i j w fuel tSize req : Nat} {c : Chunk}

namespace Heap

/-! ## The words of the bitmap -/

theorem binBitMapWord_of_lt (hw : w < 4) : h.binBitMapWord w = h.auiBinBitMap w := if_pos hw

/-- The words skipped are 0. -/
theorem skipWords_sound (hw : w ≤ j) (hj : j < (h.skipWords fuel w).2) : h.binBitMapWord j = 0 := by
  induction fuel generalizing w with
  | zero =>
    change j < w at hj
    omega
  | succ fuel ih =>
    rw [skipWords] at hj
    split at hj
    · split at hj
      next hzero =>
        by_cases heq : j = w
        · rw [heq]
          exact hzero
        · exact ih (by omega) hj
      next => dsimp only at hj; omega
    · dsimp only at hj
      omega

theorem le_skipWords (h : Heap) (fuel w : Nat) : w ≤ (h.skipWords fuel w).2 := by
  induction fuel generalizing w with
  | zero => exact le_refl _
  | succ fuel ih =>
    rw [skipWords]
    split_ifs
    · exact Nat.le_of_succ_le (ih (w + 1))
    · exact le_refl _
    · exact le_refl _

/-- The words read end before the fifth one only where one of the four stops the loop. -/
theorem skipWords_words (hw : w ≤ 4) (hfuel : 4 < fuel + w) :
    (∀ j ∈ (h.skipWords fuel w).1, j < 4) ↔ ∃ j, w ≤ j ∧ j < 4 ∧ h.auiBinBitMap j ≠ 0 := by
  induction fuel generalizing w with
  | zero => omega
  | succ fuel ih =>
    rw [skipWords, if_pos (by omega)]
    rcases Nat.eq_or_lt_of_le hw with rfl | hlt
    · have hmem :
        4 ∈ (if h.binBitMapWord 4 = 0 then (4 :: (h.skipWords fuel 5).1, (h.skipWords fuel 5).2)
          else ([4], 4)).1 := by
        split <;> exact List.mem_cons_self
      constructor
      · intro hall
        exact absurd (hall 4 hmem) (by decide)
      · rintro ⟨j, hj, hj', -⟩
        omega
    · rw [binBitMapWord_of_lt hlt]
      split
      next hzero =>
        simp only [List.forall_mem_cons, hlt, true_and]
        rw [ih (by omega) (by omega)]
        constructor
        · rintro ⟨j, hj, hj', hne⟩
          exact ⟨j, by omega, hj', hne⟩
        · rintro ⟨j, hj, hj', hne⟩
          refine ⟨j, Nat.lt_of_le_of_ne hj ?_, hj', hne⟩
          rintro rfl
          exact hne hzero
      next hne => simpa [hlt] using ⟨w, le_refl _, hlt, hne⟩

theorem searchBitMap_words (hi : i / 32 < 4) :
    (∀ j ∈ (h.searchBitMap i).1, j < 4) ↔ ∃ j, i / 32 ≤ j ∧ j < 4 ∧ h.auiBinBitMap j ≠ 0 := by
  rw [searchBitMap]
  dsimp only
  rw [binBitMapWord_of_lt hi]
  split
  next hzero =>
    simp only [List.forall_mem_cons, hi, true_and]
    rw [skipWords_words (by omega) (by omega)]
    constructor
    · rintro ⟨j, hj, hj', hne⟩
      exact ⟨j, by omega, hj', hne⟩
    · rintro ⟨j, hj, hj', hne⟩
      refine ⟨j, Nat.lt_of_le_of_ne hj ?_, hj', hne⟩
      rintro rfl
      exact hne hzero
  next hne => simpa [hi] using ⟨i / 32, le_refl _, hi, hne⟩

/-- The bits of the bins that the words skip are clear. -/
theorem searchBitMap_sound (hi : i ≤ j) (hj : j < nBins) (hlt : j < (h.searchBitMap i).2) :
    h.binBit j = false := by
  have hzero : h.auiBinBitMap (j / 32) = 0 → h.binBit j = false := by
    intro hword
    rw [binBit, hword]
    exact Nat.zero_testBit _
  rw [nBins] at hj
  rw [searchBitMap] at hlt
  dsimp only at hlt
  split at hlt
  next hword =>
    have hdiv : j / 32 < (h.skipWords 16 (i / 32 + 1)).2 := by omega
    apply hzero
    rw [← binBitMapWord_of_lt (by omega)]
    by_cases heq : j / 32 = i / 32
    · rw [heq]
      exact hword
    · exact skipWords_sound (by omega) hdiv
  next => omega

theorem le_searchBitMap (h : Heap) (i : Nat) : i ≤ (h.searchBitMap i).2 := by
  rw [searchBitMap]
  dsimp only
  split
  · have hle := h.le_skipWords 16 (i / 32 + 1)
    dsimp only
    omega
  · exact le_refl _

theorem skipBins_sound (hi : i ≤ j) (hj : j < (h.skipBins fuel i).2) : h.emptyBin j = true := by
  induction fuel generalizing i with
  | zero =>
    change j < i at hj
    omega
  | succ fuel ih =>
    rw [skipBins] at hj
    split at hj
    · split at hj
      next hempty =>
        by_cases heq : j = i
        · rw [heq]
          exact hempty
        · exact ih (by omega) hj
      next => dsimp only at hj; omega
    · dsimp only at hj
      omega

theorem le_skipBins (h : Heap) (fuel i : Nat) : i ≤ (h.skipBins fuel i).2 := by
  induction fuel generalizing i with
  | zero => exact le_refl _
  | succ fuel ih =>
    rw [skipBins]
    split_ifs
    · exact Nat.le_of_succ_le (ih (i + 1))
    · exact le_refl _
    · exact le_refl _

/-- The scan reads bins that exist. -/
theorem skipBins_bins (hj : j ∈ (h.skipBins fuel i).1) : j < nBins := by
  induction fuel generalizing i with
  | zero => cases hj
  | succ fuel ih =>
    rw [skipBins] at hj
    split at hj
    next hlt =>
      split at hj
      · rcases List.mem_cons.mp hj with rfl | hj
        · exact hlt
        · exact ih hj
      · rw [List.mem_singleton] at hj
        omega
    next => cases hj

/-- The scan stops at a bin that is not empty, or behind the last bin. -/
theorem skipBins_stop (hfuel : nBins ≤ fuel + i) (hlt : (h.skipBins fuel i).2 < nBins) :
    h.emptyBin (h.skipBins fuel i).2 = false := by
  induction fuel generalizing i with
  | zero =>
    change i < nBins at hlt
    omega
  | succ fuel ih =>
    rw [skipBins] at hlt ⊢
    split_ifs at hlt ⊢ with hi hempty
    · exact ih (by omega) hlt
    · simpa using hempty
    · exact absurd hlt hi

theorem searchBin_eq_some {count v : Nat} (hfind : h.searchBin tSize count v = some p) :
    tSize ≤ h.chunkSize p := by
  induction count generalizing v with
  | zero => cases hfind
  | succ count ih =>
    rw [searchBin] at hfind
    split_ifs at hfind with hv hsize
    · cases hfind
      exact hsize
    · exact ih hfind

end Heap

/-- `searchBin` reads the first chunks of the list. -/
theorem searchBin_list {pre p tail count : Nat} {l : List Nat}
    (hlist : IsDList h.hPreChunkAt h.hNextChunkAt 0 pre p l tail) :
    h.searchBin tSize count p = (l.take count).find? fun a => tSize ≤ h.chunkSize a := by
  induction count generalizing pre p l with
  | zero => rfl
  | succ count ih =>
    cases l with
    | nil => rw [Heap.searchBin, if_pos hlist.1, List.take_nil, List.find?_nil]
    | cons a l =>
      obtain ⟨rfl, hne, -, hlist⟩ := hlist
      rw [Heap.searchBin, if_neg hne, List.take_succ_cons, List.find?_cons, ih hlist]
      split_ifs with hsize
      · rw [decide_eq_true hsize]
      · rw [decide_eq_false hsize]

namespace Inv

variable (inv : Inv e h g)
include inv

theorem emptyBin_iff (i : Nat) : h.emptyBin i = true ↔ g.bin i = [] := by
  rw [Heap.emptyBin, beq_iff_eq]
  exact (inv.bins i).head_eq_nil

theorem binBit_of_emptyBin (hempty : h.emptyBin i = false) : h.binBit i = true := by
  apply inv.bit
  rw [Bool.eq_false_iff, ne_eq, inv.emptyBin_iff] at hempty
  exact hempty

/-- A bin that is not empty stops the search. -/
theorem skipBins_le (hi : i ≤ j) (hj : j < nBins) (hempty : h.emptyBin j = false) :
    (h.skipBins nBins (h.searchBitMap i).2).2 ≤ j := by
  have hle : (h.searchBitMap i).2 ≤ j := by
    by_contra hlt
    have hclear := Heap.searchBitMap_sound (h := h) hi hj (by omega)
    rw [inv.binBit_of_emptyBin hempty] at hclear
    cases hclear
  by_contra hlt
  rw [Heap.skipBins_sound hle (Nat.lt_of_not_le hlt)] at hempty
  cases hempty

/-- The chunks of a bin behind the own one are larger. -/
theorem size_of_bin (hp : p ∈ g.bin i) (hlt : binIndex tSize < i) : tSize ≤ h.chunkSize p := by
  obtain ⟨s, hs, rfl⟩ := (inv.mem_bin i p).mp hp
  rw [inv.size_of hs trivial]
  by_contra hle
  have := binIndex_mono (show s ≤ tSize by omega)
  omega

/-- The walk ends at the last chunk of the bin. -/
theorem walkBack (hne : g.bin i ≠ []) (hlt : binIndex tSize < i) :
    ∃ p ∈ g.bin i, h.walkBack tSize h.tSize (h.ptBin i).hPreChunk = some p := by
  have htail := (inv.bins i).tail_eq
  rw [List.getLast?_eq_some_getLast hne, Option.getD_some] at htail
  have hmem := List.getLast_mem hne
  rw [← htail] at hmem
  refine ⟨_, hmem, ?_⟩
  have hpos : h.tSize = h.tSize - 1 + 1 := by
    have := inv.top_le
    rw [minSize] at this
    omega
  rw [hpos, Heap.walkBack, if_neg (inv.ne_zero hmem),
    if_neg (not_lt.mpr (inv.size_of_bin hmem hlt))]

/-! ## The own bin -/

/-- The chunks of a bin of one size. -/
theorem size_of_smallbin (hsmall : inSmallbinRange tSize = true)
    (hmod : tSize % 8 = 0) (hp : p ∈ g.bin (smallbinIndex tSize)) :
    g.chunk p = some ⟨tSize, .free⟩ := by
  obtain ⟨s, hs, hbin⟩ := (inv.mem_bin _ p).mp hp
  have hbs := inv.tiled.bounds p _ hs
  have hsize : s = tSize := by
    dsimp only at hbs
    simp only [binIndex, inSmallbinRange, smallbinIndex, largebinIndex, decide_eq_true_eq] at *
    split_ifs at hbin <;> omega
  rw [hs, hsize]

end Inv

namespace Heap

/-- The heap that the search behind the own bin of a size starts in, nothing where the own bin has a
chunk. -/
def afterOwnBin (h : Heap) (tSize : Nat) : Option Heap :=
  if inSmallbinRange tSize then
    let (h, p) := h.smallBinMalloc tSize
    if p ≠ 0 then none else some h
  else
    match h.searchBin tSize 99 (h.ptBin (binIndex tSize)).hNextChunk with
    | some _ => none
    | none => some h

/-- The bin that the search behind the own bin of a size ends at, `nBins` and more for the top. -/
def nextBin (h : Heap) (tSize : Nat) : Nat :=
  (h.skipBins nBins (h.searchBitMap (binIndex tSize + 1)).2).2

theorem lt_nextBin (h : Heap) (tSize : Nat) : binIndex tSize < h.nextBin tSize :=
  Nat.lt_of_succ_le ((le_searchBitMap _ _).trans (le_skipBins _ _ _))

theorem searchNextBin_eq (h : Heap) (tSize : Nat) : h.searchNextBin (binIndex tSize) tSize =
    if nBins ≤ h.nextBin tSize then some (h.topAlloc tSize)
    else (h.walkBack tSize h.tSize (h.ptBin (h.nextBin tSize)).hPreChunk).map fun p =>
      (h.takeChunk (h.nextBin tSize) p tSize, h.ptrToHandle (chunk2mem p)) := by
  rw [searchNextBin, Option.map_eq_bind]
  rfl

/-- The heap without the bit of the own bin of a small size. -/
def clearOwnBin (h : Heap) (tSize : Nat) : Heap :=
  if inSmallbinRange tSize then h.clearBinBitMap (binIndex tSize) else h

/-- The chunk that `inter_malloc` takes for a size and may divide, nothing where it takes the chunk
of a small bin or goes to the top. -/
def dividedChunk (h : Heap) (tSize : Nat) : Option Nat :=
  match h.afterOwnBin tSize with
  | none =>
    if inSmallbinRange tSize then none
    else h.searchBin tSize 99 (h.ptBin (binIndex tSize)).hNextChunk
  | some h =>
    if nBins ≤ h.nextBin tSize then none
    else h.walkBack tSize h.tSize (h.ptBin (h.nextBin tSize)).hPreChunk

theorem emptyBin_clearOwnBin (h : Heap) (tSize i : Nat) :
    (h.clearOwnBin tSize).emptyBin i = h.emptyBin i := by
  rw [clearOwnBin]
  split_ifs <;> rfl

end Heap

namespace Inv

theorem clearOwnBin (inv : Inv e h g) (hempty : inSmallbinRange tSize = true →
    h.emptyBin (binIndex tSize) = true) : Inv e (h.clearOwnBin tSize) g := by
  rw [Heap.clearOwnBin]
  split_ifs with hsmall
  · exact inv.clearBin (hempty hsmall)
  · exact inv

/-- The own bin has a chunk where one of its first chunks fits. -/
theorem afterOwnBin (inv : Inv e h g) (hmod : tSize % 8 = 0) :
    (∃ a ∈ (g.bin (binIndex tSize)).take 99, tSize ≤ h.chunkSize a) ∧ h.afterOwnBin tSize = none ∨
      (∀ a ∈ (g.bin (binIndex tSize)).take 99, h.chunkSize a < tSize) ∧
      h.afterOwnBin tSize = some (h.clearOwnBin tSize) ∧
      (inSmallbinRange tSize = true → h.emptyBin (binIndex tSize) = true) := by
  have hlist := inv.bins (binIndex tSize)
  rw [Heap.afterOwnBin, Heap.clearOwnBin]
  by_cases hsmall : inSmallbinRange tSize = true
  · have hbin : binIndex tSize = smallbinIndex tSize := if_pos hsmall
    rw [if_pos hsmall, if_pos hsmall, Heap.smallBinMalloc, ← hbin]
    dsimp only
    cases hl : g.bin (binIndex tSize) with
    | nil =>
      have hempty := (inv.emptyBin_iff (binIndex tSize)).mpr hl
      have hhead : (h.ptBin (binIndex tSize)).hNextChunk = 0 := by
        simpa [Heap.emptyBin] using hempty
      rw [if_neg (not_not.mpr hhead), if_pos hhead, if_pos hempty]
      exact .inr ⟨by simp, rfl, fun _ => hempty⟩
    | cons a l =>
      have hmem : a ∈ g.bin (binIndex tSize) := by
        rw [hl]
        exact List.mem_cons_self
      have hsize := inv.size_of (inv.size_of_smallbin hsmall hmod (hbin ▸ hmem)) trivial
      rw [hl] at hlist
      rw [if_pos (by rw [hlist.1]; exact inv.ne_zero hmem)]
      exact .inl ⟨⟨a, List.mem_cons_self, hsize.ge⟩, rfl⟩
  · rw [if_neg hsmall, if_neg hsmall, searchBin_list hlist]
    cases hfind : (List.take 99 (g.bin (binIndex tSize))).find? fun a => tSize ≤ h.chunkSize a with
    | none =>
      rw [List.find?_eq_none] at hfind
      exact .inr ⟨fun a ha => by simpa using hfind a ha, rfl, fun h => absurd h hsmall⟩
    | some a =>
      exact .inl ⟨⟨a, List.mem_of_find?_eq_some hfind, by simpa using List.find?_some hfind⟩, rfl⟩

end Inv

/-! ## The search -/

theorem request2size_mod (req : Nat) : request2size req % 8 = 0 := by
  rw [request2size]
  split
  · rfl
  · exact Nat.mul_mod_left _ _

/-- How `inter_malloc` finds `tSize` bytes: the chunk is the first one of its small bin, comes from
the own bin or from a larger one, or from the top. -/
inductive Found (e : Prop) (h : Heap) (g : Layout) (tSize : Nat) : Option (Heap × Nat) → Prop where
  | small (p : Nat) (hsmall : inSmallbinRange tSize = true) (hp : g.chunk p = some ⟨tSize, .free⟩)
      (hhead : (h.ptBin (smallbinIndex tSize)).hNextChunk = p) (hown : h.afterOwnBin tSize = none) :
      Found e h g tSize (some ((h.smallBinMalloc tSize).1, p + 8))
  | own (p s : Nat) (hp : g.chunk p = some ⟨s, .free⟩) (hbin : binIndex s = binIndex tSize)
      (hle : tSize ≤ s) (hown : h.afterOwnBin tSize = none) (hdiv : h.dividedChunk tSize = some p) :
      Found e h g tSize (some (h.takeChunk (binIndex s) p tSize, p + 8))
  | next (p s : Nat) (hp : g.chunk p = some ⟨s, .free⟩)
      (hbin : binIndex s = (h.clearOwnBin tSize).nextBin tSize) (hle : tSize ≤ s)
      (inv : Inv e (h.clearOwnBin tSize) g)
      (hown : h.afterOwnBin tSize = some (h.clearOwnBin tSize))
      (hdiv : h.dividedChunk tSize = some p) :
      Found e h g tSize (some ((h.clearOwnBin tSize).takeChunk (binIndex s) p tSize, p + 8))
  | top (inv : Inv e (h.clearOwnBin tSize) g) (hbin : nBins ≤ (h.clearOwnBin tSize).nextBin tSize)
      (hown : h.afterOwnBin tSize = some (h.clearOwnBin tSize)) :
      Found e h g tSize (some ((h.clearOwnBin tSize).topAlloc tSize))

theorem rest_smallBinMalloc : (h.smallBinMalloc tSize).1.rest = h.rest := by
  rw [Heap.smallBinMalloc]
  dsimp only
  split_ifs <;> simp

namespace Inv

theorem ptrToHandle (inv : Inv e h g) (ha : g.chunk a = some c) :
    h.ptrToHandle (chunk2mem a) = a + 8 := by
  have hba := inv.tiled.bounds a c ha
  have htop := inv.top_le
  rw [Heap.ptrToHandle, chunk2mem, if_neg (by omega)]

/-- The search behind the own bin. -/
theorem searchNextBin (inv : Inv e (h.clearOwnBin tSize) g)
    (hown : h.afterOwnBin tSize = some (h.clearOwnBin tSize)) :
    Found e h g tSize ((h.clearOwnBin tSize).searchNextBin (binIndex tSize) tSize) := by
  rw [Heap.searchNextBin_eq]
  split
  next hbin => exact .top inv hbin hown
  next hbin =>
    have hlt := Nat.lt_of_not_le hbin
    have hne : g.bin ((h.clearOwnBin tSize).nextBin tSize) ≠ [] := by
      rw [ne_eq, ← inv.emptyBin_iff, Bool.not_eq_true]
      exact Heap.skipBins_stop (Nat.le_add_right _ _) hlt
    have hgt := (h.clearOwnBin tSize).lt_nextBin tSize
    obtain ⟨p, hp, hwalk⟩ := inv.walkBack hne hgt
    have hle := inv.size_of_bin hp hgt
    obtain ⟨s, hs, hbin⟩ := (inv.mem_bin _ p).mp hp
    rw [inv.size_of hs trivial] at hle
    have hdiv : h.dividedChunk tSize = some p := by
      rw [Heap.dividedChunk, hown]
      exact (if_neg (not_le.mpr hlt)).trans hwalk
    rw [hwalk, Option.map_some, inv.ptrToHandle hs, ← hbin]
    exact .next p s hs hbin hle inv hown hdiv

theorem interMalloc_found (inv : Inv e h g) (hreq : requestOutOfRange req = false) :
    Found e h g (request2size req) (h.interMalloc req) := by
  have hmod := request2size_mod req
  rw [Heap.interMalloc, if_neg (by rw [hreq]; decide)]
  generalize request2size req = tSize at hmod
  have hown := inv.afterOwnBin hmod
  dsimp only
  by_cases hsmall : inSmallbinRange tSize = true
  · have hbin : binIndex tSize = smallbinIndex tSize := if_pos hsmall
    have hafter : h.afterOwnBin tSize = if (h.smallBinMalloc tSize).2 ≠ 0 then none
        else some (h.smallBinMalloc tSize).1 := if_pos hsmall
    rw [if_pos hsmall]
    by_cases hp : (h.smallBinMalloc tSize).2 ≠ 0
    · rw [if_pos hp] at hafter
      have hmem := (inv.head_eq_zero_or_mem (smallbinIndex tSize)).resolve_left hp
      have hs := inv.size_of_smallbin hsmall hmod hmem
      have hptr : (h.smallBinMalloc tSize).1.ptrToHandle (chunk2mem (h.smallBinMalloc tSize).2) =
          (h.smallBinMalloc tSize).2 + 8 := by
        rw [Heap.ptrToHandle, Heap.tSize_of_rest rest_smallBinMalloc]
        exact inv.ptrToHandle hs
      rw [if_pos hp, hptr]
      exact .small _ hsmall hs rfl hafter
    · rw [if_neg hp] at hafter
      rcases hown with ⟨-, hnone⟩ | ⟨-, hsome, hempty⟩
      · rw [hnone] at hafter
        cases hafter
      · have heq : (h.smallBinMalloc tSize).1 = h.clearOwnBin tSize :=
          Option.some.inj (hafter.symm.trans hsome)
        rw [if_neg hp, heq]
        exact (inv.clearOwnBin hempty).searchNextBin hsome
  · have hafter : h.afterOwnBin tSize =
        match h.searchBin tSize 99 (h.ptBin (binIndex tSize)).hNextChunk with
        | some _ => none
        | none => some h := if_neg hsmall
    have hclear : h.clearOwnBin tSize = h := if_neg hsmall
    rw [if_neg hsmall]
    cases hfind : h.searchBin tSize 99 (h.ptBin (binIndex tSize)).hNextChunk with
    | some p =>
      have hle := Heap.searchBin_eq_some hfind
      rw [hfind] at hafter
      have hdiv : h.dividedChunk tSize = some p := by
        rw [Heap.dividedChunk, hafter]
        exact (if_neg hsmall).trans hfind
      rw [searchBin_list (inv.bins (binIndex tSize))] at hfind
      have hmem := List.mem_of_mem_take (List.mem_of_find?_eq_some hfind)
      obtain ⟨s, hs, hbin⟩ := (inv.mem_bin _ p).mp hmem
      rw [inv.size_of hs trivial] at hle
      dsimp only
      rw [inv.ptrToHandle hs, ← hbin]
      exact .own p s hs hbin hle hafter hdiv
    | none =>
      rw [hfind] at hafter
      have hnext := (hclear.symm ▸ inv : Inv e (h.clearOwnBin tSize) g).searchNextBin
        (hafter.trans (congrArg some hclear.symm))
      rw [hclear] at hnext
      exact hnext

end Inv

/-! ## The reads of the search -/

namespace Heap

/-- The words from `m_auiBinBitMap` on that `inter_malloc` reads. -/
def wordsRead (h : Heap) (req : Nat) : List Nat :=
  if requestOutOfRange req then []
  else
    match h.afterOwnBin (request2size req) with
    | none => []
    | some h => (h.searchBitMap (binIndex (request2size req) + 1)).1

/-- The bins that `inter_malloc` reads. -/
def binsRead (h : Heap) (req : Nat) : List Nat :=
  if requestOutOfRange req then []
  else
    binIndex (request2size req) ::
      match h.afterOwnBin (request2size req) with
      | none => []
      | some h => (h.skipBins nBins (h.searchBitMap (binIndex (request2size req) + 1)).2).1

/-- `inter_malloc` goes to the top. -/
def ReachesTop (h : Heap) (req : Nat) : Prop :=
  requestOutOfRange req = false ∧ ∃ h', h.afterOwnBin (request2size req) = some h' ∧
    nBins ≤ h'.nextBin (request2size req)

end Heap

/-- The search of `inter_malloc` reads words and bins that exist, ends, and finds a chunk that is
large enough; it goes to the top only where no larger bin has a chunk. -/
structure SearchOk (h : Heap) (req : Nat) : Prop where
  mono : Monotone binIndex
  words : ∀ w ∈ h.wordsRead req, w < 4
  bins : ∀ i ∈ h.binsRead req, i < nBins
  ends : h.interMalloc req ≠ none
  size : ∀ h' p, h.interMalloc req = some (h', p) → p ≠ 0 → ¬ h.ReachesTop req →
    request2size req ≤ h.chunkSize (mem2chunk p)
  top : h.ReachesTop req → ∀ i, binIndex (request2size req) < i → i < nBins → h.emptyBin i = true

theorem Heap.binsRead_lt (hi : i ∈ h.binsRead req) : i < nBins := by
  rw [Heap.binsRead] at hi
  split at hi
  · cases hi
  · rcases List.mem_cons.mp hi with rfl | hi
    · exact (binIndex_lt _).trans (by decide)
    · split at hi
      · cases hi
      · exact Heap.skipBins_bins hi

namespace Inv

theorem search_ends (inv : Inv e h g) : h.interMalloc req ≠ none := by
  cases hreq : requestOutOfRange req with
  | true =>
    rw [Heap.interMalloc, if_pos hreq]
    exact Option.some_ne_none _
  | false =>
    have hfound := inv.interMalloc_found hreq
    intro hnone
    rw [hnone] at hfound
    cases hfound

theorem search_size (inv : Inv e h g) (heq : h.interMalloc req = some (h', p)) (hp : p ≠ 0)
    (htop : ¬ h.ReachesTop req) : request2size req ≤ h.chunkSize (mem2chunk p) := by
  cases hreq : requestOutOfRange req with
  | true =>
    rw [Heap.interMalloc, if_pos hreq] at heq
    cases heq
    exact absurd rfl hp
  | false =>
    have hfound := inv.interMalloc_found hreq
    rw [heq] at hfound
    generalize hr : some (h', p) = r at hfound
    cases hfound with
    | small q hsmall hq =>
      cases hr
      exact (inv.size_of hq trivial).ge
    | own q s hq hbin hle =>
      cases hr
      exact hle.trans (inv.size_of hq trivial).ge
    | next q s hq hbin hle =>
      cases hr
      exact hle.trans (inv.size_of hq trivial).ge
    | top _ hbin hown => exact absurd ⟨hreq, _, hown, hbin⟩ htop

theorem search_top (inv : Inv e h g) (htop : h.ReachesTop req)
    (hi : binIndex (request2size req) < i)
    (hlt : i < nBins) : h.emptyBin i = true := by
  obtain ⟨-, h', hown, hbin⟩ := htop
  rcases inv.afterOwnBin (request2size_mod req) with ⟨-, hnone⟩ | ⟨-, hsome, hempty⟩
  · rw [hnone] at hown
    cases hown
  · rw [hsome] at hown
    cases hown
    by_contra hne
    rw [Bool.not_eq_true, ← Heap.emptyBin_clearOwnBin h (request2size req)] at hne
    have hle := (inv.clearOwnBin hempty).skipBins_le hi hlt hne
    change (h.clearOwnBin (request2size req)).nextBin (request2size req) ≤ i at hle
    omega

end Inv

/-- The words that the search reads exist where the request is out of range, its own bin serves it,
or a word from that of the next bin on is not 0. -/
theorem searchOk_iff (inv : Inv e h g) (req : Nat) : SearchOk h req ↔
    requestOutOfRange req = true ∨
    (∃ a ∈ (g.bin (binIndex (request2size req))).take 99, request2size req ≤ h.chunkSize a) ∨
    ∃ w, (binIndex (request2size req) + 1) / 32 ≤ w ∧ w < 4 ∧
      (h.clearOwnBin (request2size req)).auiBinBitMap w ≠ 0 := by
  have hrest : SearchOk h req ↔ ∀ w ∈ h.wordsRead req, w < 4 :=
    ⟨fun hok => hok.words, fun hwords => ⟨binIndex_mono, hwords, fun _ hi => Heap.binsRead_lt hi,
      inv.search_ends, fun _ _ => inv.search_size, fun htop _ => inv.search_top htop⟩⟩
  rw [hrest, Heap.wordsRead]
  cases requestOutOfRange req with
  | true => simp
  | false =>
    have hbin := binIndex_lt (request2size req)
    rcases inv.afterOwnBin (request2size_mod req) with ⟨hex, hnone⟩ | ⟨hnot, hsome, -⟩
    · simp [hnone, hex]
    · have hnone : ¬ ∃ a ∈ (g.bin (binIndex (request2size req))).take 99,
          request2size req ≤ h.chunkSize a := by
        rintro ⟨a, ha, hle⟩
        exact absurd (hnot a ha) (not_lt.mpr hle)
      rw [hsome, if_neg (by decide), iff_false_intro hnone, iff_false_intro Bool.false_ne_true,
        false_or, false_or]
      exact Heap.searchBitMap_words (by omega)

/-- A request of 8 bytes in an empty arena. -/
theorem searchOk_iff_empty : ∃ h, init (fun _ => 0) 65536 24 = some h ∧
    (SearchOk h 8 ↔ requestOutOfRange 8 = true ∨
      (∃ a ∈ (List.nil : List Nat).take 99, request2size 8 ≤ h.chunkSize a) ∨
      ∃ w, (binIndex (request2size 8) + 1) / 32 ≤ w ∧ w < 4 ∧
        (h.clearOwnBin (request2size 8)).auiBinBitMap w ≠ 0) := by
  have hinit : ∃ h, init (fun _ => 0) 65536 24 = some h := ⟨_, rfl⟩
  obtain ⟨h, hinit⟩ := hinit
  have sound : Sound True h (emptyLayout fun _ => 0) := init_sound hinit (by decide)
  exact ⟨h, hinit, searchOk_iff sound.toInv 8⟩

/-- The search of an empty arena reads the words behind the bitmap. -/
theorem not_searchOk_empty : ∃ h g, Sound True h g ∧ ¬ SearchOk h 8 := by
  have hinit : init (fun _ => 0) 65536 24 = some _ := rfl
  refine ⟨_, _, init_sound hinit (by decide), fun hok => ?_⟩
  have hwords := hok.words 4 (by decide +kernel)
  exact absurd hwords (by decide)

end ISearch.PtMalloc

import ISearch.Lib.LoadStore

/-!
# The allocator of the cache (`pt_malloc.cc`)

A chunk starts with the size of the chunk before it (only where that chunk is free), its own size
with `PREV_INUSE` in the lowest bit, and, while it is free, the links of its bin. The user area
starts behind the sizes and ends with the first size of the next chunk.

Handles and pointers are offsets from `m_pBaseAddr`. The bytes below `m_hBottom` (`MemHead` and the
bins) are kept as fields.
-/

namespace ISearch.PtMalloc

abbrev Mem := Nat → UInt8

def minSize : Nat := 24
def maxAllocSize : Nat := 0xFFFFFFF8
def nBins : Nat := 128

/-- `chunkhandle2memhandle`, `chunk2mem`. -/
def chunk2mem (h : Nat) : Nat := h + 8

/-- `memhandle2chunkhandle`, `mem2chunk`. -/
def mem2chunk (h : Nat) : Nat := h - 8

/-- `chunksize2memsize`, in 32 bits. -/
def chunkSize2memSize (size : Nat) : Nat := (size + 2 ^ 32 - 4) % 2 ^ 32

def requestOutOfRange (req : Nat) : Bool := 0xFFFFFFD0 ≤ req

def request2size (req : Nat) : Nat :=
  if req + 4 + 7 < minSize then minSize else (req + 4 + 7) / 8 * 8

/-- `REAL_SIZE`: a size without the bits `SIZE_BITS`. -/
def realSize (sz : Nat) : Nat := sz / 8 * 8

/-- The bits `SIZE_BITS`. -/
def sizeBits (sz : Nat) : Nat := sz % 8

def canCombile (size add : Nat) : Bool := size + add ≤ maxAllocSize

def inSmallbinRange (sz : Nat) : Bool := sz < 512

def smallbinIndex (sz : Nat) : Nat := sz / 8

def largebinIndex (sz : Nat) : Nat :=
  if sz / 2 ^ 6 ≤ 32 then 56 + sz / 2 ^ 6
  else if sz / 2 ^ 9 ≤ 20 then 91 + sz / 2 ^ 9
  else if sz / 2 ^ 12 ≤ 10 then 110 + sz / 2 ^ 12
  else if sz / 2 ^ 15 ≤ 4 then 119 + sz / 2 ^ 15
  else if sz / 2 ^ 18 ≤ 2 then 124 + sz / 2 ^ 18
  else 126

def binIndex (sz : Nat) : Nat :=
  if inSmallbinRange sz then smallbinIndex sz else largebinIndex sz

structure CBin where
  hPreChunk : Nat
  hNextChunk : Nat

/-- `DTCBinMalloc` with the `MemHead` of its arena. -/
structure Heap where
  tSize : Nat
  tUserAllocSize : UInt64
  tUserAllocChunkCnt : UInt64
  hBottom : Nat
  hTop : Nat
  tLastFreeChunkSize : Nat
  auiBinBitMap : Nat → UInt32
  shmIntegrity : UInt32
  achReserv : Nat → UInt32
  ptBin : Nat → CBin
  statChunkTotal : Int
  statDataSize : Int
  minChunkSize : Nat
  mem : Mem

namespace Heap

variable (h : Heap)

def getMinChunkSize : Nat :=
  if h.minChunkSize = 1 then
    if h.statChunkTotal ≤ 0 then minSize
    else (h.statDataSize.tdiv h.statChunkTotal % 2 ^ 32).toNat
  else h.minChunkSize

/-- `m_tPreSize`. -/
def tPreSizeAt (p : Nat) : Nat := loadLe h.mem p 4
/-- `m_tSize`. -/
def tSizeAt (p : Nat) : Nat := loadLe h.mem (p + 4) 4
/-- `m_hPreChunk`. -/
def hPreChunkAt (p : Nat) : Nat := loadLe h.mem (p + 8) 8
/-- `m_hNextChunk`. -/
def hNextChunkAt (p : Nat) : Nat := loadLe h.mem (p + 16) 8

def setTPreSize (p v : Nat) : Heap := { h with mem := storeLe h.mem p 4 v }
def setTSize (p v : Nat) : Heap := { h with mem := storeLe h.mem (p + 4) 4 v }
def setHPreChunk (p v : Nat) : Heap := { h with mem := storeLe h.mem (p + 8) 8 v }
def setHNextChunk (p v : Nat) : Heap := { h with mem := storeLe h.mem (p + 16) 8 v }

def chunkSize (p : Nat) : Nat := realSize (h.tSizeAt p)

/-- `prev_inuse`, and `inuse_bit_at_offset` at the end of a chunk. -/
def prevInuse (p : Nat) : Bool := h.tSizeAt p % 2 == 1

/-- `m_tSize |= PREV_INUSE`. -/
def setInuseBit (p : Nat) : Heap := h.setTSize p (h.tSizeAt p ||| 1)

/-- `m_tSize &= ~PREV_INUSE`. -/
def clearInuseBit (p : Nat) : Heap := h.setTSize p (h.tSizeAt p / 2 * 2)

/-- `set_size_at_offset`. -/
def setSizeAt (p size : Nat) : Heap := h.setTSize p (realSize size ||| sizeBits (h.tSizeAt p))

/-- `set_presize_at_offset`. -/
def setPresizeAt (p size : Nat) : Heap := h.setTPreSize p (realSize size)

def ptrToHandle (p : Nat) : Nat := if h.tSize ≤ p then 0 else p

/-- The words from `m_auiBinBitMap` on, as an index without a bound reads them. -/
def binBitMapWord (i : Nat) : UInt32 :=
  if i < 4 then h.auiBinBitMap i else if i = 4 then h.shmIntegrity else h.achReserv (i - 5)

def setBinBitMap (uiBinIdx : Nat) : Heap :=
  let word := h.auiBinBitMap (uiBinIdx / 32) ||| 1 <<< UInt32.ofNat (uiBinIdx % 32)
  { h with auiBinBitMap := Function.update h.auiBinBitMap (uiBinIdx / 32) word }

def clearBinBitMap (uiBinIdx : Nat) : Heap :=
  let word := h.auiBinBitMap (uiBinIdx / 32) &&& ~~~(1 <<< UInt32.ofNat (uiBinIdx % 32))
  { h with auiBinBitMap := Function.update h.auiBinBitMap (uiBinIdx / 32) word }

def emptyBin (uiBinIdx : Nat) : Bool := (h.ptBin uiBinIdx).hNextChunk == 0

def setBin (uiBinIdx : Nat) (bin : CBin) : Heap :=
  { h with ptBin := Function.update h.ptBin uiBinIdx bin }

def unlinkBin (uiBinIdx hHandle : Nat) : Heap :=
  let stBin := h.ptBin uiBinIdx
  if hHandle = 0 then h
  else if stBin.hNextChunk = 0 ∨ stBin.hPreChunk = 0 then h
  else
    let h :=
      if h.hPreChunkAt hHandle = 0 then
        h.setBin uiBinIdx { h.ptBin uiBinIdx with hNextChunk := h.hNextChunkAt hHandle }
      else h.setHNextChunk (h.hPreChunkAt hHandle) (h.hNextChunkAt hHandle)
    if h.hNextChunkAt hHandle = 0 then
      h.setBin uiBinIdx { h.ptBin uiBinIdx with hPreChunk := h.hPreChunkAt hHandle }
    else h.setHPreChunk (h.hNextChunkAt hHandle) (h.hPreChunkAt hHandle)

def linkBin (uiBinIdx hHandle : Nat) : Heap :=
  let stBin := h.ptBin uiBinIdx
  if hHandle = 0 then h
  else
    let h := (h.setHNextChunk hHandle stBin.hNextChunk).setHPreChunk hHandle 0
    if stBin.hNextChunk ≠ 0 then
      let h := h.setHPreChunk stBin.hNextChunk hHandle
      if stBin.hPreChunk = 0 then h
      else h.setBin uiBinIdx { stBin with hNextChunk := hHandle }
    else if stBin.hPreChunk ≠ 0 then h
    else h.setBin uiBinIdx ⟨hHandle, hHandle⟩

/-- `unlink_bin`, and the bit of the bin cleared where it is empty. -/
def unlinkClear (uiBinIdx hHandle : Nat) : Heap :=
  let h := h.unlinkBin uiBinIdx hHandle
  if h.emptyBin uiBinIdx then h.clearBinBitMap uiBinIdx else h

/-! ## Free -/

def checkInuseChunk (pstChunk : Nat) : Int :=
  let pstNext := pstChunk + h.chunkSize pstChunk
  let pstPre := pstChunk - h.tPreSizeAt pstChunk
  if !h.prevInuse pstNext then -1
  else if !h.prevInuse pstChunk ∧
      (h.ptrToHandle pstPre < h.hBottom ∨ h.chunkSize pstPre ≠ h.tPreSizeAt pstChunk) then -2
  else if pstNext ≠ h.hTop ∧ h.chunkSize pstNext < minSize then -3
  else 0

/-- The chunk before `pstChunk` taken into it: the heap, the chunk and its size. -/
def combinePre (pstChunk tSize : Nat) : Heap × Nat × Nat :=
  let tPreSize := h.tPreSizeAt pstChunk
  if !h.prevInuse pstChunk ∧ canCombile tSize tPreSize then
    let tSize := tSize + tPreSize
    let pstChunk := pstChunk - tPreSize
    let h := h.unlinkClear (binIndex tPreSize) pstChunk
    ((h.setSizeAt pstChunk tSize).setPresizeAt (pstChunk + tSize) tSize, pstChunk, tSize)
  else (h, pstChunk, tSize)

/-- The chunk behind `pstChunk` taken into it: the heap and the size, nothing where the next chunk
is invalid. -/
def combineNext (pstChunk tSize : Nat) : Option (Heap × Nat) :=
  if pstChunk + tSize ≠ h.hTop then
    let pstNextChunk := pstChunk + tSize
    let tNextSize := h.chunkSize pstNextChunk
    if tNextSize < minSize then none
    else if !h.prevInuse (pstNextChunk + tNextSize) ∧ canCombile tSize tNextSize then
      let tSize := tSize + tNextSize
      let h := h.unlinkClear (binIndex tNextSize) pstNextChunk
      some ((h.setSizeAt pstChunk tSize).setPresizeAt (pstChunk + tSize) tSize, tSize)
    else some (h, tSize)
  else some (h, tSize)

/-- The sizes of the free chunk, with the bit behind it set. -/
def markFree (pstChunk tSize : Nat) : Heap :=
  let h := (h.setSizeAt pstChunk tSize).setPresizeAt (pstChunk + tSize) tSize
  let h := h.setInuseBit (pstChunk + tSize)
  { h with tLastFreeChunkSize := max h.tLastFreeChunkSize tSize }

/-- The free chunk at the end of the chunks goes to the top. -/
def lowerTop (pstChunk tSize : Nat) : Heap :=
  let h := { h with hTop := h.hTop - tSize }.setTSize pstChunk 1
  if h.tSize > h.hTop + minSize then
    { h with tLastFreeChunkSize := max h.tLastFreeChunkSize (h.tSize - h.hTop - minSize) }
  else h

/-- The end of `inter_free`: the free chunk goes to the top or into its bin. -/
def placeFree (pstChunk tSize : Nat) : Heap :=
  let h := h.markFree pstChunk tSize
  if pstChunk + tSize = h.hTop then h.lowerTop pstChunk tSize
  else
    let h := h.clearInuseBit (pstChunk + tSize)
    (h.linkBin (binIndex tSize) pstChunk).setBinBitMap (binIndex tSize)

/-- `inter_free`: the heap, the result and `tMemSize`. Three checks answer `INVALID_HANDLE`, which
is 0. -/
def interFree (hHandle : Nat) : Heap × Int × Nat :=
  if hHandle = 0 then (h, 0, 0)
  else if h.tSize ≤ hHandle then (h, -1, 0)
  else
    let pstChunk := mem2chunk hHandle
    let tSize := h.chunkSize pstChunk
    if h.tSize ≤ h.ptrToHandle pstChunk + tSize then (h, -2, tSize)
    else if !h.prevInuse (pstChunk + tSize) then (h, -3, tSize)
    else if pstChunk % 8 ≠ 0 then (h, 0, tSize)
    else if h.checkInuseChunk pstChunk ≠ 0 then (h, 0, tSize)
    else
      let (h, pstChunk, size) := h.combinePre pstChunk tSize
      match h.combineNext pstChunk size with
      | none => (h, -4, tSize)
      | some (h, size) => (h.placeFree pstChunk size, 0, tSize)

def free (hHandle : Nat) : Heap × Int :=
  let (h, iRet, tSize) := h.interFree hHandle
  if iRet = 0 then
    let userAllocSize := h.tUserAllocSize - UInt64.ofNat tSize
    ({ h with
        tUserAllocSize := userAllocSize
        tUserAllocChunkCnt := h.tUserAllocChunkCnt - 1
        statChunkTotal := h.statChunkTotal - 1
        statDataSize := userAllocSize.toNat }, iRet)
  else (h, iRet)

/-- `ask_for_destroy_size`, 0 for an invalid handle. -/
def askForDestroySize (hHandle : Nat) : Nat :=
  if hHandle = 0 ∨ h.tSize ≤ hHandle then 0
  else
    let currentChunk := mem2chunk hHandle
    let physicSize := h.chunkSize currentChunk
    if h.tSize < h.ptrToHandle currentChunk + physicSize then 0
    else if !h.prevInuse (currentChunk + physicSize) then 0
    else if currentChunk % 8 ≠ 0 then 0
    else if h.checkInuseChunk currentChunk ≠ 0 then 0
    else
      let tPreSize := h.tPreSizeAt currentChunk
      let (physicHandle, physicSize) :=
        if !h.prevInuse currentChunk ∧ canCombile physicSize tPreSize then
          (currentChunk - tPreSize, physicSize + tPreSize)
        else (currentChunk, physicSize)
      let nextChunk := physicHandle + physicSize
      let nextSize := h.chunkSize nextChunk
      if nextChunk ≠ h.hTop ∧ nextSize < minSize then 0
      else
        let physicSize :=
          if nextChunk ≠ h.hTop ∧ !h.prevInuse (nextChunk + nextSize) ∧
              canCombile physicSize nextSize then physicSize + nextSize
          else physicSize
        let physicSize :=
          if physicHandle + physicSize = h.hTop then
            -- `ALLOC_SIZE_T physic_free`
            let physicFree := (h.tSize + 2 ^ 64 - h.hTop - minSize + physicSize) % 2 ^ 32
            if physicSize < physicFree then physicFree else physicSize
          else physicSize
        chunkSize2memSize physicSize

/-! ## Malloc -/

/-- `top_alloc`: the user handle, 0 where the memory is used up. -/
def topAlloc (tSize : Nat) : Heap × Nat :=
  if h.tSize ≤ h.hTop + tSize + minSize then (h, 0)
  else
    let p := h.hTop
    let h := h.setTSize p (sizeBits (h.tSizeAt p) ||| realSize tSize)
    let h := (h.setTPreSize (p + tSize) (realSize tSize)).setTSize (p + tSize) 1
    ({ h with hTop := p + tSize }, h.ptrToHandle (chunk2mem p))

/-- `small_bin_malloc` with `bin_malloc`: the first chunk of the bin, 0 where it is empty. -/
def smallBinMalloc (tSize : Nat) : Heap × Nat :=
  let uiBinIdx := smallbinIndex tSize
  let p := (h.ptBin uiBinIdx).hNextChunk
  let h := if p = 0 then h else (h.setInuseBit (p + h.chunkSize p)).unlinkBin uiBinIdx p
  (if h.emptyBin uiBinIdx then h.clearBinBitMap uiBinIdx else h, p)

/-- The search of the own bin of a large size, from the chunk `v` on, for `count` more chunks. -/
def searchBin (tSize : Nat) : Nat → Nat → Option Nat
  | 0, _ => none
  | count + 1, v =>
    if v = 0 then none
    else if tSize ≤ h.chunkSize v then some v
    else searchBin tSize count (h.hNextChunkAt v)

/-- The loop over the words of the bitmap: the words read and the word it stops at.
`sizeof(m_auiBinBitMap)` is 16. -/
def skipWords : Nat → Nat → List Nat × Nat
  | 0, uiBitMapIdx => ([], uiBitMapIdx)
  | fuel + 1, uiBitMapIdx =>
    if uiBitMapIdx < 16 then
      if h.binBitMapWord uiBitMapIdx = 0 then
        let (words, stop) := skipWords fuel (uiBitMapIdx + 1)
        (uiBitMapIdx :: words, stop)
      else ([uiBitMapIdx], uiBitMapIdx)
    else ([], uiBitMapIdx)

/-- The words of the bitmap that the search of the bins from `uiBinIdx` on reads, and the bin that
the scan starts at. -/
def searchBitMap (uiBinIdx : Nat) : List Nat × Nat :=
  let uiBitMapIdx := uiBinIdx / 32
  if h.binBitMapWord uiBitMapIdx = 0 then
    let (words, stop) := h.skipWords 16 (uiBitMapIdx + 1)
    (uiBitMapIdx :: words, stop * 32)
  else ([uiBitMapIdx], uiBinIdx)

/-- The loop over the bins, for `fuel` more bins: the bins read and the bin it stops at. -/
def skipBins : Nat → Nat → List Nat × Nat
  | 0, uiBinIdx => ([], uiBinIdx)
  | fuel + 1, uiBinIdx =>
    if uiBinIdx < nBins then
      if h.emptyBin uiBinIdx then
        let (bins, stop) := skipBins fuel (uiBinIdx + 1)
        (uiBinIdx :: bins, stop)
      else ([uiBinIdx], uiBinIdx)
    else ([], uiBinIdx)

/-- The walk from the last chunk of a bin to the first one that fits. Nothing where it reads behind
the end of the list, or does not end. -/
def walkBack (tSize : Nat) : Nat → Nat → Option Nat
  | 0, _ => none
  | fuel + 1, hPre =>
    if hPre = 0 then none
    else if h.chunkSize hPre < tSize then walkBack tSize fuel (h.hPreChunkAt hPre)
    else some hPre

/-- The chunk `pstChunk` taken out of its bin for `tSize` bytes; the rest goes back. -/
def takeChunk (uiBinIdx pstChunk tSize : Nat) : Heap :=
  let tRemainSize := h.chunkSize pstChunk - tSize
  let h := h.unlinkClear uiBinIdx pstChunk
  if tRemainSize < h.getMinChunkSize then h.setInuseBit (pstChunk + h.chunkSize pstChunk)
  else
    let h := h.setTSize pstChunk (tSize ||| sizeBits (h.tSizeAt pstChunk))
    let pstNextChunk := pstChunk + tSize
    let h := (h.setTSize pstNextChunk tRemainSize).setTPreSize pstNextChunk tSize
    let h := (h.setInuseBit pstNextChunk).setTPreSize (pstNextChunk + tRemainSize) tRemainSize
    let h := h.setInuseBit (pstNextChunk + tRemainSize)
    (h.interFree (chunk2mem (h.ptrToHandle pstNextChunk))).1

/-- The search behind the own bin, down to the top. -/
def searchNextBin (uiBinIdx tSize : Nat) : Option (Heap × Nat) :=
  let uiBinIdx := (h.skipBins nBins (h.searchBitMap (uiBinIdx + 1)).2).2
  if nBins ≤ uiBinIdx then
    some (h.topAlloc tSize)
  else do
    let pstChunk ← h.walkBack tSize h.tSize (h.ptBin uiBinIdx).hPreChunk
    return (h.takeChunk uiBinIdx pstChunk tSize, h.ptrToHandle (chunk2mem pstChunk))

/-- `inter_malloc`: the user handle, 0 where it fails. -/
def interMalloc (req : Nat) : Option (Heap × Nat) :=
  if requestOutOfRange req then some (h, 0)
  else
    let tSize := request2size req
    let uiBinIdx := binIndex tSize
    if inSmallbinRange tSize then
      let (h, p) := h.smallBinMalloc tSize
      if p ≠ 0 then some (h, h.ptrToHandle (chunk2mem p)) else h.searchNextBin uiBinIdx tSize
    else
      match h.searchBin tSize 99 (h.ptBin uiBinIdx).hNextChunk with
      | some pstChunk =>
        some (h.takeChunk uiBinIdx pstChunk tSize, h.ptrToHandle (chunk2mem pstChunk))
      | none => h.searchNextBin uiBinIdx tSize

def malloc (tSize : Nat) : Option (Heap × Nat) := do
  let (h, hHandle) ← { h with tLastFreeChunkSize := 0 }.interMalloc tSize
  if hHandle ≠ 0 then
    let userAllocSize := h.tUserAllocSize + UInt64.ofNat (h.chunkSize (mem2chunk hHandle))
    return ({ h with
      tUserAllocSize := userAllocSize
      tUserAllocChunkCnt := h.tUserAllocChunkCnt + 1
      statChunkTotal := h.statChunkTotal + 1
      statDataSize := userAllocSize.toNat }, hHandle)
  else return (h, hHandle)

def calloc (tSize : Nat) : Option (Heap × Nat) := do
  let (h, hHandle) ← h.malloc tSize
  if hHandle ≠ 0 then
    return ({ h with mem := write h.mem hHandle (List.replicate tSize 0) }, hHandle)
  else return (h, hHandle)

/-! ## ReAlloc -/

/-- `tThisChunkSize`: the part of the rest that the loop of `inter_re_alloc` frees next. -/
def thisChunkSize (tRemainderSize : Nat) : Nat :=
  if maxAllocSize < tRemainderSize then
    if minSize ≤ tRemainderSize - maxAllocSize then realSize maxAllocSize
    else realSize (tRemainderSize - minSize)
  else tRemainderSize

/-- The loop that frees what is left behind a chunk, in parts of at most `MAX_ALLOC_SIZE`. -/
def freeRemainder (h : Heap) (pstRemainChunk tRemainderSize : Nat) : Heap :=
  let tThisChunkSize := thisChunkSize tRemainderSize
  let pstNextChunk := pstRemainChunk + realSize tThisChunkSize
  let h := h.setTSize pstRemainChunk (realSize tThisChunkSize ||| 1)
  let h := (h.setTPreSize pstNextChunk (realSize tThisChunkSize)).setInuseBit pstNextChunk
  let h := h.setInuseBit (pstRemainChunk + tThisChunkSize)
  let h := (h.interFree (h.ptrToHandle (chunk2mem pstRemainChunk))).1
  if 0 < tRemainderSize - tThisChunkSize then
    freeRemainder h pstNextChunk (tRemainderSize - tThisChunkSize)
  else h
termination_by tRemainderSize
decreasing_by
  have hpos : 0 < tRemainderSize → 0 < thisChunkSize tRemainderSize := by
    rw [thisChunkSize, maxAllocSize, minSize, realSize, realSize]
    split
    · split <;> omega
    · exact id
  omega

/-- The end of `inter_re_alloc`: the chunk `hNewHandle` of `tNewSize` bytes, which are at least
`tSize`, cut to `tSize`. -/
def cutChunk (hNewHandle tNewSize tSize tPreSize : Nat) (iPreInUse : Bool) : Heap × Nat :=
  let tRemainderSize := tNewSize - tSize
  let (h, tNewSize) :=
    if h.getMinChunkSize ≤ tRemainderSize then
      (h.freeRemainder (hNewHandle + tSize) tRemainderSize, tSize)
    else (h.setInuseBit (hNewHandle + realSize tNewSize), tNewSize)
  -- `m_tSize` has 32 bits
  let h := h.setTSize hNewHandle (realSize tNewSize % 2 ^ 32)
  let h := if iPreInUse then h.setInuseBit hNewHandle else h
  let h := h.setTPreSize hNewHandle tPreSize
  (h, h.ptrToHandle (chunk2mem hNewHandle))

/-- The chunk `pstChunk` grown, where it is too small: into the top, into the next chunk, into the
chunk before, or by a copy. -/
def growChunk (pstChunk tOldSize tSize tUserReqSize : Nat) : Option (Heap × Nat) :=
  let pstNextChunk := pstChunk + tOldSize
  let tNextSize := h.chunkSize pstNextChunk
  let tPreSize := h.tPreSizeAt pstChunk
  let iPreInUse := h.prevInuse pstChunk
  if pstNextChunk = h.hTop ∧ h.hTop + (tSize - tOldSize) + minSize < h.tSize then
    let hTop := h.hTop + (tSize - tOldSize)
    let h := h.setTSize pstChunk (realSize tSize ||| sizeBits (h.tSizeAt pstChunk))
    let h := (h.setTPreSize hTop (realSize tSize)).setTSize hTop 1
    some ({ h with hTop := hTop }, h.ptrToHandle (chunk2mem pstChunk))
  else if pstNextChunk ≠ h.hTop ∧ !h.prevInuse (pstNextChunk + tNextSize) ∧
      tSize ≤ tOldSize + tNextSize then
    let h := h.unlinkBin (binIndex tNextSize) pstNextChunk
    some (h.cutChunk pstChunk (tOldSize + tNextSize) tSize tPreSize iPreInUse)
  else if !iPreInUse ∧ tSize ≤ (tOldSize + tPreSize) % 2 ^ 32 then
    let pstTmp := pstChunk - tPreSize
    let iPreInUse := h.prevInuse pstTmp
    let tTmpPreSize := h.tPreSizeAt pstTmp
    let h := h.unlinkBin (binIndex tPreSize) pstTmp
    let h := { h with
      mem := memmove h.mem (chunk2mem pstTmp) (chunk2mem pstChunk) (chunkSize2memSize tOldSize) }
    some (h.cutChunk pstTmp (tOldSize + tPreSize) tSize tTmpPreSize iPreInUse)
  else do
    let (h, hNewHandle) ← h.interMalloc tUserReqSize
    if hNewHandle = 0 then return (h, 0)
    else
      let h := { h with
        mem := memmove h.mem hNewHandle (chunk2mem pstChunk) (chunkSize2memSize tOldSize) }
      return ((h.interFree (chunk2mem pstChunk)).1, hNewHandle)

/-- `inter_re_alloc`: the heap, the user handle and `tOldMemSize`. -/
def interReAlloc (hHandle tUserReqSize : Nat) : Option (Heap × Nat × Nat) :=
  if hHandle = 0 then do
    let (h, hNewHandle) ← h.interMalloc tUserReqSize
    return (h, hNewHandle, 0)
  else if tUserReqSize = 0 then
    let (h, _, tOldMemSize) := h.interFree hHandle
    some (h, 0, tOldMemSize)
  else if requestOutOfRange tUserReqSize then some (h, 0, 0)
  else
    let tSize := request2size tUserReqSize
    if h.hTop ≤ hHandle ∨ hHandle ≤ h.hBottom then some (h, 0, 0)
    else
      let pstChunk := mem2chunk hHandle
      let tOldSize := h.chunkSize pstChunk
      if h.hTop < h.ptrToHandle pstChunk + tOldSize then some (h, 0, 0)
      else if pstChunk % 8 ≠ 0 then some (h, 0, 0)
      else if tOldSize < minSize then some (h, 0, 0)
      else if h.checkInuseChunk pstChunk ≠ 0 then some (h, 0, 0)
      else if tSize ≤ tOldSize then
        let (h, hNewHandle) := h.cutChunk pstChunk tOldSize tSize (h.tPreSizeAt pstChunk)
          (h.prevInuse pstChunk)
        some (h, hNewHandle, tOldSize)
      else do
        let (h, hNewHandle) ← h.growChunk pstChunk tOldSize tSize tUserReqSize
        return (h, hNewHandle, tOldSize)

def reAlloc (hHandle tSize : Nat) : Option (Heap × Nat) := do
  let (h, hNewHandle, tOldSize) ← { h with tLastFreeChunkSize := 0 }.interReAlloc hHandle tSize
  if hNewHandle ≠ 0 then
    let userAllocSize := h.tUserAllocSize + UInt64.ofNat (h.chunkSize (mem2chunk hNewHandle)) -
      UInt64.ofNat tOldSize
    let added := if hHandle = 0 then 1 else 0
    return ({ h with
      tUserAllocSize := userAllocSize
      tUserAllocChunkCnt := h.tUserAllocChunkCnt + UInt64.ofNat added
      statChunkTotal := h.statChunkTotal + added
      statDataSize := userAllocSize.toNat }, hNewHandle)
  else if tSize = 0 then
    let userAllocSize := h.tUserAllocSize - UInt64.ofNat tOldSize
    return ({ h with
      tUserAllocSize := userAllocSize
      tUserAllocChunkCnt := h.tUserAllocChunkCnt - 1
      statChunkTotal := h.statChunkTotal - 1
      statDataSize := userAllocSize.toNat }, hNewHandle)
  else return (h, hNewHandle)

end Heap

/-- `Init` of an arena of `tSize` bytes that holds `mem`, nothing where it is too small. -/
def init (mem : Mem) (tSize minChunkSize : Nat) : Option Heap :=
  -- `sizeof(MemHead)`, the bins and the reserved zone
  let hBottom := 1024 + 16 * (128 + 64 + 1) + 4096
  if tSize < hBottom + minSize then none
  else some {
    tSize
    tUserAllocSize := UInt64.ofNat hBottom
    tUserAllocChunkCnt := 0
    hBottom
    hTop := hBottom
    tLastFreeChunkSize := tSize - hBottom - minSize
    auiBinBitMap := fun _ => 0
    shmIntegrity := 0
    achReserv := fun _ => 0
    ptBin := fun _ => ⟨0, 0⟩
    statChunkTotal := 0
    statDataSize := hBottom
    minChunkSize
    mem := storeLe (storeLe mem hBottom 4 0) (hBottom + 4) 4 1 }

end ISearch.PtMalloc

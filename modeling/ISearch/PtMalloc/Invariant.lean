import ISearch.PtMalloc.Fields
import ISearch.PtMalloc.Layout
import ISearch.Lib.DoublyLinked

/-!
# The invariant of the heap

`Inv e h g` says that the memory of `h` is laid out as `g` says. A clear `PREV_INUSE` always means
that the chunk before is free. With `e` the bit is exact, and no two free chunks that could be one
follow each other.
-/

namespace ISearch.PtMalloc

/-! ## The layout -/

/-- The chunks, the free chunks of each bin, and the bytes of the blocks of the user. -/
structure Layout where
  chunk : Chunks
  bin : Nat → List Nat
  data : Mem

def Layout.set (g : Layout) (a : Nat) (c : Option Chunk) : Layout :=
  { g with chunk := Function.update g.chunk a c }

/-- The header of the chunk holds its size. -/
def Use.Sized : Use → Prop
  | .used | .free => True
  | .held | .idle => False

/-- The user area of the chunk holds data. -/
def Use.Owned : Use → Prop
  | .used | .held => True
  | .free | .idle => False

/-- The bit of a bin in the bitmap. -/
def Heap.binBit (h : Heap) (i : Nat) : Bool :=
  (h.auiBinBitMap (i / 32)).toNat.testBit (i % 32)

/-- The headers, the sizes behind free chunks, and the blocks. -/
structure Body (e : Prop) (h : Heap) (g : Layout) : Prop where
  tiled : Tiled g.chunk h.hBottom h.hTop
  bottom_pos : 0 < h.hBottom
  top_le : h.hTop + minSize ≤ h.tSize
  size_lt : h.tSize < 2 ^ 64
  size : ∀ a c, g.chunk a = some c → c.use.Sized → h.chunkSize a = c.size
  pre_bottom : h.prevInuse h.hBottom = true
  pre_top : h.prevInuse h.hTop = true
  pre_owned : ∀ a c, g.chunk a = some c → c.use.Owned → h.prevInuse (a + c.size) = true
  pre_size : ∀ a s, g.chunk a = some ⟨s, .free⟩ → h.prevInuse (a + s) = false →
    h.tPreSizeAt (a + s) = s
  data : ∀ a c, g.chunk a = some c → c.use.Owned →
    ∀ k, a + 8 ≤ k → k < a + c.size + 4 → h.mem k = g.data k
  exact : e → ∀ a s, g.chunk a = some ⟨s, .free⟩ → h.prevInuse (a + s) = false
  apart : e → ∀ a s s', g.chunk a = some ⟨s, .free⟩ → g.chunk (a + s) = some ⟨s', .free⟩ →
    maxAllocSize < s + s'

/-- The bins hold the free chunks. -/
structure Binned (h : Heap) (g : Layout) : Prop where
  bins : ∀ i, IsDList h.hPreChunkAt h.hNextChunkAt 0 0 (h.ptBin i).hNextChunk (g.bin i)
    (h.ptBin i).hPreChunk
  nodup : ∀ i, (g.bin i).Nodup
  mem_bin : ∀ i a, a ∈ g.bin i ↔ ∃ s, g.chunk a = some ⟨s, .free⟩ ∧ binIndex s = i
  bit : ∀ i, g.bin i ≠ [] → h.binBit i = true

structure Inv (e : Prop) (h : Heap) (g : Layout) : Prop extends Body e h g, Binned h g

variable {e : Prop} {h : Heap} {g : Layout} {m' : Mem} {a b x s s' t i top' : Nat} {c d : Chunk}
  {u : Use} {chunk' : Chunks} {l : List Nat}

namespace Body

theorem size_of (body : Body e h g) (ha : g.chunk a = some ⟨s, u⟩) (hu : u.Sized) :
    h.chunkSize a = s := body.size a _ ha hu

theorem pos (body : Body e h g) (ha : g.chunk a = some c) : 0 < a := by
  have := (body.tiled.bounds a c ha).1
  have := body.bottom_pos
  omega

theorem isStart_bottom (body : Body e h g) : IsStart g.chunk h.hTop h.hBottom := by
  by_cases htop : h.hBottom = h.hTop
  · exact .inl htop
  · exact .inr (body.tiled.first htop)

/-- The body of another heap with the same memory. -/
theorem of_eq {h' : Heap} (body : Body e h g) (hmem : h'.mem = h.mem)
    (hbottom : h'.hBottom = h.hBottom) (htop : h'.hTop = h.hTop) (hsize : h'.tSize = h.tSize) :
    Body e h' g := by
  have htSize : h'.tSizeAt = h.tSizeAt := by
    funext p
    rw [Heap.tSizeAt, hmem, Heap.tSizeAt]
  have hchunk : h'.chunkSize = h.chunkSize := by
    funext p
    rw [Heap.chunkSize, htSize, Heap.chunkSize]
  have hinuse : h'.prevInuse = h.prevInuse := by
    funext p
    rw [Heap.prevInuse, htSize, Heap.prevInuse]
  have hpreSize : h'.tPreSizeAt = h.tPreSizeAt := by
    funext p
    rw [Heap.tPreSizeAt, hmem, Heap.tPreSizeAt]
  refine ⟨?_, ?_, ?_, ?_, ?_, ?_, ?_, ?_, ?_, ?_, ?_, body.apart⟩
  · rw [hbottom, htop]
    exact body.tiled
  · rw [hbottom]
    exact body.bottom_pos
  · rw [htop, hsize]
    exact body.top_le
  · rw [hsize]
    exact body.size_lt
  · rw [hchunk]
    exact body.size
  · rw [hinuse, hbottom]
    exact body.pre_bottom
  · rw [hinuse, htop]
    exact body.pre_top
  · rw [hinuse]
    exact body.pre_owned
  · rw [hinuse, hpreSize]
    exact body.pre_size
  · rw [hmem]
    exact body.data
  · rw [hinuse]
    exact body.exact

/-- The body with another layout of the same chunks. -/
theorem of_layout {g' : Layout} (body : Body e h g) (hchunk : g'.chunk = g.chunk)
    (hdata : g'.data = g.data) : Body e h g' := by
  refine ⟨?_, body.bottom_pos, body.top_le, body.size_lt, ?_, body.pre_bottom, body.pre_top, ?_,
    ?_, ?_, ?_, ?_⟩
  · rw [hchunk]
    exact body.tiled
  · rw [hchunk]
    exact body.size
  · rw [hchunk]
    exact body.pre_owned
  · rw [hchunk]
    exact body.pre_size
  · rw [hchunk, hdata]
    exact body.data
  · rw [hchunk]
    exact body.exact
  · rw [hchunk]
    exact body.apart

/-- A write that leaves the headers, the sizes behind free chunks, and the blocks. -/
theorem frame (body : Body e h g)
    (hhead : ∀ x, IsStart g.chunk h.hTop x → ∀ k, x + 4 ≤ k → k < x + 8 → m' k = h.mem k)
    (hfree : ∀ a s, g.chunk a = some ⟨s, .free⟩ → ∀ k, a + s ≤ k → k < a + s + 4 → m' k = h.mem k)
    (hdata : ∀ a c, g.chunk a = some c → c.use.Owned →
      ∀ k, a + 8 ≤ k → k < a + c.size + 4 → m' k = h.mem k) :
    Body e { h with mem := m' } g := by
  have hpre (x : Nat) (hx : IsStart g.chunk h.hTop x) :
      { h with mem := m' }.prevInuse x = h.prevInuse x := Heap.prevInuse_congr (hhead x hx)
  have hend (a : Nat) (c : Chunk) (ha : g.chunk a = some c) := body.tiled.isStart_end ha
  refine ⟨body.tiled, body.bottom_pos, body.top_le, body.size_lt, fun a c ha hu => ?_, ?_, ?_,
    fun a c ha hu => ?_, fun a s ha hflag => ?_, fun a c ha hu k hk hk' => ?_,
    fun he a s ha => ?_, body.apart⟩
  · rw [Heap.chunkSize_congr (hhead a (.inr ⟨c, ha⟩))]
    exact body.size a c ha hu
  · exact (hpre _ body.isStart_bottom).trans body.pre_bottom
  · exact (hpre _ (.inl rfl)).trans body.pre_top
  · exact (hpre _ (hend a c ha)).trans (body.pre_owned a c ha hu)
  · rw [Heap.tPreSizeAt_congr (hfree a s ha)]
    exact body.pre_size a s ha ((hpre _ (hend a _ ha)).symm.trans hflag)
  · exact (hdata a c ha hu k hk hk').trans (body.data a c ha hu k hk hk')
  · exact (hpre _ (hend a _ ha)).trans (body.exact he a s ha)

/-- A new header of a chunk or of the top. The bit of the chunk before may be set where that chunk
is not free, and cleared where it is idle. -/
theorem write_header (body : Body e h g) (hx : IsStart g.chunk h.hTop x)
    (hm : ∀ k, k < x + 4 ∨ x + 8 ≤ k → m' k = h.mem k)
    (hsize : ∀ c, g.chunk x = some c → c.use.Sized → { h with mem := m' }.chunkSize x = c.size)
    (hpre : { h with mem := m' }.prevInuse x = h.prevInuse x ∨
      { h with mem := m' }.prevInuse x = true ∧
        (e → ∀ a s, g.chunk a = some ⟨s, .free⟩ → a + s ≠ x) ∨
      x ≠ h.hTop ∧ ∃ a s, g.chunk a = some ⟨s, .idle⟩ ∧ a + s = x) :
    Body e { h with mem := m' } g := by
  have hmodx := body.tiled.isStart_mod hx
  have hhead (y : Nat) (hy : IsStart g.chunk h.hTop y) (hne : y ≠ x) :
      ∀ k, y + 4 ≤ k → k < y + 8 → m' k = h.mem k := by
    intro k hk hk'
    have hmody := body.tiled.isStart_mod hy
    exact hm k (by omega)
  have hend (a : Nat) (c : Chunk) (ha : g.chunk a = some c) := body.tiled.isStart_end ha
  have hidle (a : Nat) (c : Chunk) (ha : g.chunk a = some c) (hu : c.use ≠ .idle)
      (hax : a + c.size = x) : ¬ (x ≠ h.hTop ∧ ∃ b s, g.chunk b = some ⟨s, .idle⟩ ∧ b + s = x) := by
    rintro ⟨-, b, s, hb, hbx⟩
    have hab := body.tiled.end_inj ha hb (hax.trans hbx.symm)
    subst hab
    rw [ha] at hb
    cases hb
    exact hu rfl
  -- a bit that was set is still set, unless the chunk before is idle
  have hset (y : Nat) (hy : IsStart g.chunk h.hTop y) (hold : h.prevInuse y = true)
      (hidle : y = x → ¬ (x ≠ h.hTop ∧ ∃ a s, g.chunk a = some ⟨s, .idle⟩ ∧ a + s = x)) :
      { h with mem := m' }.prevInuse y = true := by
    by_cases hne : y = x
    · subst hne
      rcases hpre with heq | ⟨htrue, -⟩ | hcase
      · exact heq.trans hold
      · exact htrue
      · exact absurd hcase (hidle rfl)
    · exact (Heap.prevInuse_congr (hhead y hy hne)).trans hold
  refine ⟨body.tiled, body.bottom_pos, body.top_le, body.size_lt, fun a c ha hu => ?_, ?_, ?_,
    fun a c ha hu => ?_, fun a s ha hflag => ?_, fun a c ha hu k hk hk' => ?_,
    fun he a s ha => ?_, body.apart⟩
  · by_cases hne : a = x
    · subst hne
      exact hsize c ha hu
    · rw [Heap.chunkSize_congr (hhead a (.inr ⟨c, ha⟩) hne)]
      exact body.size a c ha hu
  · refine hset _ body.isStart_bottom body.pre_bottom fun hxb hidle => ?_
    obtain ⟨-, a, s, ha, hax⟩ := hidle
    have hba := body.tiled.bounds a _ ha
    dsimp only at hba
    change h.hBottom = x at hxb
    omega
  · exact hset _ (.inl rfl) body.pre_top fun hxt hidle => hidle.1 hxt.symm
  · refine hset _ (hend a c ha) (body.pre_owned a c ha hu) fun hxa => hidle a c ha ?_ hxa
    rintro huse
    rw [huse] at hu
    exact hu
  · have hmody := body.tiled.isStart_mod (hend a _ ha)
    rw [Heap.tPreSizeAt_congr fun k hk hk' => hm k (by dsimp only at hmody; omega)]
    refine body.pre_size a s ha ?_
    by_cases hne : a + s = x
    · rcases hpre with heq | ⟨htrue, -⟩ | hcase
      · rw [hne] at hflag ⊢
        exact heq.symm.trans hflag
      · rw [hne, htrue] at hflag
        cases hflag
      · exact absurd hcase (hidle a _ ha (by simp) hne)
    · exact (Heap.prevInuse_congr (hhead _ (hend a _ ha) hne)).symm.trans hflag
  · have hle := body.tiled.start_le_or_le ha hx
    exact (hm k (by omega)).trans (body.data a c ha hu k hk hk')
  · by_cases hne : a + s = x
    · rcases hpre with heq | ⟨-, hfree⟩ | hcase
      · rw [hne, heq, ← hne]
        exact body.exact he a s ha
      · exact absurd hne (hfree he a s ha)
      · exact absurd hcase (hidle a _ ha (by simp) hne)
    · exact (Heap.prevInuse_congr (hhead _ (hend a _ ha) hne)).trans (body.exact he a s ha)

/-- Other chunks, of which the new ones are idle, and another top. -/
theorem relayout (body : Body e h g) (htiled : Tiled chunk' h.hBottom top')
    (hle : top' + minSize ≤ h.tSize) (hpre : h.prevInuse top' = true)
    (hnew : ∀ a c, chunk' a = some c → g.chunk a = some c ∨ c.use = .idle) :
    Body e { h with hTop := top' } { g with chunk := chunk' } := by
  have hold (a : Nat) (c : Chunk) (ha : chunk' a = some c) (hu : c.use ≠ .idle) :
      g.chunk a = some c := (hnew a c ha).resolve_right hu
  have howned (c : Chunk) (hu : c.use.Owned) : c.use ≠ .idle := by
    rintro huse
    rw [huse] at hu
    exact hu
  have hsized (c : Chunk) (hu : c.use.Sized) : c.use ≠ .idle := by
    rintro huse
    rw [huse] at hu
    exact hu
  exact ⟨htiled, body.bottom_pos, hle, body.size_lt,
    fun a c ha hu => body.size a c (hold a c ha (hsized c hu)) hu, body.pre_bottom, hpre,
    fun a c ha hu => body.pre_owned a c (hold a c ha (howned c hu)) hu,
    fun a s ha => body.pre_size a s (hold a _ ha (by simp)),
    fun a c ha hu => body.data a c (hold a c ha (howned c hu)) hu,
    fun he a s ha => body.exact he a s (hold a _ ha (by simp)),
    fun he a s s' ha hb => body.apart he a s s' (hold a _ ha (by simp)) (hold _ _ hb (by simp))⟩

end Body

namespace Binned

theorem frame (binned : Binned h g)
    (hlinks : ∀ i, ∀ a ∈ g.bin i, ∀ k, a + 8 ≤ k → k < a + 24 → m' k = h.mem k) :
    Binned { h with mem := m' } g := by
  refine ⟨fun i => ?_, binned.nodup, binned.mem_bin, binned.bit⟩
  apply (binned.bins i).congr
  · exact fun a ha => Heap.hPreChunkAt_congr fun k hk hk' => hlinks i a ha k hk (by omega)
  · exact fun a ha => Heap.hNextChunkAt_congr fun k hk hk' => hlinks i a ha k (by omega) hk'

/-- The bins of another heap with the same memory. -/
theorem of_eq {h' : Heap} (binned : Binned h g) (hmem : h'.mem = h.mem) (hbin : h'.ptBin = h.ptBin)
    (hbit : h'.auiBinBitMap = h.auiBinBitMap) : Binned h' g := by
  have hpre : h'.hPreChunkAt = h.hPreChunkAt := by
    funext p
    rw [Heap.hPreChunkAt, hmem, Heap.hPreChunkAt]
  have hnext : h'.hNextChunkAt = h.hNextChunkAt := by
    funext p
    rw [Heap.hNextChunkAt, hmem, Heap.hNextChunkAt]
  refine ⟨?_, binned.nodup, binned.mem_bin, fun i hi => ?_⟩
  · rw [hpre, hnext, hbin]
    exact binned.bins
  · rw [Heap.binBit, hbit]
    exact binned.bit i hi

/-- Other chunks with the same free ones. -/
theorem relayout (binned : Binned h g)
    (hfree : ∀ a s, chunk' a = some ⟨s, .free⟩ ↔ g.chunk a = some ⟨s, .free⟩) :
    Binned h { g with chunk := chunk' } := by
  refine ⟨binned.bins, binned.nodup, fun i a => ?_, binned.bit⟩
  simp only [hfree]
  exact binned.mem_bin i a

end Binned

namespace Inv

theorem of_eq {h' : Heap} (inv : Inv e h g) (hmem : h'.mem = h.mem) (hbottom : h'.hBottom = h.hBottom)
    (htop : h'.hTop = h.hTop) (hsize : h'.tSize = h.tSize) (hbin : h'.ptBin = h.ptBin)
    (hbit : h'.auiBinBitMap = h.auiBinBitMap) : Inv e h' g :=
  ⟨inv.toBody.of_eq hmem hbottom htop hsize, inv.toBinned.of_eq hmem hbin hbit⟩

/-- A write within an idle chunk. -/
theorem write_idle (inv : Inv e h g) (ha : g.chunk a = some ⟨s, .idle⟩)
    (hm : ∀ k, k < a + 8 ∨ a + s + 4 ≤ k → m' k = h.mem k) : Inv e { h with mem := m' } g := by
  have hba := inv.tiled.bounds a _ ha
  dsimp only at hba
  have hother (b : Nat) (c : Chunk) (hb : g.chunk b = some c) (hne : c.use ≠ .idle) :
      b + c.size ≤ a ∨ a + s ≤ b := by
    rcases Nat.lt_trichotomy b a with hlt | rfl | hlt
    · exact .inl (inv.tiled.disjoint b c a _ hb ha hlt)
    · rw [ha] at hb
      cases hb
      exact absurd rfl hne
    · exact .inr (inv.tiled.disjoint a _ b c ha hb hlt)
  refine ⟨inv.toBody.frame (fun x hx k hk hk' => ?_) (fun b t hb k hk hk' => ?_)
    fun b c hb hu k hk hk' => ?_, inv.toBinned.frame fun i b hb k hk hk' => ?_⟩
  · have hle := inv.tiled.start_le_or_le ha hx
    dsimp only at hle
    exact hm k (by omega)
  · have hend := inv.tiled.isStart_end hb
    have hmod := inv.tiled.isStart_mod hend
    have hle := inv.tiled.start_le_or_le ha hend
    have hne : b + t ≠ a + s := by
      intro heq
      have hab := inv.tiled.end_inj hb ha heq
      rw [hab, ha] at hb
      cases hb
    dsimp only at hle hmod
    exact hm k (by omega)
  · have hne : c.use ≠ .idle := by
      rintro hidle
      rw [hidle] at hu
      exact hu
    have hle := hother b c hb hne
    exact hm k (by omega)
  · obtain ⟨t, ht, -⟩ := (inv.mem_bin i b).mp hb
    have hbb := inv.tiled.bounds b _ ht
    have hle := hother b _ ht (by simp)
    dsimp only at hbb hle
    exact hm k (by omega)

/-- A write behind the header of the top. -/
theorem write_top (inv : Inv e h g) (hm : ∀ k, k < h.hTop + 8 → m' k = h.mem k) :
    Inv e { h with mem := m' } g := by
  refine ⟨inv.toBody.frame (fun x hx k hk hk' => ?_) (fun b t hb k hk hk' => ?_)
    fun b c hb hu k hk hk' => ?_, inv.toBinned.frame fun i b hb k hk hk' => ?_⟩
  · have hle := inv.tiled.start_le_top hx
    exact hm k (by omega)
  · have hbb := inv.tiled.bounds b _ hb
    dsimp only at hbb
    exact hm k (by omega)
  · have hbb := inv.tiled.bounds b c hb
    exact hm k (by omega)
  · obtain ⟨t, ht, -⟩ := (inv.mem_bin i b).mp hb
    have hbb := inv.tiled.bounds b _ ht
    dsimp only at hbb
    exact hm k (by omega)

/-- A new header, as in `Body.write_header`. -/
theorem write_header (inv : Inv e h g) (hx : IsStart g.chunk h.hTop x)
    (hm : ∀ k, k < x + 4 ∨ x + 8 ≤ k → m' k = h.mem k)
    (hsize : ∀ c, g.chunk x = some c → c.use.Sized → { h with mem := m' }.chunkSize x = c.size)
    (hpre : { h with mem := m' }.prevInuse x = h.prevInuse x ∨
      { h with mem := m' }.prevInuse x = true ∧
        (e → ∀ a s, g.chunk a = some ⟨s, .free⟩ → a + s ≠ x) ∨
      x ≠ h.hTop ∧ ∃ a s, g.chunk a = some ⟨s, .idle⟩ ∧ a + s = x) :
    Inv e { h with mem := m' } g := by
  refine ⟨inv.toBody.write_header hx hm hsize hpre, inv.toBinned.frame fun i a ha k hk hk' => ?_⟩
  obtain ⟨s, hs, -⟩ := (inv.mem_bin i a).mp ha
  have hba := inv.tiled.bounds a _ hs
  have hle := inv.tiled.start_le_or_le hs hx
  dsimp only at hba hle
  exact hm k (by omega)

end Inv

end ISearch.PtMalloc

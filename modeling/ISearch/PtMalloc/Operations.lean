import ISearch.PtMalloc.ReAlloc

/-!
# The operations on live blocks

`ReAlloc` fails and leaves the blocks, or moves one block. `Calloc` and `Malloc` add a block, `Free`
takes one away.
-/

namespace ISearch.PtMalloc

variable {e : Prop} {h h' : Heap} {g g' : Layout} {a b p r s t n k : Nat} {c : Chunk}

namespace Heap

/-- Where the block `a` takes the whole next chunk in, its size has 32 bits. -/
def FitsNext (h : Heap) (a s t : Nat) : Prop :=
  a + s ≠ h.hTop → h.prevInuse (a + s + h.chunkSize (a + s)) = false →
    t ≤ s + h.chunkSize (a + s) → s + h.chunkSize (a + s) - t < h.getMinChunkSize →
    s + h.chunkSize (a + s) < 2 ^ 32

/-- The block `a` cannot grow to `n` bytes where it is. -/
structure Leaves (h : Heap) (a s n : Nat) : Prop where
  large : s < request2size n
  top : ¬ (a + s = h.hTop ∧ h.hTop + (request2size n - s) + minSize < h.tSize)
  next : ¬ (a + s ≠ h.hTop ∧ h.prevInuse (a + s + h.chunkSize (a + s)) = false ∧
    request2size n ≤ s + h.chunkSize (a + s))

/-- The block `a` can only grow to `n` bytes by a copy. -/
structure Copies (h : Heap) (a s n : Nat) : Prop extends h.Leaves a s n where
  slide : ¬ (h.prevInuse a = false ∧ request2size n ≤ (s + h.tPreSizeAt a) % 2 ^ 32)

/-- The rest that the growth of the block `a` to `n` bytes cuts off has the size of a chunk. -/
structure GrowSplitOk (h : Heap) (a s n : Nat) : Prop where
  next : a + s ≠ h.hTop → h.prevInuse (a + s + h.chunkSize (a + s)) = false →
    request2size n ≤ s + h.chunkSize (a + s) →
    h.SplitOk (s + h.chunkSize (a + s) - request2size n)
  slide : h.Leaves a s n → h.prevInuse a = false →
    request2size n ≤ (s + h.tPreSizeAt a) % 2 ^ 32 →
    h.SplitOk (s + h.tPreSizeAt a - request2size n)
  copy : h.Copies a s n → h.MallocSplitOk n

end Heap

namespace Sound

/-- A larger size. -/
theorem growChunk (sound : Sound e h g) (ha : g.chunk a = some ⟨s, .used⟩)
    (hreq : requestOutOfRange n = false) (hlt : s < request2size n)
    (hsplit : h.GrowSplitOk a s n) (hfit : h.FitsNext a s (request2size n))
    (hexact : e → h.Copies a s n → ∀ h₁ p, h.interMalloc n = some (h₁, p) → p ≠ 0 →
      (h₁.copied a s p).TopJoins a s) :
    (∃ h', h.growChunk a s (request2size n) n = some (h', 0) ∧ Sound e h' g ∧ h'.rest = h.rest) ∨
      ∃ h' g' b t, h.growChunk a s (request2size n) n = some (h', b + 8) ∧
        Moved e h g a s n h' g' b t := by
  have hba := sound.tiled.bounds a _ ha
  have htop := sound.top_le
  have hsle := sound.size_le ha trivial
  dsimp only at hba
  have hmod := request2size_mod n
  obtain ⟨hn, h24⟩ := le_request2size n
  have htlt := request2size_lt hreq
  rw [Heap.growChunk]
  dsimp only
  split_ifs with hgrow hnext hslide
  · right
    have hend : h.hTop + (request2size n - s) = a + request2size n := by omega
    obtain ⟨g', hmoved⟩ := sound.growTopBlock ha hgrow.1 hmod hlt htlt hn (by omega) rfl
    rw [hend]
    refine ⟨_, g', a, _, ?_, hmoved⟩
    rw [Heap.setSizeAt, realSize_eq hmod, Heap.ptrToHandle, if_neg ?_, chunk2mem]
    change ¬ h.tSize ≤ a + 8
    omega
  · right
    obtain ⟨⟨r, use⟩, hr⟩ := sound.tiled.next a _ ha hnext.1
    dsimp only at hr
    have hsize : h.chunkSize (a + s) = r := sound.size_of hr (by
      rcases sound.settled _ _ hr with hu | hu <;> dsimp only at hu <;> rw [hu] <;> trivial)
    have hclear : h.prevInuse (a + s + h.chunkSize (a + s)) = false := by simpa using hnext.2.1
    have hcut := hfit hnext.1 hclear
    have hrest := hsplit.next hnext.1 hclear
    rw [hsize] at hclear hnext hcut hrest ⊢
    have hfree := sound.free_of_clear hr hclear
    obtain ⟨h', g', t', heq, hmoved⟩ :=
      sound.growNext ha hfree h24 hmod hlt htlt hnext.2.2 hn (hrest hnext.2.2) (hcut hnext.2.2)
    rw [heq]
    exact ⟨h', g', a, t', rfl, hmoved⟩
  · right
    have hclear : h.prevInuse a = false := by simpa using hslide.1
    obtain ⟨p, c, hp, rfl, -⟩ := sound.pre_of_clear (.inr ⟨_, ha⟩) hclear
    have hfree := sound.free_of_clear hp hclear
    have hr := sound.pre_size p c.size hfree hclear
    have hrle := sound.size_le hfree trivial
    have hle := hslide.2
    have hrest := hsplit.slide ⟨hlt, hgrow, by simpa using hnext⟩ hclear hslide.2
    rw [hr] at hle hrest ⊢
    rw [maxAllocSize] at hsle hrle
    have hmodlt : s + c.size < 2 ^ 32 := by
      by_contra hge
      have hwrap : (s + c.size) % 2 ^ 32 = s + c.size - 2 ^ 32 := by omega
      omega
    rw [Nat.mod_eq_of_lt hmodlt] at hle
    obtain ⟨h', g', t', heq, hmoved⟩ :=
      sound.slide hfree ha h24 hmod hlt htlt hle hn hrest hmodlt rfl rfl
    rw [Nat.add_sub_cancel, heq]
    exact ⟨h', g', p, t', rfl, hmoved⟩
  · have hcopies : h.Copies a s n :=
      ⟨⟨hlt, hgrow, by simpa using hnext⟩, by simpa using hslide⟩
    rcases sound.copy ha hlt (hsplit.copy hcopies) fun he => hexact he hcopies with
      ⟨h', heq, hsound', hrest⟩ | ⟨h₁, g', p, t, heq, hmoved⟩
    · rw [heq]
      exact .inl ⟨h', rfl, hsound', hrest⟩
    · rw [heq]
      exact .inr ⟨_, g', p, t, rfl, hmoved⟩

/-- The checks of `inter_re_alloc` let a live block pass. -/
theorem interReAlloc_eq (sound : Sound e h g) (ha : g.chunk a = some ⟨s, .used⟩) (hn : 0 < n)
    (hreq : requestOutOfRange n = false) : h.interReAlloc (a + 8) n =
      if request2size n ≤ s then
        some ((h.cutChunk a s (request2size n) (h.tPreSizeAt a) (h.prevInuse a)).1,
          (h.cutChunk a s (request2size n) (h.tPreSizeAt a) (h.prevInuse a)).2, s)
      else (h.growChunk a s (request2size n) n).map fun r => (r.1, r.2, s) := by
  have hba := sound.tiled.bounds a _ ha
  have htop := sound.top_le
  have hmin : minSize = 24 := rfl
  have hcheck := sound.checkInuseChunk ha (fun x c hx => sound.ne_idle hx)
    fun x c hx _ => sound.ne_held hx
  dsimp only at hba
  have hptr : h.ptrToHandle a = a := if_neg (by omega)
  rw [Heap.interReAlloc, if_neg (by omega), if_neg (by omega), if_neg (by rw [hreq]; decide)]
  simp only [mem2chunk, Nat.add_sub_cancel, sound.size_of ha trivial, hptr]
  rw [if_neg (by omega), if_neg (by omega), if_neg (by omega), if_neg (by omega), if_neg (by omega)]
  split
  · rfl
  · rw [Option.map_eq_bind]
    rfl

theorem interReAlloc (sound : Sound e h g) (ha : g.chunk a = some ⟨s, .used⟩) (hn : 0 < n)
    (hcut : requestOutOfRange n = false → request2size n ≤ s → h.SplitOk (s - request2size n))
    (hgrow : requestOutOfRange n = false → s < request2size n →
      h.GrowSplitOk a s n ∧ h.FitsNext a s (request2size n))
    (hexact : e → h.Copies a s n → ∀ h₁ p, h.interMalloc n = some (h₁, p) → p ≠ 0 →
      (h₁.copied a s p).TopJoins a s) :
    (∃ h' o, h.interReAlloc (a + 8) n = some (h', 0, o) ∧ Sound e h' g ∧ h'.rest = h.rest) ∨
      ∃ h' g' b t, h.interReAlloc (a + 8) n = some (h', b + 8, s) ∧
        Moved e h g a s n h' g' b t := by
  cases hreq : requestOutOfRange n with
  | true =>
    refine .inl ⟨h, 0, ?_, sound, rfl⟩
    rw [Heap.interReAlloc, if_neg (by omega), if_neg (by omega), if_pos hreq]
  | false =>
    obtain ⟨hle, h24⟩ := le_request2size n
    rw [sound.interReAlloc_eq ha hn hreq]
    split
    next hsmall =>
      obtain ⟨h', g', r, heq, hmoved⟩ :=
        sound.shrink ha h24 (request2size_mod n) hsmall hle (hcut hreq hsmall)
      rw [heq]
      exact .inr ⟨h', g', a, r, rfl, hmoved⟩
    next hlarge =>
      have hlt := Nat.lt_of_not_le hlarge
      obtain ⟨hsplit, hfits⟩ := hgrow hreq hlt
      rcases sound.growChunk ha hreq hlt hsplit hfits hexact with
        ⟨h', heq, hsound', hrest⟩ | ⟨h', g', b, t, heq, hmoved⟩
      · rw [heq]
        exact .inl ⟨h', s, rfl, hsound', hrest⟩
      · rw [heq]
        exact .inr ⟨h', g', b, t, rfl, hmoved⟩

end Sound

/-! ## ReAlloc -/

/-- The fields that `ReAlloc` changes where a block of `s` bytes has become one of `t` bytes. -/
def Heap.restMove (h : Heap) (s t : Nat) : Nat × UInt64 × UInt64 × Nat × Int × Int × Nat :=
  (h.tSize, h.tUserAllocSize + UInt64.ofNat t - UInt64.ofNat s, h.tUserAllocChunkCnt, h.hBottom,
    h.statChunkTotal, ((h.tUserAllocSize + UInt64.ofNat t - UInt64.ofNat s).toNat : Int),
    h.minChunkSize)

/-- What the cuts of `ReAlloc` of the block `a` of `s` bytes to `n` bytes need: no rest below
`MINSIZE`, and no size above 32 bits. -/
structure Heap.ReAllocOk (h : Heap) (a s n : Nat) : Prop where
  cut : requestOutOfRange n = false → request2size n ≤ s → h.SplitOk (s - request2size n)
  grow : requestOutOfRange n = false → s < request2size n →
    h.reset.GrowSplitOk a s n ∧ h.FitsNext a s (request2size n)

namespace Sound

theorem reAlloc (sound : Sound e h g) (ha : g.live a = some s) (hn : 0 < n)
    (hok : h.ReAllocOk a s n)
    (hexact : e → h.reset.Copies a s n → ∀ h₁ p, h.reset.interMalloc n = some (h₁, p) → p ≠ 0 →
      (h₁.copied a s p).TopJoins a s) :
    (∃ h', h.reAlloc (a + 8) n = some (h', 0) ∧ Sound e h' g ∧ h'.rest = h.rest) ∨
      ∃ h₁ h' g' b t, h.reAlloc (a + 8) n = some (h', b + 8) ∧
        Moved e h.reset g a s n h₁ g' b t ∧
        Sound e h' g' ∧ h'.rest = h.restMove s t ∧ h'.mem = h₁.mem := by
  have ha' := live_eq_some.mp ha
  have hsound : Sound e h.reset g := sound.of_eq rfl rfl rfl rfl rfl rfl
  rw [Heap.reAlloc]
  rcases hsound.interReAlloc ha' hn hok.cut hok.grow hexact with
    ⟨h', o, heq, hsound', hrest⟩ | ⟨h', g', b, t, heq, hmoved⟩
  · rw [heq]
    refine .inl ⟨h', ?_, hsound', hrest⟩
    rw [Option.bind_eq_bind, Option.bind_some]
    simp only [ne_eq, not_true, if_false]
    rw [if_neg (by omega)]
    rfl
  · rw [heq]
    have hb : g'.chunk b = some ⟨t, .used⟩ := by
      rw [← live_eq_some, hmoved.live, Function.update_self]
    have hrest := hmoved.rest
    simp only [Heap.rest, Prod.mk.injEq] at hrest
    obtain ⟨hsize, huser, hcnt, hbottom, htotal, -, hm⟩ := hrest
    rw [Option.bind_eq_bind, Option.bind_some]
    simp only [mem2chunk, Nat.add_sub_cancel, hmoved.sound.size_of hb trivial]
    rw [if_pos (by omega), if_neg (by omega)]
    refine .inr ⟨h', _, g', b, t, rfl, hmoved, hmoved.sound.of_eq rfl rfl rfl rfl rfl rfl, ?_, rfl⟩
    simp [Heap.rest, Heap.restMove, hsize, huser, hcnt, hbottom, htotal, hm]

end Sound

/-- `ReAlloc` of the block `a` of `s` bytes to `n` bytes keeps the data: where it fails, all blocks
stay; where it answers a handle, the block there starts with the old bytes, and the other blocks
stay. -/
structure ReAllocKeeps (h : Heap) (g : Layout) (a s n : Nat) (h' : Heap) (p : Nat) : Prop where
  failed : p = 0 → ∃ g', Sound False h' g' ∧ g'.live = g.live ∧
    ∀ x r, g.live x = some r → ∀ k, x + 8 ≤ k → k < x + r + 4 → h'.mem k = h.mem k
  moved : p ≠ 0 → ∃ g' t, Sound False h' g' ∧ g'.live (mem2chunk p) = some t ∧ n + 4 ≤ t ∧
    (∀ k, k < min (s - 4) n → h'.mem (p + k) = h.mem (a + 8 + k)) ∧
    ∀ x r, x ≠ a → g.live x = some r → g'.live x = some r ∧
      ∀ k, x + 8 ≤ k → k < x + r + 4 → h'.mem k = h.mem k

/-- `ReAlloc` of a live block keeps the data where its cuts leave no rest below `MINSIZE` and no
size above 32 bits. -/
theorem reAlloc_keeps (sound : Sound e h g) (ha : g.live a = some s) (hn : 0 < n)
    (hok : h.ReAllocOk a s n) :
    ∃ h' p, h.reAlloc (a + 8) n = some (h', p) ∧ ReAllocKeeps h g a s n h' p := by
  have hbytes (x r : Nat) (hx : g.live x = some r) (k : Nat) (hk : x + 8 ≤ k)
    (hk' : k < x + r + 4) :
      h.mem k = g.data k := sound.data x _ (live_eq_some.mp hx) trivial k hk hk'
  rcases sound.weaken.reAlloc ha hn hok fun he => he.elim with
    ⟨h', heq, hsound, -⟩ | ⟨h₁, h', g', b, t, heq, hmoved, hsound, -, hmem⟩
  · refine ⟨h', 0, heq, fun _ => ⟨g, hsound, rfl, fun x r hx k hk hk' => ?_⟩,
      fun hne => absurd rfl hne⟩
    rw [hbytes x r hx k hk hk']
    exact hsound.data x _ (live_eq_some.mp hx) trivial k hk hk'
  · refine ⟨h', b + 8, heq, fun h0 => absurd h0 (by omega), fun _ => ?_⟩
    have hle := hmoved.le
    have hb : g'.live b = some t := by rw [hmoved.live, Function.update_self]
    refine ⟨g', t, hsound, hb, hle, fun k hk => ?_, fun x r hxa hx => ?_⟩
    · rw [hsound.data b _ (live_eq_some.mp hb) trivial _ (by omega) (by dsimp only; omega),
        hmoved.bytes k hk]
      exact (hbytes a s ha _ (by omega) (by omega)).symm
    · have hxb : x ≠ b := by
        rintro rfl
        rcases hmoved.fresh with rfl | hfresh
        · exact hxa rfl
        · rw [hfresh] at hx
          cases hx
      have hx' : g'.live x = some r := by
        rw [hmoved.live, Function.update_of_ne hxb, Function.update_of_ne hxa, hx]
      refine ⟨hx', fun k hk hk' => ?_⟩
      rw [hbytes x r hx k hk hk', ← hmoved.others x r hxa hx k hk hk']
      exact hsound.data x _ (live_eq_some.mp hx') trivial k hk hk'

/-- A block of 24 bytes in an arena of 65536 bytes grows into the top. -/
theorem reAlloc_keeps_small : ∃ h g h' p, firstBlock 65536 minSize 8 = some (h, 8216) ∧
    h.reAlloc 8216 100 = some (h', p) ∧ ReAllocKeeps h g 8208 24 100 h' p := by
  have hrun : (firstBlock 65536 minSize 8).map
      (fun r => (r.2, r.1.chunkSize 8208, r.1.getMinChunkSize, r.1.hTop)) =
      some (8216, 24, 24, 8232) := by
    decide +kernel
  obtain ⟨⟨h, p⟩, heq, hr⟩ := Option.map_eq_some_iff.mp hrun
  simp only [Prod.mk.injEq] at hr
  obtain ⟨rfl, hsize, hmin, htop⟩ := hr
  obtain ⟨g, hsound, hlive⟩ := firstBlock_sound (by decide) (.inr (le_refl _)) heq hsize
  have hsplit (r : Nat) : h.SplitOk r := Heap.splitOk_of_le (by rw [hmin]; decide) r
  have hsplit' (r : Nat) : h.reset.SplitOk r := hsplit r
  have hok : h.ReAllocOk 8208 24 100 :=
    ⟨fun _ _ => hsplit _, fun _ _ => ⟨⟨fun _ _ _ => hsplit' _, fun _ _ _ => hsplit' _,
      fun _ _ _ _ => hsplit' _⟩, fun hne => absurd htop.symm hne⟩⟩
  obtain ⟨h', p, hre, hkeeps⟩ := reAlloc_keeps hsound hlive (by decide) hok
  exact ⟨h, g, h', p, heq, hre, hkeeps⟩

/-- The average size of the blocks is 2³², so that the smallest size to cut off is 0: a `ReAlloc` of
the only block to its own size overwrites its last bytes. -/
theorem reAlloc_loses : ∃ h g h' p, Sound True h g ∧ g.live 8208 = some 4294959088 ∧
    h.reAlloc 8216 4294959084 = some (h', p) ∧
    ¬ ReAllocKeeps h g 8208 4294959088 4294959084 h' p := by
  have hrun : (firstBlock (2 ^ 33) 1 4294959084).map (fun r =>
      let h₁ := (r.1.reset.setTSize 4294967296 (0 ||| 1)).setTPreSize 4294967296 0
      let h₂ := (h₁.setInuseBit 4294967296).setInuseBit 4294967296
      (r.2, r.1.chunkSize 8208, r.1.getMinChunkSize, r.1.mem 4294967296,
        (h₂.interFree (h₂.ptrToHandle (chunk2mem 4294967296))).1.tSize,
        (h₂.interFree (h₂.ptrToHandle (chunk2mem 4294967296))).1.mem 4294967296)) =
      some (8216, 4294959088, 0, 240, 2 ^ 33, 0) := by
    decide +kernel
  obtain ⟨⟨h, p⟩, heq, hr⟩ := Option.map_eq_some_iff.mp hrun
  simp only [Prod.mk.injEq] at hr
  obtain ⟨rfl, hsize, hmin, hbefore, htSize, hafter⟩ := hr
  obtain ⟨g, hsound, hlive⟩ := firstBlock_sound (by decide) (.inl rfl) heq hsize
  have hreset : Sound True h.reset g := hsound.of_eq rfl rfl rfl rfl rfl rfl
  have hfree := h.reset.freeRemainder_eq (p := 4294967296) (Nat.zero_le _) (Nat.zero_mod 8)
  simp only [Nat.add_zero] at hfree
  rw [← hfree] at htSize hafter
  have hsame : request2size 4294959084 = 4294959088 := by decide
  have hle : h.reset.getMinChunkSize ≤ 4294959088 - 4294959088 := by
    change h.getMinChunkSize ≤ _
    rw [hmin]
  have hinter := hreset.interReAlloc_eq (live_eq_some.mp hlive)
    (show 0 < 4294959084 by decide) (by decide)
  rw [hsame, if_pos (le_refl _), Heap.cutChunk_of_le hle, Nat.sub_self] at hinter
  have hsum : 8208 + 4294959088 = 4294967296 := rfl
  rw [hsum, Heap.ptrToHandle, Heap.tSize_of_rest Heap.rest_writeHead, htSize,
    if_neg (by decide)] at hinter
  have hre : ∃ h', h.reAlloc 8216 4294959084 = some (h', 8216) ∧ h'.mem 4294967296 = 0 := by
    rw [Heap.reAlloc, hinter, Option.bind_eq_bind, Option.bind_some]
    refine ⟨_, rfl, ?_⟩
    exact (Heap.mem_writeHead (.inr (by decide))).trans hafter
  obtain ⟨h', hre, hbyte⟩ := hre
  refine ⟨h, g, h', 8216, hsound, hlive, hre, fun hkeeps => ?_⟩
  obtain ⟨-, -, -, -, -, hbytes, -⟩ := hkeeps.moved (by decide)
  have hsame := hbytes 4294959080 (by decide)
  change h'.mem 4294967296 = h.mem 4294967296 at hsame
  rw [hbyte, hbefore] at hsame
  exact absurd hsame (by decide)

end ISearch.PtMalloc

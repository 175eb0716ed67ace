import ISearch.PtMalloc.Session

/-!
# The heap after every sequence of calls

The chunks tile the arena, the flags and sizes before and behind them agree, and the bins hold the
free ones, as long as a block that goes to the top leaves no free chunk before it.
-/

namespace ISearch.PtMalloc

open Option

variable {h : Heap} {g : Layout} {w : Session} {c : Call}

/-- The heap of `w` is laid out as `g`, with the live blocks of `w`. -/
structure HeapInvariant (w : Session) (g : Layout) : Prop where
  tiled : Tiled g.chunk w.heap.hBottom w.heap.hTop
  settled : ∀ a c, g.chunk a = some c → c.use = .used ∨ c.use = .free
  size : ∀ a c, g.chunk a = some c → w.heap.chunkSize a = c.size
  apart : ∀ a s s', g.chunk a = some ⟨s, .free⟩ → g.chunk (a + s) = some ⟨s', .free⟩ →
    maxAllocSize < s + s'
  pre_bottom : w.heap.prevInuse w.heap.hBottom = true
  prevInuse : ∀ a c, g.chunk a = some c → (w.heap.prevInuse (a + c.size) = true ↔ c.use = .used)
  footer : ∀ a s, g.chunk a = some ⟨s, .free⟩ → w.heap.tPreSizeAt (a + s) = s
  binned : Binned w.heap g
  live : ∀ a t, w.live a = some t ↔ g.chunk a = some ⟨t, .used⟩
  room : ∀ a t, w.live a = some t → w.requested a ≤ chunkSize2memSize t
  disjoint : ∀ a s b t, w.live a = some s → w.live b = some t → a ≠ b →
    chunk2mem a + chunkSize2memSize s ≤ chunk2mem b ∨
      chunk2mem b + chunkSize2memSize t ≤ chunk2mem a

/-- A chunk has 32 bits, so that its user area is 4 bytes smaller. -/
theorem Sound.chunkSize2memSize_eq {e : Prop} (sound : Sound e h g) {a s : Nat}
    (ha : g.live a = some s) : chunkSize2memSize s + 4 = s := by
  have hba := sound.tiled.bounds a _ (live_eq_some.mp ha)
  have hle := sound.size_le (live_eq_some.mp ha) trivial
  dsimp only at hba
  rw [maxAllocSize] at hle
  rw [chunkSize2memSize]
  omega

theorem Tracks.heapInvariant (tracks : Tracks True w g) : HeapInvariant w g := by
  have sound := tracks.sound
  have hsized (a : Nat) (c : Chunk) (ha : g.chunk a = some c) : c.use.Sized := by
    rcases sound.settled a c ha with hu | hu <;> rw [hu] <;> trivial
  refine ⟨sound.tiled, sound.settled, fun a c ha => sound.size a c ha (hsized a c ha),
    sound.apart trivial, sound.pre_bottom, fun a c ha => ?_, fun a s ha => ?_, sound.toBinned,
    fun a t => ?_, fun a t ha => ?_, fun a s b t ha hb hne => ?_⟩
  · obtain ⟨s, use⟩ := c
    rcases sound.settled a _ ha with rfl | rfl
    · exact iff_of_true (sound.pre_owned a _ ha trivial) rfl
    · have hclear := sound.exact trivial a s ha
      exact iff_of_false (by dsimp only; rw [hclear]; decide) (by simp)
  · exact sound.pre_size a s ha (sound.exact trivial a s ha)
  · rw [← tracks.live, live_eq_some]
  · have hroom := tracks.room a t ha
    rw [← tracks.live] at ha
    have := sound.chunkSize2memSize_eq ha
    omega
  · rw [← tracks.live] at ha hb
    have hs := sound.chunkSize2memSize_eq ha
    have ht := sound.chunkSize2memSize_eq hb
    rw [chunk2mem, chunk2mem]
    rcases Nat.lt_or_gt_of_ne hne with hlt | hlt
    · have := sound.tiled.disjoint a _ b _ (live_eq_some.mp ha) (live_eq_some.mp hb) hlt
      dsimp only at this
      omega
    · have := sound.tiled.disjoint b _ a _ (live_eq_some.mp hb) (live_eq_some.mp ha) hlt
      dsimp only at this
      omega

/-- The heap after every sequence of calls on live blocks whose cuts leave no rest below `MINSIZE`,
and whose freed blocks go to the top only where no free chunk is left before it. -/
theorem run_heapInvariant {mem : Mem} {tSize minChunkSize : Nat}
    (hinit : init mem tSize minChunkSize = some h) (hlt : tSize < 2 ^ 64) (calls : List Call)
    (hlive : AlongRun Session.step Session.Proper (.start h) calls)
    (hok : AlongRun Session.step (fun w c => w.CutsOk c ∧ w.TopJoins c) (.start h) calls) :
    ∃ w g, runOps Session.step (.start h) calls = some w ∧ HeapInvariant w g := by
  obtain ⟨w, hrun, g, htracks⟩ :=
    @invariant_along _ _ _ _ (fun w : Session => ∃ g, Tracks True w g)
      (fun w c ⟨g, htracks⟩ ⟨hproper, hcuts, hjoin⟩ => by
        obtain ⟨iRet, w', g', heq, htracks', -⟩ := htracks.call hcuts (.inl hproper) fun _ => hjoin
        exact ⟨w', by rw [Session.step, heq]; rfl, g', htracks'⟩)
      _ ⟨_, tracks_start hinit hlt⟩ calls (hlive.and hok)
  exact ⟨w, g, hrun, htracks.heapInvariant⟩

/-- A block that comes and goes. -/
theorem run_heapInvariant_small : ∃ h w g, init (fun _ => 0) 65536 24 = some h ∧
    runOps Session.step (.start h) [.malloc 8, .free 8216] = some w ∧ HeapInvariant w g := by
  have hrun : (init (fun _ => 0) 65536 24).bind (fun h => ((Session.start h).step (.malloc 8)).map
      fun w => (w.live 8208, w.heap.prevInuse (w.heap.freeArea 8208 24).1)) =
        some (some 24, true) := by
    decide +kernel
  obtain ⟨h, hinit, hmap⟩ := bind_eq_some_iff.mp hrun
  obtain ⟨w₁, hstep, hw₁⟩ := map_eq_some_iff.mp hmap
  rw [Prod.mk.injEq] at hw₁
  have hmin : minSize ≤ h.getMinChunkSize := by
    cases hinit
    decide
  have hlive : AlongRun Session.step Session.Proper (.start h) [.malloc 8, .free 8216] := by
    refine ⟨trivial, fun w hw => ⟨⟨by decide, ?_⟩, fun w _ => trivial⟩⟩
    rw [hstep] at hw
    cases hw
    change w₁.live 8208 ≠ none
    rw [hw₁.1]
    decide
  have hok : AlongRun Session.step (fun w c => w.CutsOk c ∧ w.TopJoins c) (.start h)
      [.malloc 8, .free 8216] := by
    refine ⟨⟨fun _ p _ => Heap.splitOk_of_le hmin _, trivial⟩,
      fun w hw => ⟨⟨trivial, fun t ht _ => ?_⟩,
      fun w _ => trivial⟩⟩
    rw [hstep] at hw
    cases hw
    change w₁.live 8208 = some t at ht
    rw [hw₁.1] at ht
    cases ht
    exact hw₁.2
  obtain ⟨w, g, hrun, hinv⟩ := run_heapInvariant hinit (by decide) _ hlive hok
  exact ⟨h, w, g, hinit, hrun, hinv⟩

/-- Two blocks of 3 GiB in an arena of 8 GiB, freed in turn: together they exceed the size of a
chunk, so that the first one stays, and the top that takes the second one says that it is in use. -/
theorem not_heapInvariant_large : ∃ h w, init (fun _ => 0) (2 ^ 33) 24 = some h ∧
    AlongRun Session.step Session.Proper (.start h)
      [.malloc 3221225472, .malloc 3221225472, .free 8216, .free 3221233696] ∧
    runOps Session.step (.start h)
      [.malloc 3221225472, .malloc 3221225472, .free 8216, .free 3221233696] = some w ∧
    ¬ ∃ g, HeapInvariant w g := by
  have hrun : (init (fun _ => 0) (2 ^ 33) 24).bind (fun h =>
      ((Session.start h).step (.malloc 3221225472)).bind fun w₁ =>
        (w₁.step (.malloc 3221225472)).bind fun w₂ => (w₂.step (.free 8216)).bind fun w₃ =>
          (w₃.step (.free 3221233696)).map fun w => ((w₂.live 8208).isSome &&
            (w₃.live 3221233688).isSome && w.heap.prevInuse w.heap.hTop && (w.live 8208).isNone,
            w.heap.hBottom, w.heap.hTop, w.heap.chunkSize 8208)) =
      some (true, 8208, 3221233688, 3221225480) := by
    decide +kernel
  obtain ⟨h, hinit, hrun⟩ := bind_eq_some_iff.mp hrun
  obtain ⟨w₁, h₁, hrun⟩ := bind_eq_some_iff.mp hrun
  obtain ⟨w₂, h₂, hrun⟩ := bind_eq_some_iff.mp hrun
  obtain ⟨w₃, h₃, hrun⟩ := bind_eq_some_iff.mp hrun
  obtain ⟨w, h₄, hw⟩ := map_eq_some_iff.mp hrun
  simp only [Prod.mk.injEq, Bool.and_eq_true, isNone_iff_eq_none] at hw
  obtain ⟨⟨⟨⟨hA, hB⟩, hpre⟩, hnone⟩, hbottom, htop, hsize⟩ := hw
  refine ⟨h, w, hinit, ⟨trivial, fun w hw => ⟨trivial, fun w' hw' => ⟨?_, fun w'' hw'' =>
    ⟨?_, fun w _ => trivial⟩⟩⟩⟩, ?_, fun ⟨g, hinv⟩ => ?_⟩
  · rw [h₁] at hw
    cases hw
    rw [h₂] at hw'
    cases hw'
    exact ⟨by decide, isSome_iff_ne_none.mp hA⟩
  · rw [h₁] at hw
    cases hw
    rw [h₂] at hw'
    cases hw'
    rw [h₃] at hw''
    cases hw''
    exact ⟨by decide, isSome_iff_ne_none.mp hB⟩
  · simp only [runOps_cons, runOps_nil, h₁, h₂, h₃, h₄, bind_some]
  · obtain ⟨⟨s, use⟩, hc⟩ := hinv.tiled.first (by rw [hbottom, htop]; decide)
    rw [hbottom] at hc
    have hs := hinv.size _ _ hc
    rw [hsize] at hs
    have hflag := hinv.prevInuse _ _ hc
    dsimp only at hs hflag
    rw [← hs] at hc hflag
    have hend : 8208 + 3221225480 = w.heap.hTop := htop.symm
    rw [hend, hpre] at hflag
    rw [hflag.mp rfl, ← hinv.live, hnone] at hc
    cases hc

end ISearch.PtMalloc

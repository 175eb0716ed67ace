import ISearch.PtMalloc.Session

/-!
# The counters of the allocator

`m_tUserAllocChunkCnt` counts the live blocks. `m_tUserAllocSize` starts at `m_hBottom`, and holds
the sizes of the live blocks on top of it.
-/

namespace ISearch.PtMalloc

variable {e : Prop} {h : Heap} {g : Layout} {w : Session} {c : Call}

namespace Session

structure Accounted (w : Session) : Prop where
  count : w.heap.tUserAllocChunkCnt.toNat = blockCount w.live w.heap.tSize
  size : w.heap.tUserAllocSize.toNat = w.heap.hBottom + blockTotal w.live w.heap.tSize

/-- The call gets handles of live blocks, or arguments that it refuses. -/
def Answered (w : Session) (c : Call) : Prop := w.CutsOk c ∧ (w.Proper c ∨ w.Refused c)

/-- `Free` answers 0 for the handle of a live block, or for `INVALID_HANDLE`. -/
def FreeHonest (w : Session) (q : Nat) : Prop := (w.heap.free q).2 = 0 → w.IsLive q ∨ q = 0

end Session

namespace Tracks

/-- The blocks fit into the arena, so that the counters do not wrap. -/
theorem accounted (tracks : Tracks e w g) : w.Accounted := by
  have htotal := tracks.sound.blockTotal_le w.heap.tSize
  have hcount := tracks.sound.blockCount_le w.heap.tSize
  have htop := tracks.sound.top_le
  have hlt := tracks.sound.size_lt
  have hword : UInt64.size = 2 ^ 64 := rfl
  rw [tracks.live] at htotal hcount
  refine ⟨?_, ?_⟩
  · rw [tracks.count, UInt64.toNat_ofNat_of_lt' (by omega)]
  · rw [tracks.size, UInt64.toNat_ofNat_of_lt' (by omega)]

theorem step (tracks : Tracks e w g) (hok : w.Answered c) (hjoin : e → w.TopJoins c) :
    ∃ w', w.step c = some w' ∧ ∃ g', Tracks e w' g' := by
  obtain ⟨iRet, w', g', heq, htracks, -⟩ := tracks.call hok.1 hok.2 hjoin
  exact ⟨w', by rw [Session.step, heq]; rfl, g', htracks⟩

theorem freeHonest (tracks : Tracks False w g) {q : Nat} (hok : w.Answered (.free q)) :
    w.FreeHonest q := by
  obtain ⟨iRet, w', g', heq, -, hlive⟩ := tracks.call hok.1 hok.2 False.elim
  intro h0
  rw [Session.call, Option.some.injEq, Prod.mk.injEq] at heq
  exact .inl (hlive q rfl (heq.1.symm.trans h0))

end Tracks

/-- The counters after every sequence of calls that get handles of live blocks or refuse the
others: the count is right, the size is not, by `m_hBottom`. -/
theorem run_accounted_blocks {mem : Mem} {tSize minChunkSize : Nat}
    (hinit : init mem tSize minChunkSize = some h) (hlt : tSize < 2 ^ 64) (calls : List Call)
    (hok : AlongRun Session.step Session.Answered (.start h) calls) :
    ∃ w, runOps Session.step (.start h) calls = some w ∧ w.Accounted ∧
      w.heap.tUserAllocSize.toNat ≠ blockTotal w.live w.heap.tSize ∧
      ∀ q, w.Answered (.free q) → w.FreeHonest q := by
  obtain ⟨w, hrun, g, htracks⟩ :=
    @invariant_along _ _ _ _ (fun w : Session => ∃ g, Tracks False w g)
      (fun w c ⟨g, htracks⟩ hc => htracks.step hc False.elim)
      _ ⟨_, tracks_start hinit hlt⟩ calls hok
  have hsize := htracks.accounted.size
  have hbottom := htracks.sound.bottom_pos
  exact ⟨w, hrun, htracks.accounted, by omega, fun q hq => htracks.freeHonest hq⟩

/-- A handle behind the arena, a block, and a number that is no handle. -/
theorem run_accounted_blocks_small : ∃ h w, init (fun _ => 0) 65536 24 = some h ∧
    runOps Session.step (.start h) [.free 65536, .reAlloc 70000 100, .malloc 8] = some w ∧
    w.Accounted ∧ w.heap.tUserAllocSize.toNat ≠ blockTotal w.live w.heap.tSize ∧
      ∀ q, w.Answered (.free q) → w.FreeHonest q := by
  obtain ⟨h, hinit⟩ : ∃ h, init (fun _ => 0) 65536 24 = some h := ⟨_, rfl⟩
  have hmin : minSize ≤ h.getMinChunkSize := by
    cases hinit
    decide
  have hrefuse : h.FreeRefuses 65536 := by
    cases hinit
    exact ⟨by decide, .inl (by decide)⟩
  have hrefuse' : h.ReAllocRefuses 70000 100 := by
    cases hinit
    exact ⟨by decide, by decide, .inr (.inl (by decide))⟩
  obtain ⟨iRet, hfree, hne⟩ := Heap.free_refused hrefuse
  have hstep : (Session.start h).step (.free 65536) = some (.start h) := by
    rw [Session.step, Session.call, Session.start, hfree]
    dsimp only
    rw [if_neg hne]
    rfl
  have hstep' : (Session.start h).step (.reAlloc 70000 100) = some (.start h.reset) := by
    rw [Session.step, Session.call, Session.start, Heap.reAlloc_refused hrefuse']
    rfl
  have hok : AlongRun Session.step Session.Answered (.start h)
      [.free 65536, .reAlloc 70000 100, .malloc 8] := by
    refine ⟨⟨trivial, .inr hrefuse⟩, fun w hw => ?_⟩
    rw [hstep] at hw
    cases hw
    refine ⟨⟨⟨fun h0 => absurd h0 (by decide), fun t ht => by cases ht⟩, .inr hrefuse'⟩,
      fun w hw => ?_⟩
    rw [hstep'] at hw
    cases hw
    exact ⟨⟨fun _ p _ => Heap.splitOk_of_le hmin _, .inl trivial⟩, fun w _ => trivial⟩
  obtain ⟨w, hrun, hacc, hfree⟩ := run_accounted_blocks hinit (by decide) _ hok
  exact ⟨h, w, hinit, hrun, hacc, hfree⟩

/-- A new arena has no block, and `m_tUserAllocSize` is `m_hBottom`. -/
theorem not_accounted_fresh : ∃ h w, init (fun _ => 0) 65536 24 = some h ∧
    runOps Session.step (.start h) [] = some w ∧
    ¬ w.heap.tUserAllocSize.toNat = blockTotal w.live w.heap.tSize := by
  refine ⟨_, _, rfl, rfl, ?_⟩
  rw [Session.start, blockTotal, weigh_none _ rfl]
  decide

end ISearch.PtMalloc

import ISearch.PtMalloc.Live

/-!
# Malloc

`inter_malloc` adds one block of at least the requested size and leaves the other blocks.
-/

namespace ISearch.PtMalloc

open Function
open Layout (set_of_ne set_self)

variable {e : Prop} {h h' : Heap} {g g' : Layout} {a b p x s t i v tSize req : Nat} {c : Chunk}
  {use : Use}

theorem unlinkMem_storeLe {m : Mem} {hPre hNext q n v : Nat}
    (hp : hPre = 0 ∨ q + n ≤ hPre + 8 ∨ hPre + 24 ≤ q)
    (hn : hNext = 0 ∨ q + n ≤ hNext + 8 ∨ hNext + 24 ≤ q) :
    unlinkMem (storeLe m q n v) hPre hNext = storeLe (unlinkMem m hPre hNext) q n v := by
  have hinner :
    (if hPre = 0 then storeLe m q n v else storeLe (storeLe m q n v) (hPre + 16) 8 hNext) =
      storeLe (if hPre = 0 then m else storeLe m (hPre + 16) 8 hNext) q n v := by
    split
    · rfl
    · exact storeLe_comm (by omega)
  rw [unlinkMem, unlinkMem, hinner]
  split
  · rfl
  · exact storeLe_comm (by omega)

namespace Inv

/-- Links of free chunks do not meet the header where a chunk starts. -/
theorem links_of_start (inv : Inv e h g) (hx : IsStart g.chunk h.hTop x)
    (hb : b = 0 ∨ b ∈ g.bin i ∧ b ≠ a) : b = 0 ∨ x + 8 ≤ b + 8 ∨ b + 24 ≤ x := by
  refine hb.imp_right fun hb => ?_
  obtain ⟨t, ht⟩ := inv.mem_free hb.1
  have hbb := inv.tiled.bounds b _ ht
  have hle := inv.tiled.start_le_or_le ht hx
  dsimp only at hbb hle
  omega

/-- `small_bin_malloc` sets the bit behind the chunk before it takes the chunk out. -/
theorem setInuseBit_unlinkBin (inv : Inv e h g) (ha : g.chunk a = some ⟨s, .free⟩) :
    (h.setInuseBit (a + s)).unlinkBin (binIndex s) a =
      (h.unlinkBin (binIndex s) a).setInuseBit (a + s) := by
  have hain : a ∈ g.bin (binIndex s) := (inv.mem_bin _ a).mpr ⟨s, ha, rfl⟩
  have hbin : g.bin (binIndex s) ≠ [] := List.ne_nil_of_mem hain
  have hba := inv.tiled.bounds a _ ha
  dsimp only at hba
  have hend := inv.tiled.isStart_end ha
  obtain ⟨hpre, hnext⟩ := inv.around hain
  have hsize := (inv.unlinkBin_sizes ha hend).1
  dsimp only at hend hsize
  have hp : (h.setInuseBit (a + s)).hPreChunkAt a = h.hPreChunkAt a :=
    Heap.hPreChunkAt_congr fun k hk hk' => storeLe_apply_of_disjoint (by omega)
  have hn : (h.setInuseBit (a + s)).hNextChunkAt a = h.hNextChunkAt a :=
    Heap.hNextChunkAt_congr fun k hk hk' => storeLe_apply_of_disjoint (by omega)
  have hpfar := inv.links_of_start (a := a) hend
    (hpre.imp_right fun hb => ⟨hb.1, hb.2⟩)
  have hnfar := inv.links_of_start (a := a) hend
    (hnext.imp_right fun hb => ⟨hb.1, hb.2⟩)
  have hright : (h.unlinkBin (binIndex s) a).setInuseBit (a + s) =
      (h.unlinkBin (binIndex s) a).setTSize (a + s) (h.tSizeAt (a + s) ||| 1) := by
    rw [Heap.setInuseBit, hsize]
  have hmem : unlinkMem (storeLe h.mem (a + s + 4) 4 (h.tSizeAt (a + s) ||| 1)) (h.hPreChunkAt a)
        (h.hNextChunkAt a) =
      storeLe (unlinkMem h.mem (h.hPreChunkAt a) (h.hNextChunkAt a)) (a + s + 4) 4
        (h.tSizeAt (a + s) ||| 1) :=
    unlinkMem_storeLe (by omega) (by omega)
  rw [hright, inv.unlinkBin_eq_of ha, unlinkBin_eq (h := h.setInuseBit (a + s)) (inv.ne_zero hain)
      (fun h0 => hbin ((inv.bins _).head_eq_nil.mp h0))
      (fun h0 => hbin ((inv.bins _).tail_eq_nil.mp h0)) ?_, hp, hn]
  · simp only [Heap.setInuseBit, Heap.setTSize, hmem]
  · rw [hp]
    refine hpre.imp_right fun hb => ?_
    exact (inv.linksApart hain hb.1).resolve_left hb.2.symm

end Inv

/-! ## The new block -/

namespace Heap

/-- A rest that the code cuts off has the size of a chunk. -/
def SplitOk (h : Heap) (r : Nat) : Prop := h.getMinChunkSize ≤ r → minSize ≤ r

/-- The rest that `inter_malloc` cuts off for a request has the size of a chunk. -/
def MallocSplitOk (h : Heap) (req : Nat) : Prop :=
  requestOutOfRange req = false → ∀ p, h.dividedChunk (request2size req) = some p →
    h.SplitOk (h.chunkSize p - request2size req)

theorem splitOk_of_le (hmin : minSize ≤ h.getMinChunkSize) (r : Nat) : h.SplitOk r := hmin.trans

end Heap

/-- `g'` is `g` with a new block `p` of `t` bytes. -/
structure Allocated (e : Prop) (h : Heap) (g : Layout) (h' : Heap) (g' : Layout) (p t : Nat) :
    Prop where
  sound : Sound e h' g'
  rest : h'.rest = h.rest
  fresh : g.live p = none
  live : g'.live = update g.live p (some t)
  bytes : SameBytes g g'

namespace Inv

/-- The header of a chunk behind an idle chunk, both taken by the operation. -/
theorem setTSize_idle (inv : Inv e h g) {r : Nat} (ha : g.chunk a = some ⟨s, .idle⟩)
    (hb : g.chunk (a + s) = some ⟨r, .idle⟩) : Inv e (h.setTSize (a + s) v) g := by
  refine inv.write_header (.inr ⟨_, hb⟩) (fun k hk => Heap.mem_setTSize hk) (fun c hc hu => ?_)
    (.inr (.inr ⟨inv.tiled.top_ne hb, a, s, ha, rfl⟩))
  rw [hb] at hc
  cases hc
  exact absurd hu id

/-- The idle chunk as a block with its bit set. -/
theorem own_all (inv : Inv e h g) (ha : g.chunk a = some ⟨s, .idle⟩)
    (hrest : ∀ x c, g.chunk x = some c → x ≠ a → c.use = .used ∨ c.use = .free)
    (hsize : h.chunkSize a = s) (hpre : h.prevInuse (a + s) = true) :
    Sound e h { g.set a (some ⟨s, .used⟩) with data := h.mem } := by
  refine ⟨inv.own ha trivial (fun _ => hsize) hpre, fun x c hx => ?_⟩
  rcases update_eq_some_iff.mp hx with ⟨-, hc⟩ | ⟨hne, hx⟩
  · cases hc
    exact .inl rfl
  · exact hrest x c hx hne

end Inv

namespace Sound

/-- The chunks but the one taken out of its bin. -/
theorem settled_unlink (sound : Sound e h g) (hx : (g.unlink p s).chunk x = some c) (hne : x ≠ p) :
    c.use = .used ∨ c.use = .free :=
  sound.settled x c ((set_of_ne hne).symm.trans hx)

/-- A whole free chunk as the new block. -/
theorem takeWhole (sound : Sound e h g) (hp : g.chunk p = some ⟨s, .free⟩) :
    ∃ g', Allocated e h g ((h.unlinkClear (binIndex s) p).setInuseBit (p + s)) g' p s := by
  have hbp := sound.tiled.bounds p _ hp
  dsimp only at hbp
  have inv := sound.unlinkClear hp
  have hself : (g.unlink p s).chunk p = some ⟨s, .idle⟩ := set_self
  have hmark := inv.setInuseBit hself
  have hsize : ((h.unlinkClear (binIndex s) p).setInuseBit (p + s)).chunkSize p = s := by
    refine Eq.trans
      (congrArg realSize (loadLe_congr fun k hk hk' => Heap.mem_setTSize (by omega))) ?_
    refine Eq.trans (congrArg realSize (sound.unlinkClear_sizes hp (.inr ⟨_, hp⟩)).1) ?_
    exact sound.size_of hp trivial
  refine ⟨_, hmark.own_all hself (fun x c hx => sound.settled_unlink hx) hsize
    Heap.setInuseBit_self.2, by simp, live_of_free hp, ?_, ?_⟩
  · change ((g.unlink p s).set p _).live = _
    rw [live_set, live_unlink hp]
    rfl
  · exact hmark.sameBytes_mem.of_left (live_unlink hp) rfl

/-- A free chunk cut: the first part is the new block, the rest is free again. -/
theorem takePart (sound : Sound e h g) (hp : g.chunk p = some ⟨s, .free⟩) (ht : 24 ≤ t)
    (hmod : t % 8 = 0) (hle : t + 24 ≤ s) {h₀ : Heap} (heq : h.unlinkClear (binIndex s) p = h₀) :
    let h₁ := h₀.setTSize p (t ||| sizeBits (h₀.tSizeAt p))
    let h₂ := (h₁.setTSize (p + t) (s - t)).setTPreSize (p + t) t
    let h₃ := (h₂.setInuseBit (p + t)).setTPreSize (p + t + (s - t)) (s - t)
    let h₄ := h₃.setInuseBit (p + t + (s - t))
    ∃ g', Allocated e h g (h₄.interFree (p + t + 8)).1 g' p t := by
  have hbp := sound.tiled.bounds p _ hp
  dsimp only at hbp
  subst heq
  have hself : (g.unlink p s).chunk p = some ⟨s, .idle⟩ := set_self
  have hsize := sound.size_le hp trivial
  have hlt : s < 2 ^ 32 := by
    rw [maxAllocSize] at hsize
    omega
  have hne : p + t ≠ p := by omega
  intro h₁ h₂ h₃ h₄
  have hh₁ : h₁ = (h.unlinkClear (binIndex s) p).setSizeAt p t := by
    rw [Heap.setSizeAt, realSize_eq hmod]
  have inv₀ := (sound.unlinkClear hp).splitIdle hself ht hmod hle
  have hfirst :
    (((g.unlink p s).set (p + t) (some ⟨s - t, .idle⟩)).set p (some ⟨t, .idle⟩)).chunk p =
      some ⟨t, .idle⟩ := set_self
  have hrest : (((g.unlink p s).set (p + t) (some ⟨s - t, .idle⟩)).set p (some ⟨t, .idle⟩)).chunk
      (p + t) = some ⟨s - t, .idle⟩ := (set_of_ne hne).trans set_self
  generalize hg₀ : ((g.unlink p s).set (p + t) (some ⟨s - t, .idle⟩)).set p (some ⟨t, .idle⟩) = g₀
    at inv₀ hfirst hrest
  have inv₁ : Inv e h₁ g₀ := hh₁ ▸ inv₀.setSizeAt hfirst (by omega) hmod
  have inv₂ : Inv e h₂ g₀ := (inv₁.setTSize_idle hfirst hrest).setTPreSize hfirst
  have inv₃ : Inv e h₃ g₀ := (inv₂.setInuseBit hfirst).setTPreSize hrest
  have inv₄ : Inv e h₄ g₀ := inv₃.setInuseBit hrest
  -- the headers as written
  have hhead : h₄.chunkSize p = t := by
    refine Eq.trans (congrArg realSize (loadLe_congr fun k hk hk' => ?_))
      (Heap.setSizeAt_self (h := h.unlinkClear (binIndex s) p) (p := p) (v := t) (by omega) hmod).1
    rw [← hh₁]
    refine (Heap.mem_setTSize (by omega)).trans ((Heap.mem_setTPreSize (by omega)).trans ?_)
    refine (Heap.mem_setTSize (by omega)).trans ((Heap.mem_setTPreSize (by omega)).trans ?_)
    exact Heap.mem_setTSize (by omega)
  have hmid : h₄.tSizeAt (p + t) = (h₂.setInuseBit (p + t)).tSizeAt (p + t) :=
    loadLe_congr fun k hk hk' =>
      (Heap.mem_setTSize (by omega)).trans (Heap.mem_setTPreSize (by omega))
  have hmidSize : h₂.chunkSize (p + t) = s - t := by
    refine Eq.trans
      (congrArg realSize (loadLe_congr fun k hk hk' => Heap.mem_setTPreSize (by omega))) ?_
    rw [← Heap.tSizeAt, Heap.tSizeAt_setTSize (by omega), realSize_eq (by omega)]
  have hset := Heap.setInuseBit_self (h := h₂) (p := p + t)
  have hmidPre : h₄.prevInuse (p + t) = true := by
    rw [Heap.prevInuse, hmid]
    exact hset.2
  have inv₅ := inv₄.own hfirst (u := .used) trivial (fun _ => hhead) hmidPre
  have inv₆ := inv₅.own ((set_of_ne hne).trans hrest) (u := .used) trivial
    (fun _ => (congrArg realSize hmid).trans (hset.1.trans hmidSize)) Heap.setInuseBit_self.2
  have hother (x : Nat) (hx : x ≠ p) (hx' : x ≠ p + t) : g₀.chunk x = g.chunk x := by
    rw [← hg₀, set_of_ne hx, set_of_ne hx']
    exact set_of_ne hx
  have hnone : g.live (p + t) = none := by
    rw [Layout.live]
    cases hc : g.chunk (p + t) with
    | none => rfl
    | some c =>
      have hstart := sound.tiled.start_le_or_le hp (.inr ⟨c, hc⟩)
      dsimp only at hstart
      omega
  have hlive₀ : g₀.live = g.live := by
    rw [← hg₀, live_set_none rfl, live_set_none rfl, live_unlink hp]
    · rw [live_unlink hp, hnone]
    · rw [live_set_none rfl, live_unlink hp, live_of_free hp]
      rw [live_unlink hp, hnone]
  have hsound :
    Sound e h₄ { ({ g₀.set p (some ⟨t, .used⟩) with data := h₄.mem } : Layout).set (p + t)
      (some ⟨s - t, .used⟩) with data := h₄.mem } := by
    refine ⟨inv₆, fun x c hx => ?_⟩
    rcases update_eq_some_iff.mp hx with ⟨-, hc⟩ | ⟨hx', hx⟩
    · cases hc
      exact .inl rfl
    · rcases update_eq_some_iff.mp hx with ⟨-, hc⟩ | ⟨hx'', hx⟩
      · cases hc
        exact .inl rfl
      · exact sound.settled x c ((hother x hx'' hx').symm.trans hx)
  have harea := Heap.freeArea_of_prevInuse (s := s - t) hmidPre
  obtain ⟨h₅, g₅, hfree, hsound₅, hrest₅, hreleased⟩ := hsound.interFree set_self
    fun _ _ => by
      rw [harea]
      exact hmidPre
  have hresult : (h₄.interFree (p + t + 8)).1 = h₅ := by rw [hfree]
  rw [hresult]
  refine ⟨g₅, hsound₅, hrest₅.trans (by simp [h₄, h₃, h₂, h₁]), live_of_free hp, ?_,
    fun x r hx k hk hk' => ?_⟩
  · rw [hreleased.live (by omega)]
    change update (({ g₀.set p (some ⟨t, .used⟩) with data := h₄.mem } : Layout).set (p + t)
      (some ⟨s - t, .used⟩)).live (p + t) none = _
    rw [live_set, update_idem]
    change update (g₀.set p (some ⟨t, .used⟩)).live (p + t) none = _
    rw [live_set, hlive₀]
    refine update_eq_self_iff.mpr ?_
    rw [update_of_ne hne, hnone]
  · rw [hreleased.data]
    exact inv₄.data x ⟨r, .used⟩ (live_eq_some.mp (by rw [hlive₀, hx])) trivial k hk hk' |>.trans
      (congrFun (by rw [← hg₀]; rfl) k)

/-- A free chunk taken for `t` bytes. -/
theorem takeChunk (sound : Sound e h g) (hp : g.chunk p = some ⟨s, .free⟩) (ht : 24 ≤ t)
    (hmod : t % 8 = 0) (hle : t ≤ s) (hsplit : h.SplitOk (s - t)) :
    ∃ g' r, t ≤ r ∧ Allocated e h g (h.takeChunk (binIndex s) p t) g' p r := by
  have hbp := sound.tiled.bounds p _ hp
  have htop := sound.top_le
  dsimp only at hbp
  have hsize := sound.size_of hp trivial
  have hsize' : (h.unlinkClear (binIndex s) p).chunkSize p = s :=
    (congrArg realSize (sound.unlinkClear_sizes hp (.inr ⟨_, hp⟩)).1).trans hsize
  have hmin' := Heap.getMinChunkSize_of_rest (h.rest_unlinkClear (i := binIndex s) (p := p))
  rw [Heap.takeChunk]
  dsimp only
  rw [hsize, hsize', hmin']
  split
  next hlt =>
    obtain ⟨g', hall⟩ := sound.takeWhole hp
    exact ⟨g', s, hle, hall⟩
  next hge =>
    have hrest := hsplit (Nat.le_of_not_lt hge)
    rw [minSize] at hrest
    obtain ⟨g', hall⟩ := sound.takePart hp ht hmod (by omega) rfl
    refine ⟨g', t, le_refl _, ?_⟩
    rw [Heap.ptrToHandle, Heap.tSize_of_rest (h := h) (by simp only [Heap.rest_setInuseBit,
      Heap.rest_setTPreSize, Heap.rest_setTSize, Heap.rest_unlinkClear]),
        if_neg (by omega), chunk2mem]
    exact hall

theorem smallBinMalloc (sound : Sound e h g) (hp : g.chunk p = some ⟨t, .free⟩)
    (hsmall : inSmallbinRange t = true) (hhead : (h.ptBin (smallbinIndex t)).hNextChunk = p) :
    ∃ g', Allocated e h g (h.smallBinMalloc t).1 g' p t := by
  have hbin : binIndex t = smallbinIndex t := if_pos hsmall
  have heq : (h.smallBinMalloc t).1 = (h.unlinkClear (binIndex t) p).setInuseBit (p + t) := by
    have hpos := sound.pos hp
    have hcomm := sound.setInuseBit_unlinkBin hp
    rw [Heap.smallBinMalloc]
    simp only [hhead]
    rw [if_neg (ne_of_gt hpos), sound.size_of hp trivial, ← hbin, hcomm, Heap.unlinkClear]
    have hempty : ((h.unlinkBin (binIndex t) p).setInuseBit (p + t)).emptyBin (binIndex t) =
      (h.unlinkBin (binIndex t) p).emptyBin (binIndex t) := rfl
    rw [hempty]
    split <;> rfl
  rw [heq]
  exact sound.takeWhole hp

/-- The heap with a chunk of `t` bytes taken from the top. -/
theorem growTop (sound : Sound e h g) (ht : 24 ≤ t) (hmod : t % 8 = 0) (hlt : t < 2 ^ 32)
    (hfit : h.hTop + t + minSize ≤ h.tSize) {h₁ : Heap}
    (heq : h₁ = ((h.setSizeAt h.hTop t).setTPreSize (h.hTop + t) t).setTSize (h.hTop + t) 1) :
    ∃ g', Allocated e h g { h₁ with hTop := h.hTop + t } g' h.hTop t := by
  have hself : g.chunk h.hTop = none := sound.tiled.chunk_top
  have hlive : g.live h.hTop = none := by
    rw [Layout.live, hself]
    rfl
  -- the header of the new block, then the header of the new top
  have inv₁ : Inv e (h.setSizeAt h.hTop t) g := by
    refine sound.write_header (.inl rfl) (fun k hk => Heap.mem_setTSize hk) (fun c hc => ?_)
      (.inl (Heap.setSizeAt_self hlt hmod).2)
    rw [hself] at hc
    cases hc
  have inv₂ : Inv e ((h.setSizeAt h.hTop t).setTPreSize (h.hTop + t) t) g :=
    inv₁.write_top fun k hk => Heap.mem_setTPreSize (by
      change k < h.hTop + 8 at hk
      omega)
  have inv₃ : Inv e h₁ g := heq ▸ inv₂.write_top fun k hk => Heap.mem_setTSize (by
    change k < h.hTop + 8 at hk
    omega)
  have hpre : h₁.prevInuse (h.hTop + t) = true := by
    rw [heq, Heap.prevInuse, Heap.tSizeAt_setTSize (by decide)]
    rfl
  have hsize : h₁.chunkSize h.hTop = t := by
    refine Eq.trans (congrArg realSize (loadLe_congr fun k hk hk' => ?_))
      (Heap.setSizeAt_self (h := h) hlt hmod).1
    rw [heq]
    exact (Heap.mem_setTSize (by omega)).trans (Heap.mem_setTPreSize (by omega))
  have htop : h₁.hTop = h.hTop := by rw [heq]; rfl
  have hrest : h₁.rest = h.rest := by rw [heq]; rfl
  have inv₄ := inv₃.growIdle ht hmod (by rwa [htop, Heap.tSize_of_rest hrest]) (by rwa [htop])
  rw [htop] at inv₄
  have hsound := inv₄.own_all set_self (fun x c hx hne =>
    sound.settled x c ((set_of_ne hne).symm.trans hx)) hsize hpre
  refine ⟨_, hsound, hrest, hlive, ?_, inv₃.sameBytes_mem⟩
  change ((g.set h.hTop _).set h.hTop _).live = _
  rw [live_set, live_set, update_idem]
  rfl

theorem topAlloc (sound : Sound e h g) (ht : 24 ≤ t) (hmod : t % 8 = 0) (hlt : t < 2 ^ 32) :
    h.topAlloc t = (h, 0) ∨
      ∃ h' g', h.topAlloc t = (h', h.hTop + 8) ∧ Allocated e h g h' g' h.hTop t := by
  rw [Heap.topAlloc]
  split
  next => exact .inl rfl
  next hfit =>
    obtain ⟨g', hall⟩ := sound.growTop ht hmod hlt (Nat.le_of_not_le hfit) rfl
    refine .inr ⟨_, g', ?_, hall⟩
    rw [minSize] at hfit
    rw [Heap.setSizeAt, realSize_eq hmod, Nat.or_comm t]
    refine Prod.ext rfl (if_neg ?_)
    change ¬ h.tSize ≤ h.hTop + 8
    omega

end Sound

theorem le_request2size (req : Nat) : req + 4 ≤ request2size req ∧ 24 ≤ request2size req := by
  rw [request2size, minSize]
  split <;> omega

theorem request2size_lt (hreq : requestOutOfRange req = false) : request2size req < 2 ^ 32 := by
  rw [requestOutOfRange, decide_eq_false_iff_not] at hreq
  rw [request2size, minSize]
  split <;> omega

theorem Heap.rest_clearOwnBin (h : Heap) (t : Nat) : (h.clearOwnBin t).rest = h.rest := by
  rw [Heap.clearOwnBin]
  split <;> rfl

theorem Allocated.of_rest {p t : Nat} (hall : Allocated e h g h' g' p t) {h₀ : Heap}
    (hrest : h.rest = h₀.rest) : Allocated e h₀ g h' g' p t :=
  ⟨hall.sound, hall.rest.trans hrest, hall.fresh, hall.live, hall.bytes⟩

/-- `inter_malloc` fails and leaves the blocks, or adds a block for the request. -/
theorem Sound.interMalloc (sound : Sound e h g) {req : Nat} (hsplit : h.MallocSplitOk req) :
    (∃ h', h.interMalloc req = some (h', 0) ∧ Sound e h' g ∧ h'.rest = h.rest) ∨
      ∃ h' g' p t, h.interMalloc req = some (h', p + 8) ∧ req + 4 ≤ t ∧
        Allocated e h g h' g' p t := by
  cases hreq : requestOutOfRange req with
  | true =>
    rw [Heap.interMalloc, if_pos hreq]
    exact .inl ⟨h, rfl, sound, rfl⟩
  | false =>
    have hmod := request2size_mod req
    have hle := le_request2size req
    have hlt := request2size_lt hreq
    have hfound := sound.interMalloc_found hreq
    replace hsplit := hsplit hreq
    generalize h.interMalloc req = r at hfound
    generalize request2size req = tSize at hfound hmod hle hlt hsplit
    have hrest := h.rest_clearOwnBin tSize
    have hclear := Heap.getMinChunkSize_of_rest hrest
    cases hfound with
    | small p hsmall hp hhead =>
      obtain ⟨g', hall⟩ := sound.smallBinMalloc hp hsmall hhead
      exact .inr ⟨_, g', p, tSize, rfl, hle.1, hall⟩
    | own p s hp hbin hs _ hdiv =>
      have hrest := hsplit p hdiv
      rw [sound.size_of hp trivial] at hrest
      obtain ⟨g', t, ht, hall⟩ := sound.takeChunk hp hle.2 hmod hs hrest
      exact .inr ⟨_, g', p, t, rfl, hle.1.trans ht, hall⟩
    | next p s hp hbin hs inv _ hdiv =>
      have hsound : Sound e (h.clearOwnBin tSize) g := ⟨inv, sound.settled⟩
      have hrest' := hsplit p hdiv
      rw [sound.size_of hp trivial, Heap.SplitOk, ← hclear] at hrest'
      obtain ⟨g', t, ht, hall⟩ := hsound.takeChunk hp hle.2 hmod hs hrest'
      exact .inr ⟨_, g', p, t, rfl, hle.1.trans ht, hall.of_rest hrest⟩
    | top inv =>
      have hsound : Sound e (h.clearOwnBin tSize) g := ⟨inv, sound.settled⟩
      rcases hsound.topAlloc hle.2 hmod hlt with heq | ⟨h', g', heq, hall⟩
      · rw [heq]
        exact .inl ⟨_, rfl, hsound, hrest⟩
      · rw [heq]
        exact .inr ⟨h', g', _, tSize, rfl, hle.1, hall.of_rest hrest⟩

/-- The heap that `Malloc` and `ReAlloc` start from. -/
abbrev Heap.reset (h : Heap) : Heap := { h with tLastFreeChunkSize := 0 }

/-- The fields that `Malloc` changes for a new block of `t` bytes. -/
def Heap.restAdd (h : Heap) (t : Nat) : Nat × UInt64 × UInt64 × Nat × Int × Int × Nat :=
  (h.tSize, h.tUserAllocSize + UInt64.ofNat t, h.tUserAllocChunkCnt + 1, h.hBottom,
    h.statChunkTotal + 1, ((h.tUserAllocSize + UInt64.ofNat t).toNat : Int), h.minChunkSize)

/-- `g'` is `g` with a new block `p` of `t` bytes, and `h'` counts it. -/
structure Added (e : Prop) (h : Heap) (g : Layout) (h' : Heap) (g' : Layout) (p t : Nat) :
    Prop where
  sound : Sound e h' g'
  rest : h'.rest = h.restAdd t
  fresh : g.live p = none
  live : g'.live = update g.live p (some t)
  bytes : SameBytes g g'

namespace Sound

theorem malloc (sound : Sound e h g) {req : Nat} (hsplit : h.reset.MallocSplitOk req) :
    (∃ h', h.malloc req = some (h', 0) ∧ Sound e h' g ∧ h'.rest = h.rest) ∨
      ∃ h' g' p t, h.malloc req = some (h', p + 8) ∧ req + 4 ≤ t ∧ Added e h g h' g' p t := by
  have hsound : Sound e h.reset g := sound.of_eq rfl rfl rfl rfl rfl rfl
  rw [Heap.malloc]
  rcases hsound.interMalloc hsplit with ⟨h', heq, hsound', hrest⟩ | ⟨h', g', p, t, heq, ht, hall⟩
  · rw [heq]
    exact .inl ⟨h', rfl, hsound', hrest⟩
  · rw [heq]
    have hp : g'.chunk p = some ⟨t, .used⟩ := by
      rw [← live_eq_some, hall.live, update_self]
    have hsize := hall.sound.size_of hp trivial
    have hrest := hall.rest
    simp only [Heap.rest, Prod.mk.injEq] at hrest
    obtain ⟨hs, huser, hcnt, hbottom, htotal, -, hm⟩ := hrest
    rw [Option.bind_eq_bind, Option.bind_some]
    simp only [mem2chunk, Nat.add_sub_cancel, hsize]
    rw [if_pos (by omega)]
    refine .inr ⟨_, g', p, t, rfl, ht, hall.sound.of_eq rfl rfl rfl rfl rfl rfl, ?_, hall.fresh,
      hall.live, hall.bytes⟩
    simp only [Heap.rest, Heap.restAdd, hs, huser, hcnt, hbottom, htotal, hm]

end Sound

/-- A new arena of `size` bytes, and the first `Malloc` in it. -/
def firstBlock (size minChunkSize req : Nat) : Option (Heap × Nat) :=
  (init (fun _ => 0) size minChunkSize).bind fun h => h.malloc req

theorem firstBlock_sound {size minChunkSize : Nat} (hlt : size < 2 ^ 64)
    (hmin : minChunkSize = 1 ∨ minSize ≤ minChunkSize)
    (heq : firstBlock size minChunkSize req = some (h, p + 8)) (hsize : h.chunkSize p = s) :
    ∃ g, Sound True h g ∧ g.live p = some s := by
  rw [firstBlock, Option.bind_eq_some_iff] at heq
  obtain ⟨h₀, hinit, hmalloc⟩ := heq
  have hsound : Sound True h₀ (emptyLayout fun _ => 0) := init_sound hinit hlt
  have hmin₀ : minSize ≤ h₀.getMinChunkSize := by
    rw [init] at hinit
    split at hinit
    next => cases hinit
    next =>
      cases hinit
      rcases hmin with rfl | hmin
      · exact le_refl _
      · rw [Heap.getMinChunkSize]
        split
        · exact le_refl _
        · exact hmin
  rcases hsound.malloc fun _ _ _ => Heap.splitOk_of_le hmin₀ _ with
    ⟨h', hfail, -⟩ | ⟨h', g, q, t, hok, -, hadd⟩
  · rw [hmalloc] at hfail
    cases hfail
  · rw [hmalloc] at hok
    simp only [Option.some.injEq, Prod.mk.injEq, Nat.add_right_cancel_iff] at hok
    obtain ⟨rfl, rfl⟩ := hok
    have hlive : g.live p = some t := by rw [hadd.live, update_self]
    have ht := hadd.sound.size_of (live_eq_some.mp hlive) trivial
    rw [hsize] at ht
    exact ⟨g, hadd.sound, ht ▸ hlive⟩

end ISearch.PtMalloc

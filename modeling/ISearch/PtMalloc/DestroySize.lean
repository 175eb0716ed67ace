import ISearch.PtMalloc.Malloc

/-!
# The size that a purge gets back

`ask_for_destroy_size` repeats the joins of `inter_free` in 32 bits.
-/

namespace ISearch.PtMalloc

variable {e : Prop} {h h' : Heap} {g g' : Layout} {a b p x s t n : Nat} {c : Chunk}

/-- The free memory that holds `a` has `n` usable bytes: a free chunk, or the top up to the bytes
that `top_alloc` keeps. -/
inductive FreeAt (h : Heap) (g : Layout) (a : Nat) : Nat → Prop where
  | chunk (b t : Nat) (hb : g.chunk b = some ⟨t, .free⟩) (hlo : b ≤ a) (hhi : a < b + t) :
      FreeAt h g a (t - 4)
  | top (hle : h.hTop ≤ a) : FreeAt h g a (h.tSize - h.hTop - minSize - 4)

/-- The size of the top with the area `b` at its end. -/
def Heap.topFrom (h : Heap) (b : Nat) : Nat := h.tSize - b - minSize

namespace Sound

/-- What follows the area of a block is a chunk with a header, or the top. -/
theorem areaPre_end (sound : Sound e h g) (ha : g.chunk a = some ⟨s, .used⟩)
    (hne : (h.areaPre a s).1 + (h.areaPre a s).2 ≠ h.hTop) :
    minSize ≤ h.chunkSize ((h.areaPre a s).1 + (h.areaPre a s).2) := by
  have hba := sound.tiled.bounds a _ ha
  dsimp only at hba
  obtain ⟨h₁, g₁, b, t, -, harea, step⟩ := (sound.setIdle ha (by simp)).combinePre Layout.set_self
    (sound.size_le ha trivial) fun q c hq hqa => sound.ne_idle ((Layout.set_of_ne (by
      have hbq := (sound.setIdle ha (by simp)).tiled.bounds q c hq
      omega)).symm.trans hq)
  rw [harea] at hne ⊢
  obtain ⟨c, hc⟩ := step.isStart_end.resolve_left hne
  have hhi := step.joined.hi
  have hlo := step.joined.lo
  have hc' : g.chunk (b + t) = some c := (Layout.set_of_ne (by omega)).symm.trans hc
  have hu : c.use.Sized := by
    rcases sound.settled _ c hc' with hu | hu <;> rw [hu] <;> exact trivial
  have hbc := sound.tiled.bounds _ c hc'
  rw [sound.size _ c hc' hu, minSize]
  exact hbc.2.2.1

/-- The free area of a block. -/
theorem freeArea_bounds (sound : Sound e h g) (ha : g.chunk a = some ⟨s, .used⟩) :
    24 ≤ (h.freeArea a s).2 ∧ (h.freeArea a s).2 ≤ maxAllocSize ∧
      (h.freeArea a s).1 + (h.freeArea a s).2 ≤ h.hTop := by
  obtain ⟨h₁, h₂, g₂, b, t, t', -, -, harea, step, -⟩ :=
    (sound.setIdle ha (by simp)).combine Layout.set_self (sound.size_le ha trivial)
      (fun x c hx hne => sound.ne_idle ((Layout.set_of_ne hne).symm.trans hx))
      fun x c hx hlt => sound.ne_held ((Layout.set_of_ne (by omega)).symm.trans hx)
  have hbounds := step.inv.tiled.bounds _ _ step.joined.self
  rw [step.top] at hbounds
  rw [harea]
  exact ⟨hbounds.2.2.1, step.size_le, hbounds.2.1⟩

theorem askForDestroySize_eq (sound : Sound e h g) (ha : g.chunk a = some ⟨s, .used⟩) :
    h.askForDestroySize (a + 8) =
      if (h.freeArea a s).1 + (h.freeArea a s).2 = h.hTop then
        max (h.freeArea a s).2 (h.topFrom (h.freeArea a s).1 % 2 ^ 32) - 4
      else (h.freeArea a s).2 - 4 := by
  have hba := sound.tiled.bounds a _ ha
  have htop := sound.top_le
  have hmin : minSize = 24 := rfl
  have hend := sound.pre_owned a _ ha trivial
  have hcheck := sound.checkInuseChunk ha (fun x c hx => sound.ne_idle hx)
    fun x c hx _ => sound.ne_held hx
  have hnext := sound.areaPre_end ha
  have hbounds := sound.freeArea_bounds ha
  dsimp only at hba hend
  have hptr : h.ptrToHandle a = a := if_neg (by omega)
  have hset : (!h.prevInuse (a + s)) = false := by rw [hend, Bool.not_true]
  rw [Heap.askForDestroySize, if_neg (by omega)]
  simp only [mem2chunk, Nat.add_sub_cancel, sound.size_of ha trivial, hptr]
  rw [if_neg (by omega), hset, if_neg (by decide), if_neg (by omega), if_neg (by omega)]
  have hpre : (if !h.prevInuse a ∧ canCombile s (h.tPreSizeAt a) then
      (a - h.tPreSizeAt a, s + h.tPreSizeAt a) else (a, s)) = h.areaPre a s := rfl
  have hareaNext (p t : Nat) : (if p + t ≠ h.hTop ∧ !h.prevInuse (p + t + h.chunkSize (p + t)) ∧
      canCombile t (h.chunkSize (p + t)) then t + h.chunkSize (p + t) else t) =
        h.areaNext p t := rfl
  rw [hpre, if_neg fun hbad => absurd (hnext hbad.1) (not_le.mpr hbad.2), hareaNext]
  rw [Heap.freeArea] at hbounds ⊢
  generalize (h.areaPre a s).1 = b at hbounds ⊢
  generalize h.areaNext b (h.areaPre a s).2 = t at hbounds ⊢
  dsimp only at hbounds ⊢
  rw [maxAllocSize] at hbounds
  have hfree (htop' : b + t = h.hTop) :
      (h.tSize + 2 ^ 64 - h.hTop - minSize + t) % 2 ^ 32 = h.topFrom b % 2 ^ 32 := by
    rw [Heap.topFrom]
    omega
  rw [chunkSize2memSize]
  split
  next htop' =>
    rw [hfree htop']
    split <;> omega
  next => omega

/-- The free memory that holds the block after `inter_free`. -/
theorem freeAt_iff (sound : Sound e h' g') (hs : 0 < s) (hsize : h'.tSize = h.tSize)
    (hle : b + t ≤ h.hTop) (hfree : Released h g a s b t h' g') :
    FreeAt h' g' a n ↔ n = if b + t = h.hTop then h.topFrom b - 4 else t - 4 := by
  cases hfree with
  | bin hne htop hjoined =>
    have hlo := hjoined.lo
    have hhi := hjoined.hi
    rw [if_neg hne]
    constructor
    · rintro (⟨b', t', hb', hlo', hhi'⟩ | hge)
      · rcases Nat.lt_trichotomy b b' with hlt | rfl | hlt
        · have := sound.tiled.disjoint _ _ _ _ hjoined.self hb' hlt
          dsimp only at this
          omega
        · rw [hjoined.self] at hb'
          cases hb'
          rfl
        · have := sound.tiled.disjoint _ _ _ _ hb' hjoined.self hlt
          dsimp only at this
          omega
      · omega
    · rintro rfl
      exact .chunk b t hjoined.self hlo (by omega)
  | top heq htop hjoined =>
    have hlo := hjoined.lo
    rw [if_pos heq]
    constructor
    · rintro (⟨b', t', hb', hlo', hhi'⟩ | hge)
      · have := sound.tiled.bounds _ _ hb'
        dsimp only at this
        omega
      · rw [htop, hsize, Heap.topFrom]
    · rintro rfl
      have hall := FreeAt.top (g := g') (a := a) (htop.le.trans hlo)
      rw [htop, hsize] at hall
      exact hall

/-- `Free` of a live block, and the free memory that holds it then. -/
theorem free_freeAt (sound : Sound e h g) (ha : g.chunk a = some ⟨s, .used⟩) :
    ∃ h' g', h.free (a + 8) = (h', 0) ∧ Sound False h' g' ∧ ∀ n, FreeAt h' g' a n ↔
      n = if (h.freeArea a s).1 + (h.freeArea a s).2 = h.hTop then
        h.topFrom (h.freeArea a s).1 - 4 else (h.freeArea a s).2 - 4 := by
  have hba := sound.tiled.bounds a _ ha
  obtain ⟨h', g', heq, hsound, hfree, hrest⟩ := sound.weaken.free ha fun he => he.elim
  have hsize : h'.tSize = h.tSize := congrArg Prod.fst hrest
  dsimp only at hba
  exact ⟨h', g', heq, hsound, fun n => hsound.freeAt_iff (by omega) hsize
    (sound.freeArea_bounds ha).2.2 hfree⟩

end Sound

/-- `ask_for_destroy_size` predicts what `Free` of a live block yields, where the block does not end
up in a top of 4 GiB or more. -/
theorem askForDestroySize_iff (sound : Sound e h g) (ha : g.live a = some s) :
    ∃ h' g', h.free (a + 8) = (h', 0) ∧ Sound False h' g' ∧ (∃ n, FreeAt h' g' a n) ∧
      ∀ n, FreeAt h' g' a n → (h.askForDestroySize (a + 8) = n ↔
        ((h.freeArea a s).1 + (h.freeArea a s).2 = h.hTop → h.topFrom (h.freeArea a s).1 <
          2 ^ 32)) := by
  have ha' := live_eq_some.mp ha
  obtain ⟨h', g', heq, hsound, hiff⟩ := sound.free_freeAt ha'
  have hbounds := sound.freeArea_bounds ha'
  have htop := sound.top_le
  refine ⟨h', g', heq, hsound, ⟨_, (hiff _).mpr rfl⟩, fun n hn => ?_⟩
  rw [(hiff n).mp hn, sound.askForDestroySize_eq ha']
  rw [maxAllocSize] at hbounds
  split
  next hreach =>
    have hle : (h.freeArea a s).2 ≤ h.topFrom (h.freeArea a s).1 := by
      rw [Heap.topFrom]
      omega
    rw [forall_prop_of_true hreach]
    have hmod := Nat.mod_lt (h.topFrom (h.freeArea a s).1) (show 0 < 2 ^ 32 by decide)
    constructor
    · intro hsame
      omega
    · intro hlt
      rw [Nat.mod_eq_of_lt hlt, max_eq_right hle]
  next hreach => exact ⟨fun _ h => absurd h hreach, fun _ => rfl⟩

/-- An arena of `size` bytes with one block of 24 bytes. -/
def oneBlock (size : Nat) : Option (Heap × Nat) :=
  (init (fun _ => 0) size minSize).bind fun h => h.malloc 8

theorem oneBlock_sound {size : Nat} (hlt : size < 2 ^ 64) (heq : oneBlock size = some (h, 8216))
    (hsize : h.chunkSize 8208 = 24) : ∃ g, Sound True h g ∧ g.live 8208 = some 24 :=
  firstBlock_sound hlt (.inr (le_refl _)) heq hsize

/-- A block in an arena of 65536 bytes. -/
theorem askForDestroySize_small : ∃ h g h' g', oneBlock 65536 = some (h, 8216) ∧
    Sound True h g ∧ h.free 8216 = (h', 0) ∧ ∀ n, FreeAt h' g' 8208 n →
      (h.askForDestroySize 8216 = n ↔
        ((h.freeArea 8208 24).1 + (h.freeArea 8208 24).2 = h.hTop →
          h.topFrom (h.freeArea 8208 24).1 < 2 ^ 32)) := by
  have hrun : (oneBlock 65536).map (fun r => (r.2, r.1.chunkSize 8208)) = some (8216, 24) := by
    decide +kernel
  obtain ⟨⟨h, p⟩, heq, hr⟩ := Option.map_eq_some_iff.mp hrun
  simp only [Prod.mk.injEq] at hr
  obtain ⟨rfl, hsize⟩ := hr
  obtain ⟨g, hsound, hlive⟩ := oneBlock_sound (by decide) heq hsize
  obtain ⟨h', g', hfree, -, -, hask⟩ := askForDestroySize_iff hsound hlive
  exact ⟨h, g, h', g', heq, hsound, hfree, hask⟩

/-- In an arena of 8 GiB the prediction for the only block is 4 GiB too small. -/
theorem askForDestroySize_large : ∃ h g h' g' n, Sound True h g ∧ g.live 8208 = some 24 ∧
    h.free 8216 = (h', 0) ∧ Sound False h' g' ∧ FreeAt h' g' 8208 n ∧
    h.askForDestroySize 8216 ≠ n := by
  have hrun :
    (oneBlock (2 ^ 33)).map (fun r => (r.2, r.1.chunkSize 8208, r.1.askForDestroySize 8216,
      r.1.freeArea 8208 24, r.1.hTop, r.1.topFrom 8208)) =
      some (8216, 24, 4294959060, (8208, 24), 8232, 8589926360) := by
    decide +kernel
  obtain ⟨⟨h, p⟩, heq, hr⟩ := Option.map_eq_some_iff.mp hrun
  simp only [Prod.mk.injEq] at hr
  obtain ⟨rfl, hsize, hask, harea, htop, hfrom⟩ := hr
  obtain ⟨g, hsound, hlive⟩ := oneBlock_sound (by decide) heq hsize
  obtain ⟨h', g', hfree, hsound', hiff⟩ := hsound.free_freeAt (live_eq_some.mp hlive)
  refine ⟨h, g, h', g', _, hsound, hlive, hfree, hsound', (hiff _).mpr rfl, ?_⟩
  rw [hask, harea, htop]
  dsimp only
  rw [if_pos (show 8208 + 24 = 8232 from rfl), hfrom]
  decide

end ISearch.PtMalloc

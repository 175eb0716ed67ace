import ISearch.PtMalloc.Invariant

/-!
# Steps of the operations

The operations change a chunk only while it is idle: they take it out of its bin, join or divide it,
and put it into a bin, to the top or into the hands of the user.
-/

namespace ISearch.PtMalloc

variable {e : Prop} {h : Heap} {g : Layout} {m' : Mem} {a b x s s' t i top' : Nat} {c d : Chunk}
  {u : Use} {chunk' : Chunks} {l l₁ l₂ : List Nat}

theorem update_eq_some_iff {f : Chunks} {v : Option Chunk} :
    Function.update f a v x = some c ↔ x = a ∧ v = some c ∨ x ≠ a ∧ f x = some c := by
  by_cases hx : x = a
  · simp [hx]
  · simp [hx]

theorem Body.setIdle (body : Body e h g) (ha : g.chunk a = some ⟨s, u⟩) :
    Body e h (g.set a (some ⟨s, .idle⟩)) := by
  refine body.relayout (body.tiled.setUse ha) body.top_le body.pre_top fun x c hx => ?_
  rcases update_eq_some_iff.mp hx with ⟨-, hc⟩ | ⟨-, hx⟩
  · cases hc
    exact .inr rfl
  · exact .inl hx

namespace Inv

/-! ## Idle chunks -/

/-- A block, or the rest of an operation, becomes idle. -/
theorem setIdle (inv : Inv e h g) (ha : g.chunk a = some ⟨s, u⟩) (hu : u ≠ .free) :
    Inv e h (g.set a (some ⟨s, .idle⟩)) := by
  refine ⟨inv.toBody.setIdle ha, inv.toBinned.relayout fun x t => ?_⟩
  rw [update_eq_some_iff]
  constructor
  · rintro (⟨-, hc⟩ | ⟨-, hx⟩)
    · cases hc
    · exact hx
  · intro hx
    refine .inr ⟨?_, hx⟩
    rintro rfl
    rw [ha] at hx
    cases hx
    exact hu rfl

theorem mergeIdle (inv : Inv e h g) (ha : g.chunk a = some ⟨s, .idle⟩)
    (hb : g.chunk (a + s) = some ⟨s', .idle⟩) :
    Inv e h ((g.set (a + s) none).set a (some ⟨s + s', .idle⟩)) := by
  refine ⟨inv.toBody.relayout (inv.tiled.merge ha hb) inv.top_le inv.pre_top fun x c hx => ?_,
    inv.toBinned.relayout fun x t => ?_⟩
  · rcases update_eq_some_iff.mp hx with ⟨-, hc⟩ | ⟨-, hx⟩
    · cases hc
      exact .inr rfl
    · rcases update_eq_some_iff.mp hx with ⟨-, hc⟩ | ⟨-, hx⟩
      · cases hc
      · exact .inl hx
  · simp only [Layout.set, update_eq_some_iff]
    constructor
    · rintro (⟨-, hc⟩ | ⟨-, ⟨-, hc⟩ | ⟨-, hx⟩⟩)
      · cases hc
      · cases hc
      · exact hx
    · intro hx
      refine .inr ⟨?_, .inr ⟨?_, hx⟩⟩
      · rintro rfl
        rw [ha] at hx
        cases hx
      · rintro rfl
        rw [hb] at hx
        cases hx

theorem splitIdle (inv : Inv e h g) (ha : g.chunk a = some ⟨s, .idle⟩) (ht : 24 ≤ t)
    (hmod : t % 8 = 0) (hs : t + 24 ≤ s) :
    Inv e h ((g.set (a + t) (some ⟨s - t, .idle⟩)).set a (some ⟨t, .idle⟩)) := by
  refine ⟨inv.toBody.relayout (inv.tiled.split ha ht hmod hs) inv.top_le inv.pre_top
    fun x c hx => ?_, inv.toBinned.relayout fun x r => ?_⟩
  · rcases update_eq_some_iff.mp hx with ⟨-, hc⟩ | ⟨-, hx⟩
    · cases hc
      exact .inr rfl
    · rcases update_eq_some_iff.mp hx with ⟨-, hc⟩ | ⟨-, hx⟩
      · cases hc
        exact .inr rfl
      · exact .inl hx
  · simp only [Layout.set, update_eq_some_iff]
    constructor
    · rintro (⟨-, hc⟩ | ⟨-, ⟨-, hc⟩ | ⟨-, hx⟩⟩)
      · cases hc
      · cases hc
      · exact hx
    · intro hx
      refine .inr ⟨?_, .inr ⟨?_, hx⟩⟩
      · rintro rfl
        rw [ha] at hx
        cases hx
      · rintro rfl
        have hle := inv.tiled.start_le_or_le ha (.inr ⟨_, hx⟩)
        dsimp only at hle
        omega

/-- The last chunk goes to the top. -/
theorem dropIdle (inv : Inv e h g) (ha : g.chunk a = some ⟨s, .idle⟩) (htop : a + s = h.hTop)
    (hpre : h.prevInuse a = true) :
    Inv e { h with hTop := a } (g.set a none) := by
  have hle := inv.top_le
  refine ⟨inv.toBody.relayout (inv.tiled.drop ha htop) (by omega) hpre fun x c hx => ?_,
    ?_⟩
  · rcases update_eq_some_iff.mp hx with ⟨-, hc⟩ | ⟨-, hx⟩
    · cases hc
    · exact .inl hx
  · have hbinned : Binned h (g.set a none) := by
      refine inv.toBinned.relayout fun x t => ?_
      rw [update_eq_some_iff]
      constructor
      · rintro (⟨-, hc⟩ | ⟨-, hx⟩)
        · cases hc
        · exact hx
      · intro hx
        refine .inr ⟨?_, hx⟩
        rintro rfl
        rw [ha] at hx
        cases hx
    exact ⟨hbinned.bins, hbinned.nodup, hbinned.mem_bin, hbinned.bit⟩

/-- A chunk taken from the top. -/
theorem growIdle (inv : Inv e h g) (ht : 24 ≤ t) (hmod : t % 8 = 0)
    (hle : h.hTop + t + minSize ≤ h.tSize) (hpre : h.prevInuse (h.hTop + t) = true) :
    Inv e { h with hTop := h.hTop + t } (g.set h.hTop (some ⟨t, .idle⟩)) := by
  refine ⟨inv.toBody.relayout (inv.tiled.grow ht hmod) hle hpre fun x c hx => ?_, ?_⟩
  · rcases update_eq_some_iff.mp hx with ⟨-, hc⟩ | ⟨-, hx⟩
    · cases hc
      exact .inr rfl
    · exact .inl hx
  · have hbinned : Binned h (g.set h.hTop (some ⟨t, .idle⟩)) := by
      refine inv.toBinned.relayout fun x r => ?_
      rw [update_eq_some_iff]
      constructor
      · rintro (⟨-, hc⟩ | ⟨-, hx⟩)
        · cases hc
        · exact hx
      · intro hx
        exact .inr ⟨inv.tiled.top_ne hx, hx⟩
    exact ⟨hbinned.bins, hbinned.nodup, hbinned.mem_bin, hbinned.bit⟩

/-- An idle chunk becomes a block with the data in memory. -/
theorem own (inv : Inv e h g) (ha : g.chunk a = some ⟨s, .idle⟩) (hu : u.Owned)
    (hsize : u.Sized → h.chunkSize a = s) (hpre : h.prevInuse (a + s) = true) :
    Inv e h { g.set a (some ⟨s, u⟩) with data := h.mem } := by
  have hcases (x : Nat) (c : Chunk) (hx : Function.update g.chunk a (some ⟨s, u⟩) x = some c) :
      x = a ∧ c = ⟨s, u⟩ ∨ g.chunk x = some c := by
    rcases update_eq_some_iff.mp hx with ⟨rfl, hc⟩ | ⟨-, hx⟩
    · cases hc
      exact .inl ⟨rfl, rfl⟩
    · exact .inr hx
  have hfree (x t : Nat) : Function.update g.chunk a (some ⟨s, u⟩) x = some ⟨t, .free⟩ ↔
      g.chunk x = some ⟨t, .free⟩ := by
    rw [update_eq_some_iff]
    constructor
    · rintro (⟨-, hc⟩ | ⟨-, hx⟩)
      · cases hc
        exact absurd hu id
      · exact hx
    · intro hx
      refine .inr ⟨?_, hx⟩
      rintro rfl
      rw [ha] at hx
      cases hx
  refine ⟨⟨inv.tiled.setUse ha, inv.bottom_pos, inv.top_le, inv.size_lt, fun x c hx hc => ?_,
    inv.pre_bottom, inv.pre_top, fun x c hx hc => ?_, fun x t hx => ?_, fun _ _ _ _ _ _ _ => rfl,
    fun he x t hx => ?_, fun he x t t' hx hx' => ?_⟩, ?_⟩
  · rcases hcases x c hx with ⟨rfl, rfl⟩ | hx
    · exact hsize hc
    · exact inv.size x c hx hc
  · rcases hcases x c hx with ⟨rfl, rfl⟩ | hx
    · exact hpre
    · exact inv.pre_owned x c hx hc
  · exact inv.pre_size x t ((hfree x t).mp hx)
  · exact inv.exact he x t ((hfree x t).mp hx)
  · exact inv.apart he x t t' ((hfree x t).mp hx) ((hfree _ t').mp hx')
  · have hbinned := inv.toBinned.relayout hfree
    exact ⟨hbinned.bins, hbinned.nodup, hbinned.mem_bin, hbinned.bit⟩

end Inv

end ISearch.PtMalloc

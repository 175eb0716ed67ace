import ISearch.PtMalloc.Search

/-!
# The blocks of the user

What the operations do, seen by the user: which blocks are live, their sizes, and their bytes.
-/

namespace ISearch.PtMalloc

open Function

variable {e : Prop} {h h' h₀ : Heap} {g g' g'' : Layout} {a b p x s t i : Nat} {c : Chunk}
  {v : Option Chunk} {u : Use}

/-- The size of a block. -/
def blockSize : Option Chunk → Option Nat
  | some ⟨s, .used⟩ => some s
  | _ => none

/-- The sizes of the live blocks, by their chunks. -/
def Layout.live (g : Layout) (a : Nat) : Option Nat := blockSize (g.chunk a)

theorem blockSize_eq_some : blockSize v = some s ↔ v = some ⟨s, .used⟩ := by
  rcases v with - | ⟨r, use⟩
  · simp [blockSize]
  · cases use <;> simp [blockSize]

theorem live_eq_some : g.live a = some s ↔ g.chunk a = some ⟨s, .used⟩ := blockSize_eq_some

theorem live_set (g : Layout) (a : Nat) (v : Option Chunk) :
    (g.set a v).live = update g.live a (blockSize v) := by
  funext x
  by_cases hx : x = a
  · rw [hx, update_self, Layout.live, Layout.set_self]
  · rw [update_of_ne hx, Layout.live, Layout.set_of_ne hx, Layout.live]

/-- A chunk that is no block. -/
theorem live_set_none (hv : blockSize v = none) (ha : g.live a = none) :
    (g.set a v).live = g.live := by
  rw [live_set, hv, ← ha, update_eq_self]

theorem live_of_free (hp : g.chunk a = some ⟨s, .free⟩) : g.live a = none := by
  rw [Layout.live, hp]
  rfl

theorem live_unlink (ha : g.chunk a = some ⟨s, .free⟩) : (g.unlink a s).live = g.live :=
  live_set_none rfl (live_of_free ha)

/-- The live blocks of `g` have the same bytes in `g'`. -/
def SameBytes (g g' : Layout) : Prop :=
  ∀ x s, g.live x = some s → ∀ k, x + 8 ≤ k → k < x + s + 4 → g'.data k = g.data k

theorem SameBytes.of_left (h : SameBytes g' g'') (hlive : g'.live = g.live)
    (hdata : g'.data = g.data) : SameBytes g g'' := by
  intro x s hx k hk hk'
  rw [← hlive] at hx
  rw [h x s hx k hk hk', hdata]

/-- The bytes of a block are those in memory. -/
theorem Body.sameBytes_mem (body : Body e h g) : SameBytes g { g' with data := h.mem } :=
  fun x _ hx k hk hk' => body.data x _ (live_eq_some.mp hx) trivial k hk hk'

namespace Released

/-- `inter_free` takes the block away and leaves the others. -/
theorem live (hfree : Released h₀ g a s b t h' g') (hs : 0 < s) :
    g'.live = update g.live a none := by
  have hused (x r : Nat) : g'.live x = some r ↔ x ≠ a ∧ g.live x = some r := by
    rw [live_eq_some, live_eq_some]
    exact ⟨fun hx => hfree.of_kept hs hx (by simp), fun ⟨hne, hx⟩ => hfree.kept hx hne (by simp)⟩
  funext x
  apply Option.ext
  intro r
  rw [hused]
  by_cases hx : x = a
  · simp [hx]
  · rw [update_of_ne hx]
    exact and_iff_right hx

end Released

end ISearch.PtMalloc

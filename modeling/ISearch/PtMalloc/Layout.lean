import Mathlib.Tactic.Common

/-!
# Chunks that tile a region

A layout is a partial map from the starts of the chunks to the chunks.
-/

namespace ISearch.PtMalloc

open Function

/-- A chunk of a block of the user, a chunk in a bin, or one that an operation works on: `held` is a
block whose header is not yet written, `idle` has no contents. -/
inductive Use where
  | used
  | free
  | held
  | idle
  deriving DecidableEq

structure Chunk where
  size : Nat
  use : Use

abbrev Chunks := Nat → Option Chunk

/-- The chunks follow each other from `bottom` to `top`. -/
structure Tiled (chunk : Chunks) (bottom top : Nat) : Prop where
  bottom_le : bottom ≤ top
  bottom_mod : bottom % 8 = 0
  top_mod : top % 8 = 0
  first : bottom ≠ top → ∃ c, chunk bottom = some c
  bounds : ∀ a c, chunk a = some c →
    bottom ≤ a ∧ a + c.size ≤ top ∧ 24 ≤ c.size ∧ a % 8 = 0 ∧ c.size % 8 = 0
  next : ∀ a c, chunk a = some c → a + c.size ≠ top → ∃ d, chunk (a + c.size) = some d
  disjoint : ∀ a c b d, chunk a = some c → chunk b = some d → a < b → a + c.size ≤ b

variable {chunk : Chunks} {bottom top a b s s' t : Nat} {c d : Chunk} {u u' v : Use}

/-- The start of a chunk, or the top. -/
def IsStart (chunk : Chunks) (top a : Nat) : Prop := a = top ∨ ∃ c, chunk a = some c

namespace Tiled

theorem isStart_end (h : Tiled chunk bottom top) (ha : chunk a = some c) :
    IsStart chunk top (a + c.size) := by
  by_cases htop : a + c.size = top
  · exact .inl htop
  · exact .inr (h.next a c ha htop)

theorem isStart_mod (h : Tiled chunk bottom top) (hb : IsStart chunk top b) : b % 8 = 0 := by
  rcases hb with rfl | ⟨d, hd⟩
  · exact h.top_mod
  · exact (h.bounds b d hd).2.2.2.1

theorem bottom_le_start (h : Tiled chunk bottom top) (hb : IsStart chunk top b) : bottom ≤ b := by
  rcases hb with rfl | ⟨d, hd⟩
  · exact h.bottom_le
  · exact (h.bounds b d hd).1

theorem start_le_top (h : Tiled chunk bottom top) (hb : IsStart chunk top b) : b ≤ top := by
  rcases hb with rfl | ⟨d, hd⟩
  · exact Nat.le_refl _
  · have hbounds := h.bounds b d hd
    omega

/-- A start is not within a chunk. -/
theorem start_le_or_le (h : Tiled chunk bottom top) (ha : chunk a = some c)
    (hb : IsStart chunk top b) : b ≤ a ∨ a + c.size ≤ b := by
  rcases hb with rfl | ⟨d, hd⟩
  · exact .inr (h.bounds a c ha).2.1
  · rcases Nat.lt_or_ge a b with hlt | hle
    · exact .inr (h.disjoint a c b d ha hd hlt)
    · exact .inl hle

theorem top_ne (h : Tiled chunk bottom top) (ha : chunk a = some c) : a ≠ top := by
  have hbounds := h.bounds a c ha
  omega

theorem chunk_top (h : Tiled chunk bottom top) : chunk top = none := by
  cases htop : chunk top with
  | none => rfl
  | some c => exact absurd rfl (h.top_ne htop)

/-- Behind the first start follow the others. -/
theorem exists_end_eq (h : Tiled chunk bottom top) (hb : IsStart chunk top b) (n : Nat)
    (ha : chunk a = some c) (hab : a < b) (hn : b - a ≤ n) :
    ∃ a' c', chunk a' = some c' ∧ a' + c'.size = b := by
  induction n generalizing a c with
  | zero => omega
  | succ n ih =>
    have hbounds := h.bounds a c ha
    have hend := (h.start_le_or_le ha hb).resolve_left (by omega)
    rcases Nat.eq_or_lt_of_le hend with heq | hlt
    · exact ⟨a, c, ha, heq⟩
    · have hne : a + c.size ≠ top := by
        have := h.start_le_top hb
        omega
      obtain ⟨d, hd⟩ := h.next a c ha hne
      exact ih hd hlt (by omega)

/-- Each start but the first is the end of a chunk. -/
theorem exists_pre (h : Tiled chunk bottom top) (hb : IsStart chunk top b) (hne : b ≠ bottom) :
    ∃ a c, chunk a = some c ∧ a + c.size = b := by
  have hle := h.bottom_le_start hb
  have htop := h.start_le_top hb
  obtain ⟨c, hc⟩ := h.first (by omega)
  exact h.exists_end_eq hb (b - bottom) hc (by omega) (Nat.le_refl _)

theorem end_inj (h : Tiled chunk bottom top) (ha : chunk a = some c) (hb : chunk b = some d)
    (heq : a + c.size = b + d.size) : a = b := by
  have hca := h.bounds a c ha
  have hdb := h.bounds b d hb
  rcases Nat.lt_trichotomy a b with hlt | rfl | hlt
  · have := h.disjoint a c b d ha hb hlt
    omega
  · rfl
  · have := h.disjoint b d a c hb ha hlt
    omega

theorem disjoint_of_ne (h : Tiled chunk bottom top) (ha : chunk a = some c) (hb : chunk b = some d)
    (hne : a ≠ b) : a + 24 ≤ b ∨ b + 24 ≤ a := by
  have hba := h.bounds a c ha
  have hbb := h.bounds b d hb
  rcases Nat.lt_or_gt_of_ne hne with hlt | hlt
  · have := h.disjoint a c b d ha hb hlt
    omega
  · have := h.disjoint b d a c hb ha hlt
    omega

/-! ## Changes -/

/-- Chunks of the same sizes. -/
theorem congr {chunk' : Chunks} (h : Tiled chunk bottom top)
    (hsize : ∀ a, (chunk' a).map Chunk.size = (chunk a).map Chunk.size) :
    Tiled chunk' bottom top := by
  have hto (a : Nat) (c : Chunk) (ha : chunk' a = some c) :
      ∃ d, chunk a = some d ∧ d.size = c.size := by
    have := hsize a
    rw [ha, Option.map_some] at this
    exact Option.map_eq_some_iff.mp this.symm
  have hfrom (a : Nat) (c : Chunk) (ha : chunk a = some c) : ∃ d, chunk' a = some d := by
    have := hsize a
    rw [ha, Option.map_some] at this
    obtain ⟨d, hd, -⟩ := Option.map_eq_some_iff.mp this
    exact ⟨d, hd⟩
  refine ⟨h.bottom_le, h.bottom_mod, h.top_mod, fun hne => ?_, fun a c ha => ?_,
    fun a c ha hne => ?_, fun a c b d ha hb hlt => ?_⟩
  · obtain ⟨c, hc⟩ := h.first hne
    exact hfrom _ c hc
  · obtain ⟨d, hd, hs⟩ := hto a c ha
    rw [← hs]
    exact h.bounds a d hd
  · obtain ⟨d, hd, hs⟩ := hto a c ha
    rw [← hs] at hne ⊢
    obtain ⟨e, he⟩ := h.next a d hd hne
    exact hfrom _ e he
  · obtain ⟨c', hc', hs⟩ := hto a c ha
    obtain ⟨d', hd', -⟩ := hto b d hb
    rw [← hs]
    exact h.disjoint a c' b d' hc' hd' hlt

/-- Another use of a chunk. -/
theorem setUse (h : Tiled chunk bottom top) (ha : chunk a = some ⟨s, u⟩) :
    Tiled (update chunk a (some ⟨s, u'⟩)) bottom top := by
  apply h.congr
  intro b
  by_cases hb : b = a
  · rw [hb, update_self, ha, Option.map_some, Option.map_some]
  · rw [update_of_ne hb]

/-- A chunk and the next one as one chunk. -/
theorem merge (h : Tiled chunk bottom top) (ha : chunk a = some ⟨s, u⟩)
    (hb : chunk (a + s) = some ⟨s', u'⟩) :
    Tiled (update (update chunk (a + s) none) a (some ⟨s + s', v⟩)) bottom top := by
  have hba := h.bounds a _ ha
  have hbb := h.bounds (a + s) _ hb
  have hcases (x : Nat) (c : Chunk)
      (hx : update (update chunk (a + s) none) a (some ⟨s + s', v⟩) x = some c) :
      x = a ∧ c.size = s + s' ∨ x ≠ a ∧ x ≠ a + s ∧ chunk x = some c := by
    by_cases hxa : x = a
    · rw [hxa, update_self, Option.some.injEq] at hx
      exact .inl ⟨hxa, by rw [← hx]⟩
    · rw [update_of_ne hxa] at hx
      by_cases hxs : x = a + s
      · rw [hxs, update_self] at hx
        cases hx
      · rw [update_of_ne hxs] at hx
        exact .inr ⟨hxa, hxs, hx⟩
  have hsome (x : Nat) (c : Chunk) (hx : chunk x = some c) (hxs : x ≠ a + s) : ∃ d,
      update (update chunk (a + s) none) a (some ⟨s + s', v⟩) x = some d := by
    by_cases hxa : x = a
    · exact ⟨_, by rw [hxa, update_self]⟩
    · exact ⟨c, by rw [update_of_ne hxa, update_of_ne hxs, hx]⟩
  dsimp only at hba hbb
  refine ⟨h.bottom_le, h.bottom_mod, h.top_mod, fun hne => ?_, fun x c hx => ?_,
    fun x c hx hne => ?_, fun x c y d hx hy hlt => ?_⟩
  · obtain ⟨c, hc⟩ := h.first hne
    exact hsome bottom c hc (by omega)
  · rcases hcases x c hx with ⟨rfl, hs⟩ | ⟨-, -, hx⟩
    · omega
    · exact h.bounds x c hx
  · rcases hcases x c hx with ⟨rfl, hs⟩ | ⟨hxa, -, hx⟩
    · have hend : x + s + s' = x + c.size := by omega
      obtain ⟨d, hd⟩ := h.next (x + s) _ hb (by dsimp only; omega)
      dsimp only at hd
      rw [hend] at hd
      exact hsome _ d hd (by omega)
    · obtain ⟨d, hd⟩ := h.next x c hx hne
      exact hsome _ d hd fun heq => hxa (h.end_inj hx ha heq)
  · rcases hcases x c hx with ⟨rfl, hs⟩ | ⟨-, -, hxc⟩ <;>
      rcases hcases y d hy with ⟨rfl, -⟩ | ⟨hya, hys, hyd⟩
    · omega
    · have h1 := h.disjoint x _ y d ha hyd hlt
      have h2 := h.disjoint (x + s) _ y d hb hyd (by dsimp only at h1; omega)
      dsimp only at h2
      omega
    · exact h.disjoint x c y _ hxc ha hlt
    · exact h.disjoint x c y d hxc hyd hlt

/-- A chunk as two chunks. -/
theorem split (h : Tiled chunk bottom top) (ha : chunk a = some ⟨s, u⟩) (ht : 24 ≤ t)
    (hmod : t % 8 = 0) (hs : t + 24 ≤ s) :
    Tiled (update (update chunk (a + t) (some ⟨s - t, u'⟩)) a (some ⟨t, v⟩))
      bottom top := by
  have hba := h.bounds a _ ha
  have hne : a + t ≠ a := by omega
  have hcases (x : Nat) (c : Chunk)
      (hx : update (update chunk (a + t) (some ⟨s - t, u'⟩)) a (some ⟨t, v⟩) x =
        some c) :
      x = a ∧ c.size = t ∨ x = a + t ∧ c.size = s - t ∨ x ≠ a ∧ x ≠ a + t ∧ chunk x = some c := by
    by_cases hxa : x = a
    · rw [hxa, update_self, Option.some.injEq] at hx
      exact .inl ⟨hxa, by rw [← hx]⟩
    · rw [update_of_ne hxa] at hx
      by_cases hxs : x = a + t
      · rw [hxs, update_self, Option.some.injEq] at hx
        exact .inr (.inl ⟨hxs, by rw [← hx]⟩)
      · rw [update_of_ne hxs] at hx
        exact .inr (.inr ⟨hxa, hxs, hx⟩)
  have hsome (x : Nat) (c : Chunk) (hx : chunk x = some c) : ∃ d,
      update (update chunk (a + t) (some ⟨s - t, u'⟩)) a (some ⟨t, v⟩) x =
        some d := by
    by_cases hxa : x = a
    · exact ⟨_, by rw [hxa, update_self]⟩
    · rw [update_of_ne hxa]
      by_cases hxs : x = a + t
      · exact ⟨_, by rw [hxs, update_self]⟩
      · exact ⟨c, by rw [update_of_ne hxs, hx]⟩
  dsimp only at hba
  refine ⟨h.bottom_le, h.bottom_mod, h.top_mod, fun hne => ?_, fun x c hx => ?_,
    fun x c hx hend => ?_, fun x c y d hx hy hlt => ?_⟩
  · obtain ⟨c, hc⟩ := h.first hne
    exact hsome bottom c hc
  · rcases hcases x c hx with ⟨rfl, hsize⟩ | ⟨rfl, hsize⟩ | ⟨-, -, hx⟩
    · omega
    · omega
    · exact h.bounds x c hx
  · rcases hcases x c hx with ⟨rfl, hsize⟩ | ⟨rfl, hsize⟩ | ⟨-, -, hx⟩
    · rw [hsize, update_of_ne hne, update_self]
      exact ⟨_, rfl⟩
    · have heq : a + t + c.size = a + s := by omega
      rw [heq] at hend ⊢
      obtain ⟨d, hd⟩ := h.next a _ ha hend
      exact hsome _ d hd
    · obtain ⟨d, hd⟩ := h.next x c hx hend
      exact hsome _ d hd
  · have hxa := h.start_le_or_le ha (b := x)
    have hya := h.start_le_or_le ha (b := y)
    dsimp only at hxa hya
    rcases hcases x c hx with ⟨rfl, hsx⟩ | ⟨rfl, hsx⟩ | ⟨hne₁, hne₂, hxc⟩ <;>
      rcases hcases y d hy with ⟨rfl, -⟩ | ⟨rfl, -⟩ | ⟨hne₃, hne₄, hyd⟩
    · omega
    · omega
    · have := hya (.inr ⟨d, hyd⟩)
      omega
    · omega
    · omega
    · have := hya (.inr ⟨d, hyd⟩)
      omega
    · exact h.disjoint x c y _ hxc ha hlt
    · have := hxa (.inr ⟨c, hxc⟩)
      have hle := h.disjoint x c a _ hxc ha (by omega)
      omega
    · exact h.disjoint x c y d hxc hyd hlt

/-- The last chunk taken away. -/
theorem drop (h : Tiled chunk bottom top) (ha : chunk a = some ⟨s, u⟩) (htop : a + s = top) :
    Tiled (update chunk a none) bottom a := by
  have hba := h.bounds a _ ha
  have hcases (x : Nat) (c : Chunk) (hx : update chunk a none x = some c) :
      x ≠ a ∧ chunk x = some c := by
    by_cases hxa : x = a
    · rw [hxa, update_self] at hx
      cases hx
    · rw [update_of_ne hxa] at hx
      exact ⟨hxa, hx⟩
  have hbefore (x : Nat) (c : Chunk) (hne : x ≠ a) (hx : chunk x = some c) : x + c.size ≤ a := by
    have := h.start_le_or_le ha (.inr ⟨c, hx⟩)
    have hbx := h.bounds x c hx
    dsimp only at this
    exact h.disjoint x c a _ hx ha (by omega)
  refine ⟨hba.1, h.bottom_mod, hba.2.2.2.1, fun hne => ?_, fun x c hx => ?_,
    fun x c hx hend => ?_, fun x c y d hx hy hlt => ?_⟩
  · obtain ⟨c, hc⟩ := h.first (by dsimp only at hba; omega)
    exact ⟨c, by rw [update_of_ne hne, hc]⟩
  · obtain ⟨hne, hx⟩ := hcases x c hx
    have hbx := h.bounds x c hx
    have := hbefore x c hne hx
    omega
  · obtain ⟨hne, hx⟩ := hcases x c hx
    have := hbefore x c hne hx
    obtain ⟨d, hd⟩ := h.next x c hx (by dsimp only at hba; omega)
    exact ⟨d, by rw [update_of_ne hend, hd]⟩
  · exact h.disjoint x c y d (hcases x c hx).2 (hcases y d hy).2 hlt

/-- A new last chunk. -/
theorem grow (h : Tiled chunk bottom top) (ht : 24 ≤ t) (hmod : t % 8 = 0) :
    Tiled (update chunk top (some ⟨t, u⟩)) bottom (top + t) := by
  have hcases (x : Nat) (c : Chunk) (hx : update chunk top (some ⟨t, u⟩) x = some c) :
      x = top ∧ c.size = t ∨ x ≠ top ∧ chunk x = some c := by
    by_cases hxa : x = top
    · rw [hxa, update_self, Option.some.injEq] at hx
      exact .inl ⟨hxa, by rw [← hx]⟩
    · rw [update_of_ne hxa] at hx
      exact .inr ⟨hxa, hx⟩
  have hle := h.bottom_le
  have hmodtop := h.top_mod
  refine ⟨by omega, h.bottom_mod, by omega, fun _ => ?_, fun x c hx => ?_,
    fun x c hx hend => ?_, fun x c y d hx hy hlt => ?_⟩
  · by_cases hbt : bottom = top
    · exact ⟨_, by rw [hbt, update_self]⟩
    · obtain ⟨c, hc⟩ := h.first hbt
      exact ⟨c, by rw [update_of_ne hbt, hc]⟩
  · rcases hcases x c hx with ⟨rfl, hs⟩ | ⟨-, hx⟩
    · omega
    · have := h.bounds x c hx
      omega
  · rcases hcases x c hx with ⟨rfl, hs⟩ | ⟨-, hx⟩
    · omega
    · by_cases hxt : x + c.size = top
      · exact ⟨_, by rw [hxt, update_self]⟩
      · obtain ⟨d, hd⟩ := h.next x c hx hxt
        exact ⟨d, by rw [update_of_ne hxt, hd]⟩
  · rcases hcases x c hx with ⟨rfl, -⟩ | ⟨-, hxc⟩ <;> rcases hcases y d hy with ⟨rfl, -⟩ | ⟨-, hyd⟩
    · omega
    · have := h.bounds y d hyd
      omega
    · have := h.bounds x c hxc
      omega
    · exact h.disjoint x c y d hxc hyd hlt

/-- A longer last chunk. -/
theorem extend (h : Tiled chunk bottom top) (ha : chunk a = some ⟨s, u⟩) (htop : a + s = top)
    (hle : s ≤ t) (hmod : t % 8 = 0) :
    Tiled (update chunk a (some ⟨t, v⟩)) bottom (a + t) := by
  have hdrop := h.drop ha htop
  have hba := h.bounds a _ ha
  dsimp only at hba
  have hgrow := hdrop.grow (u := v) (show 24 ≤ t by omega) hmod
  rw [update_idem] at hgrow
  exact hgrow

end Tiled

end ISearch.PtMalloc

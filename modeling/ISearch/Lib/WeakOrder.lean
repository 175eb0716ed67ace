import Mathlib.Data.List.Induction
import Mathlib.Data.List.Nodup
import Mathlib.Data.List.Pairwise
import Mathlib.Order.Lattice

/-!
# Strict weak orders

What a comparison must be on a set of values for sorting and ordered sets. An ordered set keeps the
first of the values that the comparison does not tell apart.
-/

namespace WeakOrder

open List

variable {α κ : Type*}

/-- Neither is less. -/
def Incomp (lt : α → α → Prop) (a b : α) : Prop := ¬lt a b ∧ ¬lt b a

structure StrictWeakOn (lt : α → α → Prop) (S : Set α) : Prop where
  irrefl : ∀ a ∈ S, ¬lt a a
  asymm : ∀ a ∈ S, ∀ b ∈ S, lt a b → ¬lt b a
  trans : ∀ a ∈ S, ∀ b ∈ S, ∀ c ∈ S, lt a b → lt b c → lt a c
  incomp_trans : ∀ a ∈ S, ∀ b ∈ S, ∀ c ∈ S, Incomp lt a b → Incomp lt b c → Incomp lt a c

/-- `insert` of an ordered set; the values stand in the order of their insertion. -/
def setInsert (lt : α → α → Bool) (s : List α) (x : α) : List α :=
  if s.any fun y => !lt y x && !lt x y then s else s ++ [x]

def setOf (lt : α → α → Bool) (xs : List α) : List α := xs.foldl (setInsert lt) []

variable [LinearOrder κ] {key : α → κ}

theorem incomp_iff_key {lt : α → α → Prop} {S : Set α} (h : ∀ a ∈ S, ∀ b ∈ S, lt a b ↔ key a < key b)
    {x y : α} (hx : x ∈ S) (hy : y ∈ S) : Incomp lt x y ↔ key x = key y := by
  rw [Incomp, h x hx y hy, h y hy x hx, not_lt, not_lt, and_comm, ← le_antisymm_iff]

/-- The comparison of the keys is a strict weak order. -/
theorem StrictWeakOn.of_key {lt : α → α → Prop} {S : Set α}
    (h : ∀ a ∈ S, ∀ b ∈ S, lt a b ↔ key a < key b) : StrictWeakOn lt S where
  irrefl a ha hlt := lt_irrefl _ ((h a ha a ha).mp hlt)
  asymm a ha b hb hab hba := lt_asymm ((h a ha b hb).mp hab) ((h b hb a ha).mp hba)
  trans a ha b hb c hc hab hbc :=
    (h a ha c hc).mpr (((h a ha b hb).mp hab).trans ((h b hb c hc).mp hbc))
  incomp_trans a ha b hb c hc hab hbc := by
    rw [incomp_iff_key h ha hc, (incomp_iff_key h ha hb).mp hab, (incomp_iff_key h hb hc).mp hbc]

variable {lt : α → α → Bool} {xs s : List α}

/-- An ordered set holds, of the values that the comparison does not tell apart, only the first. -/
theorem setOf_spec (h : ∀ a ∈ xs, ¬lt a a) :
    (∀ y ∈ setOf lt xs, y ∈ xs) ∧
      (setOf lt xs).Pairwise (fun x y => ¬Incomp (fun a b => lt a b) x y) ∧
      ∀ x ∈ xs, ∃ y ∈ setOf lt xs, Incomp (fun a b => lt a b) y x := by
  induction xs using List.reverseRecOn with
  | nil => exact ⟨nofun, List.Pairwise.nil, nofun⟩
  | append_singleton xs x ih =>
    obtain ⟨hsub, hpair, hex⟩ := ih fun a ha => h a (mem_append_left _ ha)
    have hany : (setOf lt xs).any (fun y => !lt y x && !lt x y) ↔
        ∃ y ∈ setOf lt xs, Incomp (fun a b => lt a b) y x := by
      simp [any_eq_true, Incomp]
    rw [setOf, foldl_append, foldl_cons, foldl_nil, ← setOf, setInsert]
    split_ifs with hsome
    · refine ⟨fun y hy => mem_append_left _ (hsub y hy), hpair, fun y hy => ?_⟩
      obtain hy | hy := mem_append.mp hy
      · exact hex y hy
      · rw [mem_singleton.mp hy]
        exact hany.mp hsome
    · rw [hany] at hsome
      refine ⟨fun y hy => ?_, ?_, fun y hy => ?_⟩
      · obtain hy | hy := mem_append.mp hy
        · exact mem_append_left _ (hsub y hy)
        · exact mem_append_right _ hy
      · refine pairwise_append.mpr ⟨hpair, pairwise_singleton _ _, fun y hy z hz => ?_⟩
        rw [mem_singleton.mp hz]
        exact fun hyx => hsome ⟨y, hy, hyx⟩
      · obtain hy | hy := mem_append.mp hy
        · obtain ⟨z, hz, hzy⟩ := hex y hy
          exact ⟨z, mem_append_left _ hz, hzy⟩
        · have hx := h x (mem_append_right _ (mem_singleton_self x))
          rw [mem_singleton.mp hy]
          exact ⟨x, mem_append_right _ (mem_singleton_self x), hx, hx⟩

/-- Every value is kept exactly once if the comparison tells all of them apart, and only then. -/
theorem count_setOf_iff [BEq α] [LawfulBEq α] (h : ∀ a ∈ xs, ¬lt a a) :
    (∀ x ∈ xs, (setOf lt xs).count x = 1) ↔
      ∀ x ∈ xs, ∀ y ∈ xs, Incomp (fun a b => lt a b) x y → x = y := by
  obtain ⟨hsub, hpair, hex⟩ := setOf_spec h
  constructor
  · intro hcount x hx y hy hxy
    have hmem {z : α} (hz : z ∈ xs) : z ∈ setOf lt xs :=
      count_pos_iff.mp ((hcount z hz).symm ▸ Nat.one_pos)
    by_contra hne
    have hsymm : Std.Symm fun x y : α => ¬Incomp (fun a b => lt a b) x y :=
      ⟨fun _ _ hnot hyx => hnot ⟨hyx.2, hyx.1⟩⟩
    exact hpair.forall (hmem hx) (hmem hy) hne hxy
  · intro hinj x hx
    obtain ⟨y, hy, hyx⟩ := hex x hx
    rw [hinj y (hsub y hy) x hx hyx] at hy
    have hnodup : (setOf lt xs).Nodup := hpair.imp_of_mem fun ha _ hnot heq =>
      hnot (heq ▸ ⟨h _ (hsub _ ha), h _ (hsub _ ha)⟩)
    exact count_eq_one_of_mem hnodup hy

end WeakOrder

import ISearch.DirectQuery.Defs
import ISearch.Lib.WeakOrder

/-!
# The order of query conditions (`rocksdb_direct_worker.cc`)

The conditions of a range query are sorted by their fields and by a priority of the operators, which
is no order of its own: an operator is before itself where it is before others.
-/

namespace ISearch.DirectQuery

open RocksProcess WeakOrder

def condtionPriority : Option Comparator → Option Comparator → Bool
  | some .eq, _ => true
  | some .ne, _ => false
  | some .lt, rc => rc = some .ne
  | some .le, rc => rc = some .ne
  | some .gt, rc => rc ≠ some .eq
  | some .ge, rc => rc ≠ some .eq
  | none, _ => false

def QueryCond.opr (c : QueryCond) : Option Comparator := condOprOf c.condOpr

/-- The comparison that `procDirectRangeQuery` sorts with. -/
def condLess (cond1 cond2 : QueryCond) : Bool :=
  cond1.fieldIndex < cond2.fieldIndex ||
    cond1.fieldIndex = cond2.fieldIndex && condtionPriority cond1.opr cond2.opr

/-- The places of the operators: `==`, then `>` and `>=`, then `<` and `<=`, then `!=`. -/
def place : Comparator → Nat
  | .eq => 0
  | .gt => 1
  | .ge => 1
  | .lt => 2
  | .le => 2
  | .ne => 3

/-- The conditions of each field stand in the order of their operators. -/
def FieldsOrdered (conds : List QueryCond) : Prop :=
  conds.Pairwise fun a b => a.fieldIndex = b.fieldIndex →
    ∀ x ∈ a.opr, ∀ y ∈ b.opr, place x ≤ place y

/-- The comparison is a strict weak order on the conditions, and sorting by it, in whatever way,
orders those of each field. -/
structure SortUsable (conds : List QueryCond) : Prop where
  order : StrictWeakOn (fun a b => condLess a b) {c | c ∈ conds}
  ordered : ∀ sorted : List QueryCond, sorted.Perm conds →
    (sorted.Pairwise fun a b => ¬condLess b a) → FieldsOrdered sorted

/-- An operator that is before itself. -/
def SelfLess (c : QueryCond) : Prop := c.opr = some .eq ∨ c.opr = some .gt ∨ c.opr = some .ge

def Upper (c : QueryCond) : Prop := c.opr = some .lt ∨ c.opr = some .le

/-- `<` or `<=`, `!=` and an operator out of range on one field. -/
def Mixed (conds : List QueryCond) : Prop :=
  ∃ a ∈ conds, ∃ b ∈ conds, ∃ c ∈ conds, a.fieldIndex = b.fieldIndex ∧
    b.fieldIndex = c.fieldIndex ∧ Upper a ∧ b.opr = some .ne ∧ c.opr = none

variable {a b c : QueryCond} {conds : List QueryCond}

theorem condLess_self (h : SelfLess c) : condLess c c := by
  obtain h | h | h := h <;> simp [condLess, h, condtionPriority]

theorem condLess_iff (h : ¬SelfLess a) : condLess a b ↔ a.fieldIndex < b.fieldIndex ∨
    a.fieldIndex = b.fieldIndex ∧ Upper a ∧ b.opr = some .ne := by
  rw [condLess, Bool.or_eq_true, Bool.and_eq_true, decide_eq_true_eq, decide_eq_true_eq]
  refine or_congr_right (and_congr_right fun _ => ?_)
  rw [SelfLess] at h
  rw [Upper]
  rcases hop : a.opr with _ | op
  · simp [condtionPriority]
  · cases op <;> simp_all [condtionPriority]

theorem Upper.opr_ne (h : Upper a) : a.opr ≠ some .ne ∧ a.opr ≠ none := by
  obtain h | h := h <;> simp [h]

theorem opr_cases (h : ¬SelfLess a) : Upper a ∨ a.opr = some .ne ∨ a.opr = none := by
  rw [SelfLess] at h
  rw [Upper]
  rcases hop : a.opr with _ | op
  · simp
  · cases op <;> simp_all

/-- Conditions that are not told apart are on one field. -/
theorem Incomp.fieldIndex_eq (ha : ¬SelfLess a) (hb : ¬SelfLess b)
    (h : Incomp (fun a b => condLess a b) a b) : a.fieldIndex = b.fieldIndex := by
  have hab : ¬condLess a b := h.1
  have hba : ¬condLess b a := h.2
  rw [condLess_iff ha, not_or] at hab
  rw [condLess_iff hb, not_or] at hba
  exact UInt8.le_antisymm (UInt8.not_lt.mp hba.1) (UInt8.not_lt.mp hab.1)

theorem sortUsable_order (hself : ∀ c ∈ conds, ¬SelfLess c) (hmixed : ¬Mixed conds) :
    StrictWeakOn (fun a b => condLess a b) {c | c ∈ conds} where
  irrefl a ha h := by
    rw [condLess_iff (hself a ha)] at h
    obtain h | ⟨-, hupper, hne⟩ := h
    · exact UInt8.lt_irrefl _ h
    · exact hupper.opr_ne.1 hne
  asymm a ha b hb hab hba := by
    rw [condLess_iff (hself a ha)] at hab
    rw [condLess_iff (hself b hb)] at hba
    obtain hab | ⟨heq, -, hne⟩ := hab
    · obtain hba | ⟨heq, -⟩ := hba
      · exact UInt8.lt_asymm hab hba
      · exact UInt8.lt_irrefl _ (heq ▸ hab)
    · obtain hba | ⟨-, hupper, -⟩ := hba
      · exact UInt8.lt_irrefl _ (heq ▸ hba)
      · exact hupper.opr_ne.1 hne
  trans a ha b hb c _ hab hbc := by
    rw [condLess_iff (hself a ha)] at hab ⊢
    rw [condLess_iff (hself b hb)] at hbc
    obtain hab | ⟨heq, -, hne⟩ := hab
    · obtain hbc | ⟨heq', -⟩ := hbc
      · exact .inl (UInt8.lt_trans hab hbc)
      · exact .inl (heq' ▸ hab)
    · obtain hbc | ⟨-, hupper, -⟩ := hbc
      · exact .inl (heq ▸ hbc)
      · exact absurd hne hupper.opr_ne.1
  incomp_trans a ha b hb c hc hab hbc := by
    have hfab := Incomp.fieldIndex_eq (hself a ha) (hself b hb) hab
    have hfbc := Incomp.fieldIndex_eq (hself b hb) (hself c hc) hbc
    -- whatever is between two conditions told apart is told apart from one of them
    have hmid {a b c : QueryCond} (ha : a ∈ conds) (hb : b ∈ conds) (hc : c ∈ conds)
        (hfab : a.fieldIndex = b.fieldIndex) (hfbc : b.fieldIndex = c.fieldIndex)
        (hab : ¬condLess a b) (hbc : ¬condLess b c) : ¬condLess a c := by
      rw [condLess_iff (hself a ha)] at hab ⊢
      rw [condLess_iff (hself b hb)] at hbc
      rintro (hlt | ⟨-, hupper, hne⟩)
      · exact UInt8.lt_irrefl _ (hfab.trans hfbc ▸ hlt)
      · obtain hb' | hb' | hb' := opr_cases (hself b hb)
        · exact hbc (.inr ⟨hfbc, hb', hne⟩)
        · exact hab (.inr ⟨hfab, hupper, hb'⟩)
        · exact hmixed ⟨a, ha, c, hc, b, hb, hfab.trans hfbc, hfbc.symm, hupper, hne, hb'⟩
    exact ⟨hmid ha hb hc hfab hfbc hab.1 hbc.1, hmid hc hb ha hfbc.symm hfab.symm hbc.2 hab.2⟩

/-- Sorting by the comparison is usable exactly if no condition of the query is one of `==`, `>` and
`>=`, and no field has `<` or `<=`, `!=` and an operator out of range together. -/
theorem sortUsable_iff (conds : List QueryCond) :
    SortUsable conds ↔ (∀ c ∈ conds, ¬SelfLess c) ∧ ¬Mixed conds := by
  constructor
  · intro h
    have hself : ∀ c ∈ conds, ¬SelfLess c := fun c hc hself =>
      h.order.irrefl c hc (condLess_self hself)
    refine ⟨hself, ?_⟩
    rintro ⟨a, ha, b, hb, c, hc, hfab, hfbc, hupper, hne, hnone⟩
    have hunknown {d : QueryCond} (hd : d ∈ conds) (hf : d.fieldIndex = c.fieldIndex) :
        Incomp (fun a b => condLess a b) d c ∧ Incomp (fun a b => condLess a b) c d := by
      have hdc : ¬condLess d c := by
        rw [condLess_iff (hself d hd)]
        rintro (hlt | ⟨-, -, h⟩)
        · exact UInt8.lt_irrefl _ (hf ▸ hlt)
        · exact absurd (hnone.symm.trans h) (by simp)
      have hcd : ¬condLess c d := by
        rw [condLess_iff (hself c hc)]
        rintro (hlt | ⟨-, h, -⟩)
        · exact UInt8.lt_irrefl _ (hf ▸ hlt)
        · exact h.opr_ne.2 hnone
      exact ⟨⟨hdc, hcd⟩, ⟨hcd, hdc⟩⟩
    have hab := h.order.incomp_trans a ha c hc b hb (hunknown ha (hfab.trans hfbc)).1
      (hunknown hb hfbc).2
    exact hab.1 ((condLess_iff (hself a ha)).mpr (.inr ⟨hfab, hupper, hne⟩))
  · rintro ⟨hself, hmixed⟩
    refine ⟨sortUsable_order hself hmixed, fun sorted hperm hsorted => ?_⟩
    refine hsorted.imp_of_mem fun {a b} ha hb hless heq x hx y hy => ?_
    have ha := hself a (hperm.subset ha)
    have hb := hself b (hperm.subset hb)
    rw [condLess_iff hb, not_or] at hless
    have hnot : ¬(Upper b ∧ a.opr = some .ne) := fun h => hless.2 ⟨heq.symm, h⟩
    rw [Option.mem_def] at hx hy
    rw [SelfLess, hx] at ha
    rw [SelfLess, hy] at hb
    rw [Upper, hx, hy] at hnot
    cases x <;> cases y <;> simp_all [place]

/-- Two conditions `==` on one field are both before the other. -/
theorem not_sortUsable_eq : ¬SortUsable [⟨0, 0, [97]⟩, ⟨0, 0, [98]⟩] := by
  intro h
  exact h.order.asymm ⟨0, 0, [97]⟩ (by simp) ⟨0, 0, [98]⟩ (by simp) (by decide) (by decide)

end ISearch.DirectQuery

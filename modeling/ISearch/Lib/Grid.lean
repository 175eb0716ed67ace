import Mathlib.Algebra.Order.Floor.Semiring
import Mathlib.Data.List.Iterate
import Mathlib.Tactic.FieldSimp
import Mathlib.Tactic.Ring
import Mathlib.Tactic.Linarith
import Mathlib.Tactic.Positivity

/-!
# Grids and bisection

A `for` loop over the points of a grid, the digits of a point under repeated bisection, and which
cells of the bisection the points of a grid meet.
-/

namespace ISearch.Grid

section ForLoop

variable {α σ : Type} (cond : α → Bool) (next : α → α) (body : α → σ → Option σ)

/-- `for (; cond (x); x = next (x)) body`; `none` if the fuel is used up. -/
def forLoop : Nat → α → σ → Option σ
  | 0, _, _ => none
  | fuel + 1, x, s =>
    if cond x then (body x s).bind (forLoop fuel (next x)) else some s

variable {cond next body}

/-- A loop that returns has folded its body over the points up to the first one outside. -/
theorem forLoop_eq_some {fuel : Nat} {x : α} {s s' : σ} :
    forLoop cond next body fuel x s = some s' ↔
      ∃ n < fuel, (∀ k < n, cond (next^[k] x) = true) ∧ cond (next^[n] x) = false ∧
        (List.iterate next x n).foldlM (fun s x => body x s) s = some s' := by
  induction fuel generalizing x s with
  | zero => exact ⟨nofun, fun ⟨n, h, _⟩ => absurd h (Nat.not_lt_zero n)⟩
  | succ fuel ih =>
    rw [forLoop]
    cases hx : cond x with
    | false =>
      constructor
      · intro h
        exact ⟨0, Nat.succ_pos fuel, nofun, hx, h⟩
      · rintro ⟨n, -, hall, -, h⟩
        cases n with
        | zero => exact h
        | succ n => exact absurd (hx.symm.trans (hall 0 n.succ_pos)) nofun
    | true =>
      simp only [if_true, Option.bind_eq_some_iff, ih]
      constructor
      · rintro ⟨s₁, hs₁, n, hn, hall, hend, h⟩
        refine ⟨n + 1, Nat.succ_lt_succ hn, fun k hk => ?_, hend, ?_⟩
        · cases k with
          | zero => exact hx
          | succ k => exact hall k (Nat.lt_of_succ_lt_succ hk)
        · exact Option.bind_eq_some_iff.mpr ⟨s₁, hs₁, h⟩
      · rintro ⟨n, hn, hall, hend, h⟩
        cases n with
        | zero => exact absurd (hx.symm.trans hend) nofun
        | succ n =>
          obtain ⟨s₁, hs₁, h⟩ := Option.bind_eq_some_iff.mp h
          exact ⟨s₁, hs₁, n, Nat.lt_of_succ_lt_succ hn,
            fun k hk => hall (k + 1) (Nat.succ_lt_succ hk), hend, h⟩

end ForLoop

variable {K : Type} [Field K] [LinearOrder K]

/-- The halves that a point lies in. -/
def bits (x : K) : Nat → K → K → List Bool
  | 0, _, _ => []
  | n + 1, floor, ceiling =>
    if x < (floor + ceiling) / 2 then false :: bits x n floor ((floor + ceiling) / 2)
    else true :: bits x n ((floor + ceiling) / 2) ceiling

@[simp] theorem length_bits (x : K) (n : Nat) (floor ceiling : K) :
    (bits x n floor ceiling).length = n := by
  induction n generalizing floor ceiling with
  | zero => rfl
  | succ n ih =>
    rw [bits]
    split <;> exact congrArg (· + 1) (ih _ _)

/-- Binary digits as a number. -/
def ofBits (l : List Bool) : Nat := l.foldl (fun a b => 2 * a + b.toNat) 0

theorem foldl_bits (l : List Bool) (a : Nat) :
    l.foldl (fun a b => 2 * a + b.toNat) a = a * 2 ^ l.length + ofBits l := by
  induction l generalizing a with
  | nil => simp [ofBits]
  | cons b l ih =>
    rw [ofBits, List.foldl_cons, List.foldl_cons, ih, ih (2 * 0 + b.toNat), List.length_cons,
      Nat.pow_succ]
    ring

theorem ofBits_cons (b : Bool) (l : List Bool) :
    ofBits (b :: l) = b.toNat * 2 ^ l.length + ofBits l := by
  rw [ofBits, List.foldl_cons, foldl_bits, mul_zero, zero_add]

theorem ofBits_lt (l : List Bool) : ofBits l < 2 ^ l.length := by
  induction l with
  | nil => exact Nat.one_pos
  | cons b l ih =>
    rw [ofBits_cons, List.length_cons, Nat.pow_succ]
    cases b <;> simp only [Bool.toNat_true, Bool.toNat_false] <;> omega

theorem ofBits_inj {l l' : List Bool} (hlen : l.length = l'.length) (h : ofBits l = ofBits l') :
    l = l' := by
  induction l generalizing l' with
  | nil => exact (List.length_eq_zero_iff.mp hlen.symm).symm
  | cons b l ih =>
    obtain _ | ⟨b', l'⟩ := l'
    · exact absurd hlen (Nat.succ_ne_zero _)
    · have hlen := Nat.succ.inj hlen
      rw [ofBits_cons, ofBits_cons, ← hlen] at h
      have hlt := ofBits_lt l
      have hlt' := ofBits_lt l'
      rw [← hlen] at hlt'
      have hb : b = b' := by
        cases b <;> cases b' <;> simp only [Bool.toNat_true, Bool.toNat_false] at h <;>
          first | rfl | omega
      rw [hb] at h ⊢
      rw [ih hlen (Nat.add_left_cancel h)]

section Field

variable [IsStrictOrderedRing K] [FloorSemiring K]

/-- The first point of a grid behind `stop`. -/
theorem exists_steps_iff {start stop step : K} (hle : start ≤ stop) {P : Nat → Prop} :
    (∃ n : Nat, (∀ k < n, start + k * step ≤ stop) ∧ stop < start + n * step ∧ P n) ↔
      0 < step ∧ P (⌊(stop - start) / step⌋₊ + 1) := by
  constructor
  · rintro ⟨n, hall, hend, h⟩
    have hstep : 0 < step := by
      by_contra hneg
      have : (n : K) * step ≤ 0 :=
        mul_nonpos_of_nonneg_of_nonpos n.cast_nonneg (not_lt.mp hneg)
      linarith
    obtain _ | n := n
    · rw [Nat.cast_zero, zero_mul, add_zero] at hend
      exact absurd hle (not_le.mpr hend)
    · have hfloor : ⌊(stop - start) / step⌋₊ = n := by
        have hn := hall n n.lt_succ_self
        rw [Nat.floor_eq_iff (div_nonneg (sub_nonneg.mpr hle) hstep.le), le_div_iff₀ hstep,
          div_lt_iff₀ hstep]
        push_cast at hend
        constructor <;> linarith
      rw [hfloor]
      exact ⟨hstep, h⟩
  · rintro ⟨hstep, h⟩
    refine ⟨_, fun k hk => ?_, ?_, h⟩
    · have hk' := Nat.cast_le (α := K).mpr (Nat.le_of_lt_succ hk)
      have hfloor := Nat.floor_le (div_nonneg (sub_nonneg.mpr hle) hstep.le)
      have := (le_div_iff₀ hstep).mp (hk'.trans hfloor)
      linarith
    · have := (div_lt_iff₀ hstep).mp (Nat.lt_floor_add_one ((stop - start) / step))
      push_cast
      linarith

/-- A grid whose step is at most the width of a cell meets each cell between its ends. -/
theorem exists_same_cell {index : K → Nat} (hmono : Monotone index) {width step start x : K}
    (hgap : ∀ x y, y ≤ x + width → index y ≤ index x + 1) (hstep : step ≤ width) (hpos : 0 < step)
    {n : Nat} (hstart : start ≤ x) (hend : x ≤ start + n * step) :
    ∃ k ≤ n, index (start + k * step) = index x := by
  set k := ⌊(x - start) / step⌋₊ with hk
  have hle : start + k * step ≤ x := by
    have := Nat.floor_le (div_nonneg (sub_nonneg.mpr hstart) hpos.le)
    rw [le_div_iff₀ hpos] at this
    linarith
  have hlt : x < start + k * step + step := by
    have := (div_lt_iff₀ hpos).mp (Nat.lt_floor_add_one ((x - start) / step))
    linarith
  have hkn : k ≤ n := by
    have : (k : K) * step ≤ n * step := by linarith
    exact Nat.cast_le.mp (le_of_mul_le_mul_right this hpos)
  obtain rfl | hkn := hkn.eq_or_lt
  · exact ⟨k, le_rfl, by rw [le_antisymm hend hle]⟩
  · have hnext : start + ((k + 1 : Nat) : K) * step = start + k * step + step := by
      push_cast
      ring
    have hlow := hmono hle
    have hhigh : index x ≤ index (start + ((k + 1 : Nat) : K) * step) :=
      hmono (hnext ▸ hlt.le)
    have hone : index (start + ((k + 1 : Nat) : K) * step) ≤ index (start + k * step) + 1 := by
      refine hgap _ _ ?_
      rw [hnext]
      linarith
    by_cases heq : index (start + k * step) = index x
    · exact ⟨k, hkn.le, heq⟩
    · exact ⟨k + 1, hkn, by omega⟩

/-- The cell of a point, counted from the floor. -/
theorem ofBits_bits (x : K) (n : Nat) {floor ceiling : K} (h : floor < ceiling) :
    ofBits (bits x n floor ceiling) =
      min ⌊(x - floor) / (ceiling - floor) * 2 ^ n⌋₊ (2 ^ n - 1) := by
  induction n generalizing floor ceiling with
  | zero => simp [bits, ofBits]
  | succ n ih =>
    set u := (x - floor) / (ceiling - floor) with hu
    have hwidth : 0 < ceiling - floor := sub_pos.mpr h
    have hhalf : x < (floor + ceiling) / 2 ↔ 2 * u < 1 := by
      rw [hu, ← mul_div_assoc, div_lt_one hwidth]
      constructor <;> intro h <;> linarith
    have hpow : (0 : K) < 2 ^ n := by positivity
    rw [bits]
    split
    · rename_i hx
      have hu' : (x - floor) / ((floor + ceiling) / 2 - floor) = 2 * u := by
        rw [hu, show (floor + ceiling) / 2 - floor = (ceiling - floor) / 2 by ring]
        field_simp
      rw [ofBits_cons, ih (by linarith), Bool.toNat_false, zero_mul, zero_add, hu',
        show u * 2 ^ (n + 1) = 2 * u * 2 ^ n by ring]
      have hlt : 2 * u * 2 ^ n < ((2 ^ n : Nat) : K) := by
        push_cast
        exact mul_lt_of_lt_one_left hpow (hhalf.mp hx)
      have hfloor := (Nat.floor_lt' (pow_pos two_pos n).ne').mpr hlt
      rw [Nat.pow_succ]
      omega
    · rename_i hx
      have hu' : (x - (floor + ceiling) / 2) / (ceiling - (floor + ceiling) / 2) = 2 * u - 1 := by
        rw [hu, show ceiling - (floor + ceiling) / 2 = (ceiling - floor) / 2 by ring]
        field_simp
        ring
      rw [ofBits_cons, ih (by linarith), Bool.toNat_true, one_mul, length_bits, hu',
        show (2 * u - 1) * 2 ^ n = u * 2 ^ (n + 1) - ((2 ^ n : Nat) : K) by push_cast; ring,
        Nat.floor_sub_natCast]
      have hle : ((2 ^ n : Nat) : K) ≤ u * 2 ^ (n + 1) := by
        rw [show u * 2 ^ (n + 1) = 2 * u * 2 ^ n by ring]
        push_cast
        exact le_mul_of_one_le_left hpow.le (not_lt.mp (hhalf.not.mp hx))
      have hfloor := Nat.le_floor hle
      rw [Nat.pow_succ]
      omega

theorem ofBits_bits_mono (n : Nat) {floor ceiling : K} (h : floor < ceiling) :
    Monotone fun x => ofBits (bits x n floor ceiling) := by
  intro x y hxy
  dsimp only
  rw [ofBits_bits x n h, ofBits_bits y n h]
  refine min_le_min_right _ (Nat.floor_le_floor ?_)
  have hwidth := (sub_pos.mpr h).le
  gcongr

/-- Points that are at most one width apart lie in cells that are at most one apart. -/
theorem ofBits_bits_gap (n : Nat) {floor ceiling : K} (h : floor < ceiling) (x y : K)
    (hxy : y ≤ x + (ceiling - floor) / 2 ^ n) :
    ofBits (bits y n floor ceiling) ≤ ofBits (bits x n floor ceiling) + 1 := by
  have hwidth : 0 < ceiling - floor := sub_pos.mpr h
  rw [ofBits_bits x n h, ofBits_bits y n h]
  set u := (x - floor) / (ceiling - floor) * 2 ^ n with hu
  have hx := Nat.lt_floor_add_one u
  have hy : (y - floor) / (ceiling - floor) * 2 ^ n < ((⌊u⌋₊ + 2 : Nat) : K) := by
    have hle : (y - floor) / (ceiling - floor) * 2 ^ n ≤ u + 1 := by
      have : (y - floor) / (ceiling - floor) * 2 ^ n ≤
          (x + (ceiling - floor) / 2 ^ n - floor) / (ceiling - floor) * 2 ^ n := by
        gcongr
      refine this.trans (le_of_eq ?_)
      rw [hu]
      field_simp
      ring
    push_cast
    linarith
  have hfloor := (Nat.floor_lt' (Nat.succ_ne_zero _)).mpr hy
  omega

end Field

end ISearch.Grid

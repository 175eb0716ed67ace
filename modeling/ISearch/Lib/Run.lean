import Mathlib.Data.Set.Basic
import Mathlib.Tactic.Common

/-!
# Runs

A machine is a partial step function; its runs are the monadic folds of the step over a list of
operations, and `none` is a crash or a refused operation. `refines_run` is the simulation rule:
a step that never crashes and keeps a relation to an abstract step keeps it along every run;
`invariant_run` is the invariant rule for a step that may be refused, and `invariant_along` the one
for runs whose operations all meet a condition on the state they are taken in. A machine whose
operations answer is seen through its `outputs`; `outputs_eq_along` is the simulation rule for them.
-/

namespace ISearch

variable {σ τ ω : Type}

/-- The state after a list of operations. -/
def runOps (step : σ → ω → Option σ) (s : σ) (ops : List ω) : Option σ := ops.foldlM step s

@[simp] theorem runOps_nil (step : σ → ω → Option σ) (s : σ) : runOps step s [] = some s := rfl

@[simp] theorem runOps_cons (step : σ → ω → Option σ) (s : σ) (op : ω) (ops : List ω) :
    runOps step s (op :: ops) = (step s op).bind fun s' => runOps step s' ops := by
  simp [runOps]

theorem refines_run {step : σ → ω → Option σ} {spec : τ → ω → τ} {Rel : σ → τ → Prop}
    (hstep : ∀ s a op, Rel s a → ∃ s', step s op = some s' ∧ Rel s' (spec a op))
    {s : σ} {a : τ} (h : Rel s a) (ops : List ω) :
    ∃ s', runOps step s ops = some s' ∧ Rel s' (ops.foldl spec a) := by
  induction ops generalizing s a with
  | nil => exact ⟨s, rfl, h⟩
  | cons op ops ih =>
    obtain ⟨s₁, hs₁, h₁⟩ := hstep s a op h
    obtain ⟨s₂, hs₂, h₂⟩ := ih h₁
    exact ⟨s₂, by simp [hs₁, hs₂], h₂⟩

/-- A property that every step keeps holds after every run. -/
theorem invariant_run {step : σ → ω → Option σ} {Inv : σ → Prop}
    (hstep : ∀ s op s', Inv s → step s op = some s' → Inv s') {s s' : σ} (h : Inv s)
    (ops : List ω) (hrun : runOps step s ops = some s') : Inv s' := by
  induction ops generalizing s with
  | nil =>
    cases hrun
    exact h
  | cons op ops ih =>
    rw [runOps_cons] at hrun
    obtain ⟨s₁, hs₁, hrun⟩ := Option.bind_eq_some_iff.mp hrun
    exact ih (hstep s op s₁ h hs₁) hrun

/-- Every operation of the run meets `P` in the state it is taken in. -/
def AlongRun (step : σ → ω → Option σ) (P : σ → ω → Prop) : σ → List ω → Prop
  | _, [] => True
  | s, op :: ops => P s op ∧ ∀ s', step s op = some s' → AlongRun step P s' ops

instance AlongRun.decidable (step : σ → ω → Option σ) (P : σ → ω → Prop)
    [∀ s op, Decidable (P s op)] (s : σ) : (ops : List ω) → Decidable (AlongRun step P s ops)
  | [] => inferInstanceAs (Decidable True)
  | op :: ops =>
    match h : step s op with
    | none => decidable_of_iff (P s op) (by simp [AlongRun, h])
    | some s' =>
      have := AlongRun.decidable step P s' ops
      decidable_of_iff (P s op ∧ AlongRun step P s' ops) (by simp [AlongRun, h])

theorem alongRun_congr {step : σ → ω → Option σ} {P Q : σ → ω → Prop}
    (h : ∀ s op, P s op ↔ Q s op) (s : σ) (ops : List ω) :
    AlongRun step P s ops ↔ AlongRun step Q s ops := by
  induction ops generalizing s with
  | nil => exact Iff.rfl
  | cons op ops ih =>
    rw [AlongRun, AlongRun, h]
    exact and_congr_right fun _ => forall_congr' fun s' => imp_congr_right fun _ => ih s'

/-- The condition may use what every step that meets it keeps. -/
theorem alongRun_congr_along {step : σ → ω → Option σ} {P Q : σ → ω → Prop} {Inv : σ → Prop}
    (hstep : ∀ s op s', Inv s → Q s op → step s op = some s' → Inv s')
    (hPQ : ∀ s op, Inv s → (P s op ↔ Q s op)) {s : σ} (h : Inv s) (ops : List ω) :
    AlongRun step P s ops ↔ AlongRun step Q s ops := by
  induction ops generalizing s with
  | nil => exact Iff.rfl
  | cons op ops ih =>
    rw [AlongRun, AlongRun, hPQ s op h]
    exact and_congr_right fun hQ => forall_congr' fun s' =>
      imp_congr_right fun hs' => ih (hstep s op s' h hQ hs')

theorem alongRun_congr_of_inv {step : σ → ω → Option σ} {P Q : σ → ω → Prop}
    {Inv : σ → Prop} (hstep : ∀ s op s', Inv s → step s op = some s' → Inv s')
    (hPQ : ∀ s op, Inv s → (P s op ↔ Q s op)) {s : σ} (h : Inv s) (ops : List ω) :
    AlongRun step P s ops ↔ AlongRun step Q s ops :=
  alongRun_congr_along (fun s op s' h _ => hstep s op s' h) hPQ h ops

theorem AlongRun.and {step : σ → ω → Option σ} {P Q : σ → ω → Prop} {s : σ} {ops : List ω}
    (hP : AlongRun step P s ops) (hQ : AlongRun step Q s ops) :
    AlongRun step (fun s op => P s op ∧ Q s op) s ops := by
  induction ops generalizing s with
  | nil => trivial
  | cons op ops ih => exact ⟨⟨hP.1, hQ.1⟩, fun s' hs' => ih (hP.2 s' hs') (hQ.2 s' hs')⟩

/-- A property that every step under a condition keeps, without a crash, holds after every run
under that condition. -/
theorem invariant_along {step : σ → ω → Option σ} {P : σ → ω → Prop} {Inv : σ → Prop}
    (hstep : ∀ s op, Inv s → P s op → ∃ s', step s op = some s' ∧ Inv s') {s : σ} (h : Inv s)
    (ops : List ω) (hrun : AlongRun step P s ops) : ∃ s', runOps step s ops = some s' ∧ Inv s' := by
  induction ops generalizing s with
  | nil => exact ⟨s, rfl, h⟩
  | cons op ops ih =>
    obtain ⟨hP, hrest⟩ := hrun
    obtain ⟨s₁, hs₁, h₁⟩ := hstep s op h hP
    obtain ⟨s₂, hs₂, h₂⟩ := ih h₁ (hrest s₁ hs₁)
    exact ⟨s₂, by simp [hs₁, hs₂], h₂⟩

/-- A property that every step under a condition keeps holds after a run under that condition. -/
theorem invariant_run_along {step : σ → ω → Option σ} {P : σ → ω → Prop} {Inv : σ → Prop}
    (hstep : ∀ s op s', Inv s → P s op → step s op = some s' → Inv s') {s s' : σ} (h : Inv s)
    (ops : List ω) (hok : AlongRun step P s ops) (hrun : runOps step s ops = some s') : Inv s' := by
  induction ops generalizing s with
  | nil =>
    cases hrun
    exact h
  | cons op ops ih =>
    rw [runOps_cons] at hrun
    obtain ⟨s₁, hs₁, hrun⟩ := Option.bind_eq_some_iff.mp hrun
    exact ih (hstep s op s₁ h hok.1 hs₁) (hok.2 s₁ hs₁) hrun

variable {ο : Type}

/-- What the operations of a run answer. -/
def outputs (step : σ → ω → ο × σ) : σ → List ω → List ο
  | _, [] => []
  | s, op :: ops => (step s op).1 :: outputs step (step s op).2 ops

theorem outputs_eq_along {step : σ → ω → ο × σ} {spec : τ → ω → ο × τ} {P : σ → ω → Prop}
    {Rel : σ → τ → Prop}
    (hstep : ∀ s a op, Rel s a → P s op →
      (step s op).1 = (spec a op).1 ∧ Rel (step s op).2 (spec a op).2)
    {s : σ} {a : τ} (h : Rel s a) (ops : List ω)
    (hrun : AlongRun (fun s op => some (step s op).2) P s ops) :
    outputs step s ops = outputs spec a ops := by
  induction ops generalizing s a with
  | nil => rfl
  | cons op ops ih =>
    obtain ⟨hP, hrest⟩ := hrun
    obtain ⟨hout, hrel⟩ := hstep s a op h hP
    rw [outputs, outputs, hout, ih hrel (hrest _ rfl)]

end ISearch

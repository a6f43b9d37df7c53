import Mathlib.Tactic

/-! # Runs

A run is a list of operations applied one after the other, `ops.foldl step s`. What every step
keeps, under a condition on the steps, holds at the end of every run whose steps all meet the
condition.
-/

namespace AxonOS.Lib

variable {σ α : Type} {step : σ → α → σ} {C : σ → α → Prop} {s : σ} {ops : List α} {I : σ → Prop}

def RunMeets (step : σ → α → σ) (C : σ → α → Prop) (s : σ) (ops : List α) : Prop :=
  ∀ pre op post, ops = pre ++ op :: post → C (pre.foldl step s) op

theorem runMeets_nil (s : σ) : RunMeets step C s [] := by
  intro pre op post h
  simp at h

theorem runMeets_cons {op : α} :
    RunMeets step C s (op :: ops) ↔ C s op ∧ RunMeets step C (step s op) ops := by
  constructor
  · intro h
    refine ⟨h [] op ops rfl, fun pre op' post hops => ?_⟩
    exact h (op :: pre) op' post (by rw [hops]; rfl)
  rintro ⟨hop, hops⟩ pre op' post h
  cases pre with
  | nil =>
    obtain ⟨rfl, rfl⟩ := List.cons.inj h
    exact hop
  | cons p pre =>
    obtain ⟨rfl, htail⟩ := List.cons.inj h
    exact hops pre op' post htail

theorem RunMeets.of_append {pre post : List α} (h : RunMeets step C s (pre ++ post)) :
    RunMeets step C s pre := by
  intro l op r hpre
  exact h l op (r ++ post) (by rw [hpre, List.append_assoc]; rfl)

theorem runMeets_append {post : List α} :
    RunMeets step C s (ops ++ post) ↔ RunMeets step C s ops
    ∧ RunMeets step C (ops.foldl step s) post := by
  induction ops generalizing s with
  | nil => exact (and_iff_right (runMeets_nil s)).symm
  | cons op ops ih =>
    rw [List.cons_append, runMeets_cons, runMeets_cons, ih, and_assoc, List.foldl_cons]

/-- **The rule for runs.** -/
theorem run_invariant (hstep : ∀ s op, I s → C s op → I (step s op)) (hs : I s)
    (hC : RunMeets step C s ops) :
    I (ops.foldl step s) := by
  induction ops generalizing s with
  | nil => exact hs
  | cons op ops ih =>
    have hC' := runMeets_cons.mp hC
    exact ih (hstep s op hs hC'.1) hC'.2

/-- **The rule for conditions**: a step from a good state of the invariant leads to a good state if
and only if it meets the condition, and then the invariant holds on. So all states of a run are good
if and only if all its steps meet the condition. -/
theorem run_good_iff {Good : σ → Prop} {V : σ → α → Prop}
    (hstep : ∀ s op, I s → Good s → V s op → (Good (step s op) ↔ C s op) ∧ (C s op → I (step s op)))
    (hs : I s) (hgood : Good s) (hV : RunMeets step V s ops) :
    (∀ pre post, ops = pre ++ post → Good (pre.foldl step s)) ↔ RunMeets step C s ops := by
  induction ops generalizing s with
  | nil =>
    refine iff_of_true (fun pre post h => ?_) (runMeets_nil s)
    obtain ⟨rfl, rfl⟩ := List.append_eq_nil_iff.mp h.symm
    exact hgood
  | cons op ops ih =>
    obtain ⟨hop, hops⟩ := runMeets_cons.mp hV
    obtain ⟨hiff, hinv⟩ := hstep s op hs hgood hop
    rw [runMeets_cons]
    constructor
    · intro hall
      have hnext : Good (step s op) := hall [op] ops rfl
      have hC := hiff.mp hnext
      refine ⟨hC, (ih (hinv hC) hnext hops).mp fun pre post h => ?_⟩
      exact hall (op :: pre) post (by rw [h]; rfl)
    · rintro ⟨hC, hrest⟩ pre post h
      cases pre with
      | nil => exact hgood
      | cons op' pre =>
        obtain ⟨rfl, htail⟩ := List.cons.inj h
        exact (ih (hinv hC) (hiff.mpr hC) hops).mpr hrest pre post htail

end AxonOS.Lib

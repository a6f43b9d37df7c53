import Mathlib.Tactic

/-! # Counted loops with an early return

A C loop `for (i = lo; i < lo + n; i++) { ... }` over a state `σ`. A body may go on to the
next index or leave the enclosing function with a value of type `ρ`; in both cases it hands
back the state it has reached, so that what a failing loop has already done is not lost.

`forLoop_rule` is the invariant rule: an invariant indexed by the loop variable, kept by
every iteration that goes on, and a postcondition established by every iteration that
returns. `forLoop_rel` relates two loops that run in lockstep.
-/

namespace AxonOS.Lib

/-- How one iteration ends: go on with the next index, or return. -/
inductive Flow (σ ρ : Type) where
  | next (s : σ)
  | ret (r : ρ) (s : σ)
  deriving DecidableEq, Repr

/-- `n` iterations of `body` from the index `i` on. -/
def forLoop {σ ρ : Type} (body : Nat → σ → Flow σ ρ) : Nat → Nat → σ → Flow σ ρ
  | 0, _, s => .next s
  | n + 1, i, s =>
    match body i s with
    | .next s' => forLoop body n (i + 1) s'
    | .ret r s' => .ret r s'

/-- What a loop has to establish: `inv` if it runs to its end, `post` if it returns. -/
def Flow.Holds {σ ρ : Type} (inv : σ → Prop) (post : ρ → σ → Prop) : Flow σ ρ → Prop
  | .next s => inv s
  | .ret r s => post r s

theorem forLoop_rule {σ ρ : Type} (body : Nat → σ → Flow σ ρ) (inv : Nat → σ → Prop)
    (post : ρ → σ → Prop) (n i : Nat) (s : σ) (hbody : ∀ j s, i ≤ j → j < i + n → inv j s →
    (body j s).Holds (inv (j + 1)) post) (h : inv i s) :
    (forLoop body n i s).Holds (inv (i + n)) post := by
  induction n generalizing i s with
  | zero => exact h
  | succ n ih =>
    have hstep := hbody i s (Nat.le_refl i) (by omega) h
    unfold forLoop
    cases hb : body i s with
    | next s' =>
      rw [hb] at hstep
      have hrest := ih (i + 1) s' (fun j t hj hlt => hbody j t (by omega) (by omega)) hstep
      rw [show i + (n + 1) = i + 1 + n by omega]
      exact hrest
    | ret r s' =>
      rw [hb] at hstep
      exact hstep

/-- Two ways to end an iteration that agree. -/
def Flow.Rel {σ τ ρ : Type} (R : σ → τ → Prop) : Flow σ ρ → Flow τ ρ → Prop
  | .next s, .next t => R s t
  | .ret r s, .ret r' t => r = r' ∧ R s t
  | _, _ => False

theorem forLoop_rel {σ τ ρ : Type} (R : σ → τ → Prop) {body : Nat → σ → Flow σ ρ}
    {body' : Nat → τ → Flow τ ρ} (hbody : ∀ j s t, R s t → Flow.Rel R (body j s) (body' j t))
    (n i : Nat) (s : σ) (t : τ) (h : R s t) :
    Flow.Rel R (forLoop body n i s) (forLoop body' n i t) := by
  induction n generalizing i s t with
  | zero => exact h
  | succ n ih =>
    have hstep := hbody i s t h
    unfold forLoop
    cases hb : body i s with
    | next s' =>
      cases hb' : body' i t with
      | next t' =>
        rw [hb, hb'] at hstep
        exact ih (i + 1) s' t' hstep
      | ret r t' =>
        rw [hb, hb'] at hstep
        exact hstep.elim
    | ret r s' =>
      cases hb' : body' i t with
      | next t' =>
        rw [hb, hb'] at hstep
        exact hstep.elim
      | ret r' t' =>
        rw [hb, hb'] at hstep
        exact hstep

end AxonOS.Lib

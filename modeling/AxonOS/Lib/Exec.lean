import Mathlib.Tactic

/-! # Programs that change a state and may stop early

Rules for `EStateM`: a C function with a state and an early `return` is a program that may throw,
and what it has done before it throws is not undone. `Ends x s Q E` says how the run of `x` from the
state `s` ends: with a value and a state that satisfy `Q`, or by a throw with `E`.

A run that goes from state to state by steps of a relation, whichever way it ends, is `Makes`; this
goes through sequences, handlers and loops.
-/

namespace AxonOS.Lib

open Relation

variable {ε σ α β : Type} {a : α} {e : ε} {f : α → EStateM ε σ β} {g : ε → ε}

/-- How the run of `x` from `s` ends. -/
def Ends (x : EStateM ε σ α) (s : σ) (Q : α → σ → Prop) (E : ε → σ → Prop) : Prop :=
  match x s with
  | .ok a s' => Q a s'
  | .error e s' => E e s'

def final (x : EStateM ε σ α) (s : σ) : σ :=
  match x s with
  | .ok _ s' => s'
  | .error _ s' => s'

/-- The run of `x` from `s` ends with a value. -/
def Returns (x : EStateM ε σ α) (s : σ) : Prop := Ends x s (fun _ _ => True) fun _ _ => False

section Rules

variable {x : EStateM ε σ α} {s : σ} {Q Q' : α → σ → Prop} {E E' : ε → σ → Prop}

theorem Ends.mono (h : Ends x s Q E) (hQ : ∀ a s', Q a s' → Q' a s')
    (hE : ∀ e s', E e s' → E' e s') :
    Ends x s Q' E' := by
  unfold Ends at h ⊢
  cases hx : x s with
  | ok a s' =>
    rw [hx] at h
    exact hQ a s' h
  | error e s' =>
    rw [hx] at h
    exact hE e s' h

theorem Ends.final {R : σ → Prop} (h : Ends x s (fun _ s' => R s') (fun _ s' => R s')) :
    R (final x s) := by
  unfold Ends at h
  unfold Lib.final
  cases hx : x s with
  | ok a s' | error e s' =>
    rw [hx] at h
    exact h

@[simp] theorem ends_pure : Ends (pure a : EStateM ε σ α) s Q E ↔ Q a s := Iff.rfl

@[simp] theorem ends_throw : Ends (throw e : EStateM ε σ α) s Q E ↔ E e s := Iff.rfl

@[simp] theorem ends_get {Q : σ → σ → Prop} : Ends (get : EStateM ε σ σ) s Q E ↔ Q s s := Iff.rfl

@[simp] theorem ends_modify {f : σ → σ} {Q : PUnit → σ → Prop} :
    Ends (modify f : EStateM ε σ PUnit) s Q E ↔ Q ⟨⟩ (f s) := Iff.rfl

theorem ends_bind {Q : β → σ → Prop} :
    Ends (x >>= f) s Q E ↔ Ends x s (fun a s' => Ends (f a) s' Q E) E := by
  change Ends (EStateM.bind x f) s Q E ↔ _
  unfold Ends EStateM.bind
  cases x s <;> rfl

theorem Ends.bind {Q' : β → σ → Prop} (hx : Ends x s Q E)
    (hf : ∀ a s', Q a s' → Ends (f a) s' Q' E) :
    Ends (x >>= f) s Q' E :=
  ends_bind.mpr (hx.mono hf fun _ _ h => h)

theorem ends_throwAs :
    Ends (tryCatch x fun e => throw (g e)) s Q E ↔ Ends x s Q fun e s' => E (g e) s' := by
  change Ends (EStateM.tryCatch x _) s Q E ↔ _
  unfold Ends EStateM.tryCatch
  cases x s <;> rfl

end Rules

/-! ## Runs as sequences of steps -/

/-- The run of `x` from `s` makes steps of `r`, whichever way it ends; if it returns, then with
`Q`. -/
def Makes (r : σ → σ → Prop) (x : EStateM ε σ α) (s : σ) (Q : α → σ → Prop) : Prop :=
  Ends x s (fun a s' => ReflTransGen r s s' ∧ Q a s') fun _ s' => ReflTransGen r s s'

section Makes

variable {r r' : σ → σ → Prop} {x : EStateM ε σ α} {s : σ} {Q Q' : α → σ → Prop}

theorem makes_pure (h : Q a s) : Makes r (pure a : EStateM ε σ α) s Q :=
  ends_pure.mpr ⟨.refl, h⟩

theorem makes_throw : Makes r (throw e : EStateM ε σ α) s Q := ends_throw.mpr .refl

theorem makes_modify {f : σ → σ} {Q : PUnit → σ → Prop} (hr : r s (f s)) (hQ : Q ⟨⟩ (f s)) :
    Makes r (modify f : EStateM ε σ PUnit) s Q := ends_modify.mpr ⟨.single hr, hQ⟩

theorem Makes.mono (h : Makes r x s Q) (hr : ∀ a b, r a b → r' a b)
    (hQ : ∀ a s', ReflTransGen r s s' → Q a s' → Q' a s') : Makes r' x s Q' :=
  Ends.mono h (fun a s' h => ⟨ReflTransGen.mono hr _ _ h.1, hQ a s' h.1 h.2⟩)
    fun _ _ h => ReflTransGen.mono hr _ _ h

theorem Makes.post (h : Makes r x s Q) (hQ : ∀ a s', ReflTransGen r s s' → Q a s' → Q' a s') :
    Makes r x s Q' :=
  h.mono (fun _ _ => id) hQ

theorem Makes.bind {Q' : β → σ → Prop} (hx : Makes r x s Q)
    (hf : ∀ a s', ReflTransGen r s s' → Q a s' → Makes r (f a) s' Q') : Makes r (x >>= f) s Q' := by
  refine Ends.bind hx ?_
  intro a s' hQ
  exact Ends.mono (hf a s' hQ.1 hQ.2) (fun _ _ h => ⟨hQ.1.trans h.1, h.2⟩) fun _ _ h => hQ.1.trans h

theorem makes_get_bind {f : σ → EStateM ε σ β} {Q : β → σ → Prop} (h : Makes r (f s) s Q) :
    Makes r (get >>= f) s Q := ends_bind.mpr h

theorem Makes.tryCatch {g : ε → EStateM ε σ α} (hx : Makes r x s Q)
    (hg : ∀ e s', ReflTransGen r s s' → Makes r (g e) s' Q) : Makes r (tryCatch x g) s Q := by
  change Ends (EStateM.tryCatch x g) s _ _
  unfold Makes Ends at hx
  unfold Ends EStateM.tryCatch
  cases hrun : x s with
  | ok a s' =>
    rw [hrun] at hx
    exact hx
  | error e s' =>
    rw [hrun] at hx
    exact Ends.mono (hg e s' hx) (fun _ _ h => ⟨ReflTransGen.trans hx h.1, h.2⟩)
      fun _ _ h => ReflTransGen.trans hx h

theorem Makes.final (h : Makes r x s Q) : ReflTransGen r s (final x s) :=
  Ends.final (Ends.mono h (fun _ _ h => h.1) fun _ _ h => h)

theorem Makes.returned {R : σ → Prop} (h : Makes r x s fun _ s' => R s') (hret : Returns x s) :
    R (Lib.final x s) := by
  unfold Makes Ends at h
  unfold Returns Ends at hret
  unfold Lib.final
  cases hx : x s with
  | ok a s' =>
    rw [hx] at h
    exact h.2
  | error e s' =>
    rw [hx] at hret
    exact hret.elim

end Makes

end AxonOS.Lib

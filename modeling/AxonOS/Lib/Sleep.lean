import AxonOS.Lib.Run

/-! # Threads that sleep in a call

Threads make calls on an object. The section of a call at `p`, under the object's lock, says what
the thread does next and which threads it unblocks. A thread that has to wait registers in a section
and blocks in a later step.
-/

namespace AxonOS.Lib

inductive Pc (ρ : Type) where
  | idle (rc : Int)
  | running (p : ρ)
  /-- Past the section that registers, and about to block. -/
  | blocking (p : ρ)
  | blocked (p : ρ)
  /-- Past the section at `p`, and about to unblock threads and return. -/
  | waking (p : ρ) (rc : Int) (tids : List Nat)

structure Threads (ε ρ : Type) where
  obj : ε
  pc : Nat → Pc ρ

inductive CallOp (ρ : Type) where
  | call (t : Nat) (p : ρ)
  /-- `intr` says whether the thread finds a signal pending. -/
  | run (t : Nat) (intr : Bool)

/-- The sections, the places of readers, and the registered threads. -/
structure Calls (ε ρ : Type) where
  sect : ε → Nat → Bool → ρ → ε × Pc ρ × List Nat
  reads : ρ → Bool
  waiters : ε → List Nat

variable {ε ρ : Type} (K : Calls ε ρ) (s : Threads ε ρ)

/-- Unblocking has no effect on a thread that is not blocked. -/
def unblockAll (tids : List Nat) (pc : Nat → Pc ρ) (t : Nat) : Pc ρ :=
  match pc t with
  | .blocked p => if t ∈ tids then .running p else .blocked p
  | c => c

def Threads.next (t : Nat) (r : ε × Pc ρ × List Nat) : Threads ε ρ :=
  ⟨r.1, Function.update (unblockAll r.2.2 s.pc) t r.2.1⟩

def Calls.step : CallOp ρ → Threads ε ρ
  | .call t p =>
    match s.pc t with
    | .idle _ => s.next t (s.obj, .running p, [])
    | _ => s
  | .run t intr =>
    match s.pc t with
    | .running p => s.next t (K.sect s.obj t intr p)
    | .blocking p => s.next t (s.obj, .blocked p, [])
    | .waking _ rc tids => s.next t (s.obj, .idle rc, tids)
    | _ => s

def Calls.run (e : ε) (ops : List (CallOp ρ)) : Threads ε ρ :=
  ops.foldl K.step ⟨e, fun _ => .idle 0⟩

/-! ## Sleepers are not forgotten -/

/-- The thread is registered, or one past a section that is not a reader's is about to unblock
it. -/
def Calls.Awaited (x : Nat) : Prop :=
  x ∈ K.waiters s.obj ∨ ∃ u p rc tids, s.pc u = .waking p rc tids ∧ K.reads p = false ∧ x ∈ tids

/-- Every sleeping reader is awaited. -/
def Calls.Kept : Prop := ∀ x p, s.pc x = .blocked p → K.reads p = true → K.Awaited s x

/-- Every reader that is about to block is registered. -/
def Calls.Poised : Prop := ∀ x p, s.pc x = .blocking p → K.reads p = true → x ∈ K.waiters s.obj

/-- No writer runs its section while a reader is between its registration and its `thread_block`. -/
def Calls.Parted (op : CallOp ρ) : Prop :=
  ∀ t intr p x q, op = .run t intr → s.pc t = .running p → K.reads p = false →
    s.pc x = .blocking q → K.reads q = false

theorem Calls.rested {e : ε} : K.Poised (K.run e []) ∧ K.Kept (K.run e []) := ⟨nofun, nofun⟩

variable {K s} {t : Nat}

theorem Calls.Poised.next {r : ε × Pc ρ × List Nat} (h : K.Poised s)
    (hc : ∀ p, r.2.1 = .blocking p → K.reads p = true → t ∈ K.waiters r.1)
    (hw : ∀ x p, s.pc x = .blocking p → K.reads p = true → x ∈ K.waiters s.obj →
    x ∈ K.waiters r.1) :
    K.Poised (s.next t r) := by
  intro x p hx hp
  by_cases hxt : x = t
  · subst hxt
    exact hc p (by simpa [Threads.next] using hx) hp
  have hblocking : s.pc x = .blocking p := by
    simp only [Threads.next, Function.update_of_ne hxt, unblockAll] at hx
    cases hpc : s.pc x <;> grind
  exact hw x p hblocking hp (h x p hblocking hp)

/-- **One step**, if a section registers the reader that will block and leaves the readers about to
block registered. -/
theorem Calls.Poised.step {op : CallOp ρ} (h : K.Poised s)
    (hself : ∀ t intr p q, op = .run t intr → s.pc t = .running p → (K.sect s.obj t intr p).2.1
      = .blocking q → K.reads q = true → t ∈ K.waiters (K.sect s.obj t intr p).1)
    (hothers : ∀ t intr p x q, op = .run t intr → s.pc t = .running p → s.pc x = .blocking q →
      K.reads q = true → x ∈ K.waiters s.obj → x ∈ K.waiters (K.sect s.obj t intr p).1) :
      K.Poised (K.step s op) := by
  cases op with
  | call t p =>
    simp only [Calls.step]
    split
    · exact h.next nofun fun _ _ _ _ hx => hx
    · exact h
  | run t intr =>
    simp only [Calls.step]
    split
    next p hrun =>
      exact h.next (fun q => hself t intr p q rfl hrun) fun x q => hothers t intr p x q rfl hrun
    next => exact h.next nofun fun _ _ _ _ hx => hx
    next => exact h.next nofun fun _ _ _ _ hx => hx
    · exact h

theorem Calls.Kept.next {r : ε × Pc ρ × List Nat} (h : K.Kept s)
    (hc : ∀ p, r.2.1 = .blocked p → K.reads p = true → K.Awaited (s.next t r) t)
    (hw : ∀ x p, s.pc x = .blocked p → K.reads p = true → x ∈ K.waiters s.obj → x ∉ r.2.2 →
      K.Awaited (s.next t r) x)
    (ht : ∀ p rc l, s.pc t = .waking p rc l → l ⊆ r.2.2) : K.Kept (s.next t r) := by
  intro x p hx hp
  by_cases hxt : x = t
  · subst hxt
    exact hc p (by simpa [Threads.next] using hx) hp
  obtain ⟨hblocked, hnot⟩ : s.pc x = .blocked p ∧ x ∉ r.2.2 := by
    simp only [Threads.next, Function.update_of_ne hxt, unblockAll] at hx
    cases hpc : s.pc x <;> grind
  rcases h x p hblocked hp with hreg | ⟨u, q, rc, l, hu, hq, hl⟩
  · exact hw x p hblocked hp hreg hnot
  · have hne : u ≠ t := fun heq => hnot (ht q rc l (heq ▸ hu) hl)
    exact .inr ⟨u, q, rc, l, by simp [Threads.next, hne, unblockAll, hu], hq, hl⟩

/-- **One step** of threads that register before they block, if after a section every sleeper that
was registered is awaited or has been unblocked. -/
theorem Calls.Kept.step {op : CallOp ρ} (h : K.Kept s) (hm : K.Poised s)
    (hsect : ∀ t intr p x q, op = .run t intr → s.pc t = .running p → s.pc x = .blocked q →
      K.reads q = true → x ∈ K.waiters s.obj → x ∉ (K.sect s.obj t intr p).2.2 →
      K.Awaited (s.next t (K.sect s.obj t intr p)) x)
    (hpc : ∀ e t intr p q, (K.sect e t intr p).2.1 ≠ .blocked q) : K.Kept (K.step s op) := by
  cases op with
  | call t p =>
    simp only [Calls.step]
    split
    · exact h.next (by simp) (fun _ _ _ _ hx _ => .inl hx) (by simp [*])
    · exact h
  | run t intr =>
    simp only [Calls.step]
    split
    next p hrun =>
      exact h.next (fun q hq => absurd hq (hpc _ _ _ _ q)) (fun x q => hsect t intr p x q rfl hrun)
        (by simp [hrun])
    next p hblk =>
      refine h.next (fun q hq hr => ?_) (fun _ _ _ _ hx _ => .inl hx) (by simp [hblk])
      cases hq
      exact .inl (hm t p hblk hr)
    next p rc l hwake => exact h.next (by simp) (fun _ _ _ _ hx _ => .inl hx) (by simp [hwake])
    · exact h

end AxonOS.Lib

import AxonOS.Arch.Word
import AxonOS.Lib.SlotTable

/-! # File descriptors

A process has one table of descriptors, and every thread keeps a copy of it, `cur->fds`, which some
system calls read instead. `thread_fd_alloc`, `thread_fd_close_for`, `thread_fd_dup` and
`thread_fd_dup2` of `thread.c` write the table of the process and the copy of the calling thread;
the copies of its other threads stay as they are.

What each call does to descriptors, copies and reference counts is said by its `_cases` lemma.
-/

namespace AxonOS.Process

open Lib Function

/-! ## State -/

def THREAD_MAX_FD : Nat := 2048

/-- The descriptors of a process and its threads, and the open files. `limited` are the user threads
with an effective user other than root. `held` only records the references that are held elsewhere
than in the descriptors of the process. -/
structure FdState where
  fds : Nat → Option Nat
  fdCloexec : Nat → Bool
  rlimNofileCur : Nat
  mirror : Nat → Nat → Option Nat
  limited : Nat → Bool
  refcount : Nat → Int
  freed : Nat → Bool
  limitAccounted : Nat → Bool
  fileLimitCount : Nat
  fileLimitMax : Nat
  held : Nat → Int

namespace FdState

/-! ## Files -/

/-- `fs_file_account`: the state, and whether the file is within the limit. -/
def fsFileAccount (s : FdState) (t f : Nat) : FdState × Bool :=
  if s.limitAccounted f then (s, true)
  else if s.fileLimitMax ≤ s.fileLimitCount ∧ s.limited t then (s, false)
  else
    ({ s with
      fileLimitCount := s.fileLimitCount + 1
      limitAccounted := update s.limitAccounted f true }, true)

def fsFileUnaccount (s : FdState) (f : Nat) : FdState :=
  if s.limitAccounted f then
    { s with
      limitAccounted := update s.limitAccounted f false, fileLimitCount := s.fileLimitCount - 1 }
  else s

def fsFileFree (s : FdState) (f : Nat) : FdState :=
  let prev := s.refcount f
  let s := { s with refcount := update s.refcount f (int32 (prev - 1)) }
  if 1 < prev then s
  else if prev < 1 then s
  else
    { s with refcount := update s.refcount f 0, freed := update s.freed f true }.fsFileUnaccount f

/-- `if (f->refcount <= 0) f->refcount = 1; else f->refcount++;` -/
def take (s : FdState) (f : Nat) : FdState :=
  { s with
    refcount := update s.refcount f (if s.refcount f ≤ 0 then 1 else int32 (s.refcount f + 1)) }

/-! ## Descriptors -/

/-- `cur->fds[i] = file; cur->process->fds[i] = file;` -/
def install (s : FdState) (t i : Nat) (file : Option Nat) : FdState :=
  { s with fds := update s.fds i file, mirror := update s.mirror t (update (s.mirror t) i file) }

/-- `thread_fd_alloc`, which takes over the reference of its caller. -/
def threadFdAlloc (s : FdState) (t f : Nat) : FdState × Int :=
  let limit := if THREAD_MAX_FD < s.rlimNofileCur then THREAD_MAX_FD else s.rlimNofileCur
  match firstFree s.fds 0 limit with
  | none => (s, -24)
  | some i =>
    match s.fsFileAccount t f with
    | (s, false) => (s, -23)
    | (s, true) =>
      ({ s.install t i (some f) with
          refcount := if s.refcount f ≤ 0 then update s.refcount f 1 else s.refcount
          held := update s.held f (s.held f - 1) }, i)

def threadFdCloseFor (s : FdState) (t fd : Nat) : FdState × Int :=
  if THREAD_MAX_FD ≤ fd then (s, -1)
  else
    match s.fds fd with
    | none => (s, -1)
    | some f =>
      (({ s.install t fd none with fdCloexec := update s.fdCloexec fd false }).fsFileFree f, 0)

def threadFdDup (s : FdState) (t oldfd : Nat) : FdState × Int :=
  if THREAD_MAX_FD ≤ oldfd then (s, -1)
  else
    match s.fds oldfd with
    | none => (s, -1)
    | some f =>
      match firstFree s.fds 0 THREAD_MAX_FD with
      | none => (s, -1)
      | some i => ((s.install t i (some f)).take f, i)

/-- `thread_fd_dup2`, which releases the old file before it takes the new one. -/
def threadFdDup2 (s : FdState) (t oldfd newfd : Nat) : FdState × Int :=
  if THREAD_MAX_FD ≤ oldfd ∨ THREAD_MAX_FD ≤ newfd then (s, -1)
  else if oldfd = newfd then (s, newfd)
  else
    match s.fds oldfd with
    | none => (s, -1)
    | some f =>
      let s := match s.fds newfd with
        | some replaced => s.fsFileFree replaced
        | none => s
      let s := { s.install t newfd none with fdCloexec := update s.fdCloexec newfd false }
      ((s.install t newfd (some f)).take f, newfd)

end FdState

/-! ## Runs -/

/-- The calls by the threads of the process, and references that come and go elsewhere. -/
inductive FdOp where
  | alloc (t f : Nat)
  | close (t fd : Nat)
  | dup (t oldfd : Nat)
  | dup2 (t oldfd newfd : Nat)
  | get (f : Nat)
  | put (f : Nat)
  deriving DecidableEq, Repr

def FdState.step (s : FdState) : FdOp → FdState
  | .alloc t f => (s.threadFdAlloc t f).1
  | .close t fd => (s.threadFdCloseFor t fd).1
  | .dup t oldfd => (s.threadFdDup t oldfd).1
  | .dup2 t oldfd newfd => (s.threadFdDup2 t oldfd newfd).1
  | .get f =>
    { s with
      refcount := update s.refcount f (int32 (s.refcount f + 1))
      held := update s.held f (s.held f + 1) }
  | .put f => { s.fsFileFree f with held := update s.held f (s.held f - 1) }

/-! ## What the parts do -/

section Parts

variable (s : FdState) (t f : Nat)

theorem fsFileUnaccount_eq : s.fsFileUnaccount f = { s with
    limitAccounted := (s.fsFileUnaccount f).limitAccounted
    fileLimitCount := (s.fsFileUnaccount f).fileLimitCount } := by
  unfold FdState.fsFileUnaccount
  split <;> rfl

/-- Releasing a file leaves the tables and the held references alone. -/
theorem fsFileFree_same : (s.fsFileFree f).fds = s.fds ∧ (s.fsFileFree f).mirror = s.mirror ∧
    (s.fsFileFree f).held = s.held := by
  unfold FdState.fsFileFree
  dsimp only
  split
  · exact ⟨rfl, rfl, rfl⟩
  · split
    · exact ⟨rfl, rfl, rfl⟩
    · rw [fsFileUnaccount_eq]
      exact ⟨rfl, rfl, rfl⟩

@[simp] theorem fsFileFree_fds : (s.fsFileFree f).fds = s.fds := (fsFileFree_same s f).1

@[simp] theorem fsFileFree_mirror : (s.fsFileFree f).mirror = s.mirror := (fsFileFree_same s f).2.1

@[simp] theorem fsFileFree_held : (s.fsFileFree f).held = s.held := (fsFileFree_same s f).2.2

/-- Releasing a file takes one reference, and the last one frees it. -/
theorem fsFileFree_refcount (h : 1 ≤ s.refcount f) (hhi : s.refcount f < 2 ^ 31) :
    (s.fsFileFree f).refcount = update s.refcount f (s.refcount f - 1)
      ∧ ∀ g, (s.fsFileFree f).freed g = true → s.freed g = true ∨ (g = f ∧ s.refcount f = 1) := by
  unfold FdState.fsFileFree
  dsimp only
  rw [int32_eq (by omega) (by omega)]
  split
  · exact ⟨rfl, fun g hg => .inl hg⟩
  split
  · omega
  have hone : s.refcount f = 1 := by omega
  rw [fsFileUnaccount_eq]
  constructor
  · rw [hone]
    exact update_idem _ _ _
  · intro g hg
    by_cases hgf : g = f
    · exact .inr ⟨hgf, hone⟩
    · exact .inl ((update_of_ne hgf true s.freed).symm.trans hg)

theorem fsFileAccount_eq : (s.fsFileAccount t f).1 = { s with
    limitAccounted := (s.fsFileAccount t f).1.limitAccounted
    fileLimitCount := (s.fsFileAccount t f).1.fileLimitCount } := by
  unfold FdState.fsFileAccount
  split
  · rfl
  · split <;> rfl

end Parts

/-! ## What the calls do -/

/-- The descriptors, their copies and the counts are as before. -/
structure Same (s s' : FdState) : Prop where
  fds : s'.fds = s.fds
  mirror : s'.mirror = s.mirror
  refcount : s'.refcount = s.refcount
  freed : s'.freed = s.freed
  held : s'.held = s.held

/-- A call by `t` has written `v` into descriptor `i`. -/
structure Wrote (s s' : FdState) (t i : Nat) (v : Option Nat) : Prop where
  lt : i < THREAD_MAX_FD
  fds : s'.fds = update s.fds i v
  mirror : s'.mirror = update s.mirror t (update (s.mirror t) i v)

section Calls

variable {s : FdState}

theorem Same.refl (s : FdState) : Same s s := ⟨rfl, rfl, rfl, rfl, rfl⟩

theorem alloc_cases (s : FdState) (t f : Nat) : Same s (s.threadFdAlloc t f).1
      ∨ ∃ i, s.fds i = none ∧ Wrote s (s.threadFdAlloc t f).1 t i (some f)
        ∧ (1 ≤ s.refcount f → (s.threadFdAlloc t f).1.refcount = s.refcount)
        ∧ (s.threadFdAlloc t f).1.freed = s.freed
        ∧ (s.threadFdAlloc t f).1.held = update s.held f (s.held f - 1) := by
  have hsame := fsFileAccount_eq s t f
  unfold FdState.threadFdAlloc
  dsimp only
  cases hfree : firstFree s.fds 0
      (if THREAD_MAX_FD < s.rlimNofileCur then THREAD_MAX_FD else s.rlimNofileCur) with
  | none => exact .inl (.refl s)
  | some i =>
    have hspec := firstFree_spec _ _ _ hfree
    have hlt : i < THREAD_MAX_FD := by
      have := hspec.2
      split at this <;> omega
    generalize s.fsFileAccount t f = r at hsame
    obtain ⟨s1, ok⟩ := r
    dsimp only at hsame ⊢
    rw [hsame]
    cases ok with
    | false => exact .inl ⟨rfl, rfl, rfl, rfl, rfl⟩
    | true =>
      exact .inr ⟨i, hspec.1, ⟨hlt, rfl, rfl⟩, fun hpos => if_neg (Int.not_le.mpr hpos), rfl, rfl⟩

theorem close_cases (s : FdState) (t fd : Nat) :
    (Same s (s.threadFdCloseFor t fd).1 ∧ ¬ (fd < THREAD_MAX_FD ∧ ∃ f, s.fds fd = some f))
      ∨ ∃ f s1, s.fds fd = some f ∧ Wrote s s1 t fd none ∧ s1.refcount = s.refcount
        ∧ s1.freed = s.freed ∧ s1.held = s.held ∧ (s.threadFdCloseFor t fd).1
        = s1.fsFileFree f := by
  unfold FdState.threadFdCloseFor
  split
  next hlt => exact .inl ⟨.refl s, fun h => absurd h.1 (Nat.not_lt.mpr hlt)⟩
  next hlt =>
  cases hf : s.fds fd with
  | none => exact .inl ⟨.refl s, fun ⟨_, f, h⟩ => nomatch h⟩
  | some f =>
    exact .inr ⟨f, { s.install t fd none with fdCloexec := update s.fdCloexec fd false }, rfl,
      ⟨by omega, rfl, rfl⟩, rfl, rfl, rfl, rfl⟩

theorem dup_cases (s : FdState) (t oldfd : Nat) : Same s (s.threadFdDup t oldfd).1
      ∨ ∃ f i, oldfd < THREAD_MAX_FD ∧ s.fds oldfd = some f ∧ s.fds i = none
        ∧ Wrote s (s.threadFdDup t oldfd).1 t i (some f)
        ∧ (s.threadFdDup t oldfd).1.refcount = (s.take f).refcount
        ∧ (s.threadFdDup t oldfd).1.freed = s.freed ∧ (s.threadFdDup t oldfd).1.held = s.held := by
  unfold FdState.threadFdDup
  split
  · exact .inl (.refl s)
  next hlt =>
  cases hf : s.fds oldfd with
  | none => exact .inl (.refl s)
  | some f =>
    cases hfree : firstFree s.fds 0 THREAD_MAX_FD with
    | none => exact .inl (.refl s)
    | some i =>
      have hspec := firstFree_spec _ _ _ hfree
      exact .inr ⟨f, i, by omega, rfl, hspec.1, ⟨by omega, rfl, rfl⟩, rfl, rfl, rfl⟩

/-- What `thread_fd_dup2` releases. -/
def FdState.release (s : FdState) : Option Nat → FdState
  | some f => s.fsFileFree f
  | none => s

theorem dup2_cases (s : FdState) (t oldfd newfd : Nat) {s' : FdState}
    (hs' : (s.threadFdDup2 t oldfd newfd).1 = s') :
    (Same s s' ∧ ¬ (oldfd < THREAD_MAX_FD ∧ newfd < THREAD_MAX_FD ∧ oldfd ≠ newfd ∧ ∃ f,
      s.fds oldfd = some f))
      ∨ ∃ f, oldfd < THREAD_MAX_FD ∧ oldfd ≠ newfd ∧ s.fds oldfd = some f
        ∧ Wrote s s' t newfd (some f) ∧ s'.refcount = ((s.release (s.fds newfd)).take f).refcount
        ∧ s'.freed = (s.release (s.fds newfd)).freed ∧ s'.held = s.held := by
  subst hs'
  unfold FdState.threadFdDup2
  split
  next hlt => exact .inl ⟨.refl s, fun h => by omega⟩
  next hlt =>
  split
  next heq => exact .inl ⟨.refl s, fun h => h.2.2.1 heq⟩
  next hne =>
  cases hf : s.fds oldfd with
  | none => exact .inl ⟨.refl s, fun ⟨_, _, _, f, h⟩ => nomatch h⟩
  | some f =>
    refine .inr ⟨f, by omega, hne, rfl, ⟨by omega, ?_, ?_⟩, ?_, ?_, ?_⟩
    all_goals dsimp only [FdState.install, FdState.take]
    · cases s.fds newfd <;> simp [update_idem]
    · cases s.fds newfd <;> simp [update_idem]
    · cases s.fds newfd <;> rfl
    · cases s.fds newfd <;> rfl
    · cases s.fds newfd <;> simp

end Calls

end AxonOS.Process

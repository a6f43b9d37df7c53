import AxonOS.Arch.Word
import AxonOS.Lib.Run

/-! # Resource limits

`rlimit_set` of `syscall_dispatch.c`, called by a thread that has a process. Three resource numbers
share the limit of the address space.
-/

namespace AxonOS.Process.Rlimit

open Lib

def RLIM_INFINITY : UInt64 := 0xFFFFFFFFFFFFFFFF

/-- The limits that a process stores. -/
inductive Stored where
  | stack | nproc | nofile | rtprio | rttime | as
  deriving DecidableEq

structure Limit where
  cur : UInt64
  max : UInt64

abbrev Limits := Stored → Limit

structure Call where
  euid : Nat
  /-- What `fs_nr_open_get` returns. -/
  nrOpen : UInt64
  resource : Int
  soft : UInt64
  hard : UInt64

/-- Both values are finite and the soft one is the larger one. -/
abbrev Call.Inverted (c : Call) : Prop :=
    c.soft ≠ RLIM_INFINITY ∧ c.hard ≠ RLIM_INFINITY ∧ c.hard < c.soft

/-- The resources with a stored limit. -/
def stored : Int → Option Stored
  | 3 => some .stack
  | 6 => some .nproc
  | 7 => some .nofile
  | 14 => some .rtprio
  | 15 => some .rttime
  | 9 | 2 | 5 => some .as
  | _ => none

/-- `RLIMIT_CORE`, `RLIMIT_CPU`, `RLIMIT_FSIZE` and `RLIMIT_MEMLOCK` are accepted and not stored. -/
def accepted (resource : Int) : Bool := resource ∈ [4, 0, 1, 8]

def refused (c : Call) (old : Limit) : Stored → Bool
  | .nofile => c.nrOpen < c.hard
  | .rtprio | .rttime => old.max < c.hard && c.euid != 0
  | _ => false

def rlimitSet (c : Call) (p : Limits) : Int × Limits :=
  if c.Inverted then (EINVAL, p)
  else
    match stored c.resource with
    | some k => if refused c (p k) k then (EPERM, p) else (0, Function.update p k ⟨c.soft, c.hard⟩)
    | none => if accepted c.resource then (0, p) else (EINVAL, p)

def Limits.step (p : Limits) (c : Call) : Limits := (rlimitSet c p).2

def Limits.Ordered (p : Limits) : Prop := ∀ k, (p k).cur ≤ (p k).max

/-- The call leaves soft values below hard values and raises no hard value. -/
def Shrinks (p : Limits) (c : Call) : Prop := (p.step c).Ordered ∧ ∀ k, (p.step c k).max ≤ (p k).max

/-- A successful call has no infinite soft value below a finite hard one, and where `rlimit_set`
does not compare it with the old hard value, the new one is not above it. -/
def Lowers (p : Limits) (c : Call) : Prop :=
  ∀ k, stored c.resource = some k → (rlimitSet c p).1 = 0 →
    (c.soft = RLIM_INFINITY → c.hard = RLIM_INFINITY)
      ∧ (k ≠ .rtprio → k ≠ .rttime → c.hard ≤ (p k).max)

variable {p : Limits} {c : Call} {k : Stored}

theorem le_infinity (x : UInt64) : x ≤ RLIM_INFINITY := by
  have hx := x.toNat_lt
  rw [UInt64.le_iff_toNat_le]
  exact Nat.le_of_lt_succ hx

/-- What the comparison of the soft and the hard value leaves out. -/
theorem soft_le_iff (h : ¬c.Inverted) :
    c.soft ≤ c.hard ↔ (c.soft = RLIM_INFINITY → c.hard = RLIM_INFINITY) := by
  constructor
  · intro hle hsoft
    exact UInt64.le_antisymm (le_infinity _) (hsoft ▸ hle)
  intro hinf
  by_contra hlt
  by_cases hhard : c.hard = RLIM_INFINITY
  · exact hlt (hhard ▸ le_infinity _)
  · exact h ⟨fun hsoft => hhard (hinf hsoft), hhard, UInt64.not_le.mp hlt⟩

/-- The two limits that an unprivileged caller cannot raise. -/
theorem hard_le_of_guarded (h : ¬refused c (p k) k = true) (heuid : c.euid ≠ 0)
    (hk : k = .rtprio ∨ k = .rttime) :
    c.hard ≤ (p k).max := by
  rcases hk with rfl | rfl
  · simpa [refused, heuid] using h
  · simpa [refused, heuid] using h

/-- A call leaves the limits, or it stores its own values. -/
theorem rlimitSet_cases (c : Call) (p : Limits) :
    (p.step c = p ∧ ∀ k, stored c.resource = some k → (rlimitSet c p).1 ≠ 0) ∨
    ∃ k, stored c.resource = some k ∧ ¬c.Inverted ∧ ¬refused c (p k) k = true ∧
      rlimitSet c p = (0, Function.update p k ⟨c.soft, c.hard⟩) := by
  unfold Limits.step rlimitSet
  split
  · exact .inl ⟨rfl, fun _ _ => show EINVAL ≠ 0 by decide⟩
  next hcmp =>
  split
  next k hk =>
    split
    · exact .inl ⟨rfl, fun _ _ => show EPERM ≠ 0 by decide⟩
    next href => exact .inr ⟨k, hk, hcmp, href, rfl⟩
  next hnone =>
    refine .inl ⟨?_, fun k hk => absurd (hnone.symm.trans hk) nofun⟩
    split <;> rfl

theorem shrinks_iff (hp : p.Ordered) (heuid : c.euid ≠ 0) : Shrinks p c ↔ Lowers p c := by
  rcases rlimitSet_cases c p with ⟨hsame, hfails⟩ | ⟨k, hk, hcmp, href, heq⟩
  · refine iff_of_true ?_ fun k hk hret => absurd hret (hfails k hk)
    rw [Shrinks, hsame]
    exact ⟨hp, fun k => UInt64.le_refl _⟩
  have hlower : Lowers p c ↔ c.soft ≤ c.hard ∧ c.hard ≤ (p k).max := by
    simp only [Lowers, hk, heq, Option.some.injEq, forall_eq', forall_const, soft_le_iff hcmp]
    refine and_congr_right fun _ => ⟨fun h => ?_, fun h _ _ => h⟩
    by_cases hguard : k = .rtprio ∨ k = .rttime
    · exact hard_le_of_guarded href heuid hguard
    · exact h (fun e => hguard (.inl e)) fun e => hguard (.inr e)
  rw [hlower, Shrinks, Limits.Ordered, Limits.step, heq,
    Function.forall_update_iff p fun _ l => l.cur ≤ l.max,
    Function.forall_update_iff p fun k l => l.max ≤ (p k).max]
  constructor
  · intro h
    exact ⟨h.1.1, h.2.1⟩
  · intro h
    exact ⟨⟨h.1, fun k _ => hp k⟩, h.2, fun k _ => UInt64.le_refl _⟩

/-- **Limits only shrink** in a run of unprivileged calls if and only if every call lowers its
limit. -/
theorem rlimits_shrink_iff (p : Limits) (calls : List Call) (hp : p.Ordered)
    (heuid : ∀ c ∈ calls, c.euid ≠ 0) :
    RunMeets Limits.step Shrinks p calls ↔ RunMeets Limits.step Lowers p calls := by
  induction calls generalizing p with
  | nil => exact iff_of_true (runMeets_nil p) (runMeets_nil p)
  | cons c calls ih =>
    obtain ⟨hc, hcalls⟩ := List.forall_mem_cons.mp heuid
    rw [runMeets_cons, runMeets_cons, ← shrinks_iff hp hc]
    exact and_congr_right fun h => ih _ h.1 hcalls

/-- The limits of a process, all alike. -/
def uniform : Limits := fun _ => ⟨5, 9⟩

/-- Two resources are lowered, one of them twice. -/
def lowering : List Call := [⟨1000, 0, 9, 3, 4⟩, ⟨1000, 0, 3, 5, 8⟩, ⟨1000, 0, 9, 2, 2⟩]

theorem rlimits_shrink_lowered :
    RunMeets Limits.step Lowers uniform lowering ∧
    RunMeets Limits.step Shrinks uniform lowering := by
  have hlower : RunMeets Limits.step Lowers uniform lowering := by
    simp only [lowering, runMeets_cons]
    refine ⟨fun k hk _ => ⟨by decide, fun _ _ => ?_⟩, fun k hk _ => ⟨by decide, fun _ _ => ?_⟩,
      fun k hk _ => ⟨by decide, fun _ _ => ?_⟩, runMeets_nil _⟩
    all_goals
      obtain rfl := Option.some.inj hk
      decide
  refine ⟨hlower,
    (rlimits_shrink_iff uniform lowering (fun _ => ?_) (by simp [lowering])).mpr hlower⟩
  exact show (5 : UInt64) ≤ 9 by decide

/-- An unprivileged caller sets an infinite soft value below a hard value of 4, and raises a hard
value. -/
theorem rlimit_raised : (rlimitSet ⟨1000, 0, 3, RLIM_INFINITY, 4⟩ uniform).1 = 0 ∧
    (uniform.step ⟨1000, 0, 3, RLIM_INFINITY, 4⟩ .stack).max
    < (uniform.step ⟨1000, 0, 3, RLIM_INFINITY, 4⟩ .stack).cur ∧
    (rlimitSet ⟨1000, 0, 9, 5, 20⟩ uniform).1 = 0 ∧
    (uniform .as).max < (uniform.step ⟨1000, 0, 9, 5, 20⟩ .as).max := by
  decide

end AxonOS.Process.Rlimit

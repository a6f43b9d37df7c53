import AxonOS.Cpu.Sched

/-! # When `thread_schedule` finds no thread to run

A section of `thread_schedule` scans the table, ends the time slice of the current thread and
searches for a ready thread. `FallsBack` says on the state before the section when it finds none,
and which thread is set running instead.
-/

namespace AxonOS.Cpu

open List Option Sched

variable {s s' : Sched} {t now i cpu : Nat} {doTimeout : Bool} {slots : List Nat}

/-! ## The condition -/

def Sched.InTable (s : Sched) (t : Nat) : Prop := ∃ i ∈ range s.threadCount, s.threads i = some t

/-- The thread is ready, or its timeout is over and the scan, which begins at slot 1, comes to
it. -/
def Sched.GetsReady (s : Sched) (now : Nat) (doTimeout : Bool) (t : Nat) : Prop :=
  (s.thread t).state = .ready
    ∨ doTimeout = true ∧ (s.thread t).expired now = true ∧ (s.thread t).vforkWaiting = false
      ∧ ∃ i ∈ range' 1 (s.threadCount - 1), s.threads i = some t

/-- The slice of the current thread is over, and another thread wants to run. -/
def Sched.SliceOver (s : Sched) (cpu now : Nat) (doTimeout : Bool) (cur : Nat) : Prop :=
  s.needResched cpu = true ∧ (s.thread cur).state = .running ∧ (s.thread cur).vforkWaiting = false
    ∧ s.isAnyIdle cur = false
    ∧ ∃ t, s.InTable t ∧ t ≠ cur ∧ s.isAnyIdle t = false ∧ (s.thread t).vforkWaiting = false
      ∧ s.GetsReady now doTimeout t

/-- The thread may run on the CPU once it is ready. -/
def Sched.MayRun (s : Sched) (cpu t : Nat) : Prop :=
  (s.thread t).vforkWaiting = false ∧ (s.thread t).contextValid = true
    ∧ ((s.thread t).ring = 3 → cpu = 0)
    ∧ (0 ≤ (s.thread t).boundCpu → (s.thread t).boundCpu = cpu)
    ∧ (s.isAnyIdle t = true → s.idleThreadByCpu cpu = some t)

/-- The idle thread of the CPU, if the switch to it is possible, or else the main thread. -/
def Sched.fallback (s : Sched) (cpu cur : Nat) : Nat :=
  match s.idleThreadByCpu cpu with
  | some d => if d ≠ cur ∧ (s.thread d).contextValid then d else mainThread
  | none => mainThread

/-- **The section falls back to the thread `t`**: no terminated thread is freed first, and either
the CPU has no thread yet, or its thread does not keep it and no thread of the table gets ready that
may run on it. -/
def Sched.FallsBack (s : Sched) (cpu now : Nat) (doTimeout : Bool) (t : Nat) : Prop :=
  (∀ i ∈ range' 1 (s.threadCount - 1), ∀ x, s.threads i = some x → s.autoreapOk cpu x = false)
  ∧ match s.currentCpu cpu with
    | none => (if cpu = 0 then some mainThread else s.idleThreadByCpu cpu) = some t
    | some cur =>
      ((s.thread cur).state ≠ .running ∨ s.SliceOver cpu now doTimeout cur)
        ∧ (∀ x, s.InTable x → s.MayRun cpu x →
            ¬ (s.GetsReady now doTimeout x ∨ x = cur ∧ s.SliceOver cpu now doTimeout cur))
        ∧ s.fallback cpu cur = t

/-! ## One scan -/

/-- The tables, and what the sections never change of a thread. -/
structure Like (s s' : Sched) : Prop where
  threads : s'.threads = s.threads
  threadCount : s'.threadCount = s.threadCount
  currentCpu : s'.currentCpu = s.currentCpu
  idle : s'.idleThreadByCpu = s.idleThreadByCpu
  vfork : ∀ t, (s'.thread t).vforkWaiting = (s.thread t).vforkWaiting
  ring : ∀ t, (s'.thread t).ring = (s.thread t).ring
  bound : ∀ t, (s'.thread t).boundCpu = (s.thread t).boundCpu
  valid : ∀ t, (s'.thread t).contextValid = (s.thread t).contextValid

theorem Like.isAnyIdle (h : Like s s') (t : Nat) : s'.isAnyIdle t = s.isAnyIdle t := by
  simp only [Sched.isAnyIdle, h.idle]

theorem Like.mayRun (h : Like s s') (t : Nat) : s'.MayRun cpu t ↔ s.MayRun cpu t := by
  simp only [MayRun, h.vfork, h.valid, h.ring, h.bound, h.isAnyIdle, h.idle]

theorem Like.inTable (h : Like s s') (t : Nat) : s'.InTable t ↔ s.InTable t := by
  simp only [InTable, h.threads, h.threadCount]

theorem Like.trans {s'' : Sched} (h : Like s s') (h' : Like s' s'') : Like s s'' := by
  constructor <;> grind [Like]

theorem wakeSlot_like (now : Nat) (s : Sched) (i : Nat) : Like s (wakeSlot now s i) := by
  unfold wakeSlot wakeExpired noteReady
  constructor <;> grind [upd]

theorem wakeSlot_other (h : (s.thread t).expired now = false ∨ s.threads i ≠ some t) :
    (wakeSlot now s i).thread t = s.thread t := by
  unfold wakeSlot wakeExpired noteReady
  grind [upd]

theorem wakeSlot_woken (hi : s.threads i = some t) (h : (s.thread t).expired now = true) :
    ((wakeSlot now s i).thread t).state
        = (if (s.thread t).vforkWaiting then (s.thread t).state else .ready)
      ∧ ((wakeSlot now s i).thread t).expired now = false := by
  unfold wakeSlot wakeExpired noteReady
  grind [upd, Thread.expired]

theorem foldl_like (now : Nat) (slots : List Nat) (s : Sched) :
    Like s (slots.foldl (wakeSlot now) s)
      ∧ (slots.foldl (wakeSlot now) s).needResched = s.needResched := by
  induction slots generalizing s with
  | nil => exact ⟨by constructor <;> intros <;> rfl, rfl⟩
  | cons i slots ih =>
    refine ⟨(wakeSlot_like now s i).trans (ih _).1, (ih _).2.trans ?_⟩
    unfold wakeSlot wakeExpired noteReady
    grind [upd]

theorem foldl_other (h : (s.thread t).expired now = false ∨ ∀ i ∈ slots, s.threads i ≠ some t) :
    (slots.foldl (wakeSlot now) s).thread t = s.thread t := by
  induction slots generalizing s with
  | nil => rfl
  | cons i slots ih => grind [wakeSlot_other, (wakeSlot_like now s i).threads]

theorem foldl_woken (h : (s.thread t).expired now = true)
    (hslot : ∃ i ∈ slots, s.threads i = some t) :
    ((slots.foldl (wakeSlot now) s).thread t).state
      = if (s.thread t).vforkWaiting then (s.thread t).state else .ready := by
  induction slots generalizing s with
  | nil => simp at hslot
  | cons i slots ih =>
    by_cases hi : s.threads i = some t
    · -- behind its first slot the thread has no deadline
      grind [wakeSlot_woken, foldl_other]
    · grind [wakeSlot_other, (wakeSlot_like now s i).threads]

/-- A scan of `thread_schedule` that frees no thread does what a scan of the timer tick does. -/
theorem scan_eq_foldl {n : Nat} (h : (scan cpu now doTimeout n i s).2 = false) :
    (scan cpu now doTimeout n i s).1
      = if doTimeout then (range' i n).foldl (wakeSlot now) s else s := by
  induction n generalizing i s with
  | zero => simp [scan]
  | succ n ih => grind [scan, wakeSlot, range'_succ]

theorem autoreapOk_wakeExpired (s : Sched) (now x : Nat) :
    (s.wakeExpired now x).autoreapOk cpu t = s.autoreapOk cpu t := by
  unfold autoreapOk Sched.isAnyIdle wakeExpired noteReady
  grind [upd, Thread.expired]

/-- The scan is stopped by the first thread that may be freed, and no thread gets so on the way. -/
theorem scan_reaps_iff (s : Sched) (cpu now : Nat) (doTimeout : Bool) (i n : Nat) :
    (scan cpu now doTimeout n i s).2 = true
    ↔ ∃ j ∈ range' i n, ∃ x, s.threads j = some x ∧ s.autoreapOk cpu x = true := by
  induction n generalizing i s with
  | zero => simp [scan]
  | succ n ih =>
    have hthreads : ∀ x, (s.wakeExpired now x).threads = s.threads := by
      intro x
      unfold wakeExpired noteReady
      grind [upd]
    grind [scan, range'_succ, autoreapOk_wakeExpired]

/-- The state after a scan that has freed no thread. -/
structure Scanned (s : Sched) (now : Nat) (doTimeout : Bool) (s' : Sched) : Prop where
  like : Like s s'
  needResched : s'.needResched = s.needResched
  ready : ∀ t, (s'.thread t).state = .ready ↔ s.GetsReady now doTimeout t
  running : ∀ t, (s'.thread t).state = .running ↔ (s.thread t).state = .running

theorem scanned (s : Sched) (cpu now : Nat) (doTimeout : Bool)
    (h : (scan cpu now doTimeout (s.threadCount - 1) 1 s).2 = false) :
    Scanned s now doTimeout (scan cpu now doTimeout (s.threadCount - 1) 1 s).1 := by
  rw [scan_eq_foldl h]
  cases doTimeout with
  | false =>
    refine ⟨by constructor <;> intros <;> rfl, rfl, fun t => ?_, fun _ => Iff.rfl⟩
    simp [GetsReady]
  | true =>
    obtain ⟨hlike, hresched⟩ := foldl_like now (range' 1 (s.threadCount - 1)) s
    refine ⟨hlike, hresched, fun t => ?_, fun t => ?_⟩ <;>
      grind [GetsReady, foldl_other, foldl_woken, Thread.expired]

/-! ## The rest of a section -/

theorem peerReady_iff {cur : Nat} : s.peerReady cur = true ↔ ∃ t, s.InTable t ∧ t ≠ cur
    ∧ s.isAnyIdle t = false ∧ (s.thread t).vforkWaiting = false ∧ (s.thread t).state = .ready := by
  unfold peerReady InTable
  rw [List.any_eq_true]
  constructor
  · rintro ⟨i, hi, h⟩
    grind
  · rintro ⟨t, ⟨i, hi, ht⟩, h⟩
    exact ⟨i, hi, by grind⟩

theorem Scanned.expireSlice (h : Scanned s now doTimeout s') (cpu cur : Nat) :
    Like s (s'.expireSlice cpu cur)
      ∧ (∀ t, ((s'.expireSlice cpu cur).thread t).state = .ready
          ↔ s.GetsReady now doTimeout t ∨ t = cur ∧ s.SliceOver cpu now doTimeout cur)
      ∧ (((s'.expireSlice cpu cur).thread cur).state = .running
          ↔ (s.thread cur).state = .running ∧ ¬ s.SliceOver cpu now doTimeout cur) := by
  have hover : s.SliceOver cpu now doTimeout cur ↔ (s'.needResched cpu = true
      ∧ (s'.thread cur).state = .running ∧ s'.isAnyIdle cur = false ∧ s'.peerReady cur = true)
        ∧ (s'.thread cur).vforkWaiting = false := by
    simp only [SliceOver, peerReady_iff, h.like.inTable, h.like.isAnyIdle, h.like.vfork,
      h.needResched, h.ready, h.running]
    tauto
  have hready := h.ready
  have hrunning := h.running
  rw [hover]
  refine ⟨h.like.trans ?_, fun t => ?_, ?_⟩
  · unfold Sched.expireSlice noteReady
    constructor <;> grind [upd, Thread.charge]
  · rw [← hready]
    unfold Sched.expireSlice noteReady
    grind [upd, Thread.charge]
  · rw [← hrunning]
    unfold Sched.expireSlice noteReady
    grind [upd, Thread.charge]

/-- A thread that may be picked. -/
structure Pickable (th : Thread) : Prop where
  ready : th.state = .ready
  vfork : th.vforkWaiting = false
  valid : th.contextValid = true

/-- The search so far: it terminates ready threads whose context is not valid, and picks none of
them. -/
structure Searched (s : Sched) (acc : Sched × Option Nat) : Prop where
  like : Like s acc.1
  valid : ∀ t, (s.thread t).contextValid = true → acc.1.thread t = s.thread t
  running : ∀ t, (acc.1.thread t).state = .running ↔ (s.thread t).state = .running
  dead : ∀ t, (s.thread t).state = .terminated → (acc.1.thread t).state = .terminated
  pick : ∀ t, acc.2 = some t → Pickable (s.thread t)

/-- No thread of these slots is one that the pass takes. -/
def Sched.NoneReady (s : Sched) (cpu pass : Nat) (slots : List Nat) : Prop :=
  ∀ i ∈ slots, ∀ t, s.threads i = some t → s.MayRun cpu t → (pass = 0 → s.isAnyIdle t = false) →
    (s.thread t).state ≠ .ready

variable {pass : Nat} {acc : Sched × Option Nat}

theorem Searched.slot (h : Searched s acc) (cpu pass i : Nat) :
    Searched s (pickSlot cpu pass acc i) := by
  obtain ⟨hlike, hvalid, hrunning, hdead, hpick⟩ := h
  unfold pickSlot
  refine ⟨?_, ?_, ?_, ?_, ?_⟩
  · constructor <;> grind [setState, upd, Like]
  all_goals grind [setState, upd, Like, Pickable]

theorem Searched.slot_none (h : Searched s acc) (hpass : pass < 2) :
    (pickSlot cpu pass acc i).2 = none ↔ acc.2 = none ∧ s.NoneReady cpu pass [i] := by
  obtain ⟨hlike, hvalid, hrunning, hdead, hpick⟩ := h
  simp only [NoneReady, mem_singleton, forall_eq]
  unfold pickSlot MayRun
  grind [Like, Like.isAnyIdle]

theorem Searched.foldl (h : Searched s acc) (cpu : Nat) (hpass : pass < 2) (slots : List Nat) :
    Searched s (slots.foldl (pickSlot cpu pass) acc)
      ∧ ((slots.foldl (pickSlot cpu pass) acc).2 = none
        ↔ acc.2 = none ∧ s.NoneReady cpu pass slots) := by
  induction slots generalizing acc with
  | nil => simpa [NoneReady] using h
  | cons i slots ih =>
    obtain ⟨hs, hnone⟩ := ih (h.slot cpu pass i)
    refine ⟨hs, ?_⟩
    rw [foldl_cons, hnone, h.slot_none hpass]
    grind [NoneReady]

/-- The search finds nothing if and only if nothing that may run is ready. -/
theorem pick_spec (s : Sched) (cpu : Nat) : Searched s (s.pick cpu)
    ∧ ((s.pick cpu).2 = none ↔ ∀ t, s.InTable t → s.MayRun cpu t →
    (s.thread t).state ≠ .ready) := by
  have hstart : Searched s (s, none) :=
    ⟨by constructor <;> intros <;> rfl, fun _ _ => rfl, fun _ => Iff.rfl, fun _ => id, nofun⟩
  have h0 := hstart.foldl cpu Nat.zero_lt_two (range s.threadCount)
  unfold Sched.pick
  change Searched s (pickPass cpu 0 s) ∧ ((pickPass cpu 0 s).2 = none ↔ _) at h0
  split
  next s0 t heq =>
    rw [heq] at h0
    refine ⟨h0.1, ?_⟩
    grind [NoneReady, InTable]
  next s0 heq =>
    rw [heq] at h0
    have h1 := h0.1.foldl cpu Nat.one_lt_two (range s0.threadCount)
    refine ⟨h1.1, h1.2.trans ?_⟩
    rw [h0.1.like.threadCount]
    grind [NoneReady, InTable]

/-- **The condition is exact.** -/
theorem scheduleSection_fellBack_iff (s : Sched) (cpu now : Nat) (doTimeout : Bool) (t : Nat) :
    (s.scheduleSection cpu now doTimeout).2 = .fellBack t ↔ s.FallsBack cpu now doTimeout t := by
  have hreaps := scan_reaps_iff s cpu now doTimeout 1 (s.threadCount - 1)
  have hscan := scanned s cpu now doTimeout
  unfold scheduleSection
  split
  next s1 heq =>
    rw [heq] at hreaps
    refine iff_of_false nofun fun h => ?_
    obtain ⟨j, hj, x, hx, hreap⟩ := hreaps.mp rfl
    exact absurd (h.1 j hj x hx) (by simp [hreap])
  next s1 heq =>
  rw [heq] at hreaps hscan
  have hs : Scanned s now doTimeout s1 := hscan rfl
  rw [FallsBack, and_iff_right (by grind)]
  unfold dispatch
  rw [hs.like.currentCpu, hs.like.idle]
  cases s.currentCpu cpu with
  | none =>
    dsimp only
    split <;> grind
  | some cur =>
  dsimp only
  obtain ⟨hlike, hready, hrunning⟩ := hs.expireSlice cpu cur
  obtain ⟨hsearched, hpick⟩ := pick_spec (s1.expireSlice cpu cur) cpu
  generalize s1.expireSlice cpu cur = s2 at *
  generalize s2.pick cpu = r at *
  obtain ⟨s3, pick⟩ := r
  simp only [hlike.inTable, hlike.mayRun, ne_eq, hready] at hpick
  cases pick with
  | some b =>
    have hvalid : (s3.thread b).contextValid = true := by
      rw [hsearched.like.valid]
      exact (hsearched.pick b rfl).valid
    simp only [hvalid, if_true]
    split <;> grind
  | none =>
    have hcur := (hsearched.running cur).trans hrunning
    have hidle : s3.idleThreadByCpu = s.idleThreadByCpu := hsearched.like.idle.trans hlike.idle
    have hvalid (d : Nat) : (s3.thread d).contextValid = (s.thread d).contextValid :=
      (hsearched.like.valid d).trans (hlike.valid d)
    rw [and_iff_right (hpick.mp rfl), fallback, ← hidle]
    grind

end AxonOS.Cpu

import AxonOS.Cpu.Section

/-! # Terminated threads stay terminated

All writes to the state of a thread but three leave a terminated thread alone: `thread_sleep` does
not look at the state of its caller, which another CPU may have stopped in the meantime, and
`thread_schedule` sets the idle thread or the main thread running when no other thread is ready,
whatever their state is.

So terminated threads stay terminated, and no thread with `vfork_waiting` is selected, in every run
without such a step (`Safe`); and each such step breaks one of the two.
-/

namespace AxonOS.Cpu

open List Option Sched

/-- Terminated threads stay so, and `vfork_waiting` is left alone. -/
structure Keeps (s s' : Sched) : Prop where
  dead : ∀ t, (s.thread t).state = .terminated → (s'.thread t).state = .terminated
  vfork : ∀ t, (s'.thread t).vforkWaiting = (s.thread t).vforkWaiting

section Keeps

variable {s s' s'' : Sched} {t : Nat} {f : Thread → Thread}

theorem Keeps.refl (s : Sched) : Keeps s s := ⟨fun _ h => h, fun _ => rfl⟩

theorem Keeps.trans (h : Keeps s s') (h' : Keeps s' s'') : Keeps s s'' :=
  ⟨fun t ht => h'.dead t (h.dead t ht), fun t => (h'.vfork t).trans (h.vfork t)⟩

theorem Keeps.of_thread (h : s'.thread = s.thread) : Keeps s s' := by
  constructor <;> intro t
  · rw [h]
    exact id
  · rw [h]

@[simp] theorem upd_same (s : Sched) (t : Nat) (f : Thread → Thread) :
    (s.upd t f).thread t = f (s.thread t) := by simp [upd]

theorem upd_other (s : Sched) (f : Thread → Thread) {t x : Nat} (h : x ≠ t) :
    (s.upd t f).thread x = s.thread x := by simp [upd, h]

theorem upd_state (s : Sched) (t x : Nat) (hf : ∀ th, (f th).state = th.state) :
    ((s.upd t f).thread x).state = (s.thread x).state := by
  by_cases hx : x = t
  · rw [hx, upd_same, hf]
  · rw [upd_other s f hx]

theorem keeps_upd (hdead : (s.thread t).state = .terminated → (f (s.thread t)).state = .terminated)
    (hvfork : (f (s.thread t)).vforkWaiting = (s.thread t).vforkWaiting) : Keeps s (s.upd t f) := by
  constructor <;> intro x
  · by_cases hx : x = t
    · subst hx
      rw [upd_same]
      exact hdead
    · rw [upd_other s f hx]
      exact id
  · by_cases hx : x = t
    · subst hx
      rw [upd_same]
      exact hvfork
    · rw [upd_other s f hx]

theorem keeps_setState {st : ThreadState}
    (h : (s.thread t).state ≠ .terminated ∨ st = .terminated) :
    Keeps s (s.setState t st) :=
  keeps_upd (fun hdead => h.elim (absurd hdead) id) rfl

section

variable (s : Sched)

theorem keeps_charge (t : Nat) : Keeps s (s.upd t Thread.charge) := keeps_upd id rfl

theorem keeps_accountBlock (cpu t : Nat) : Keeps s (s.accountBlock cpu t) := by
  unfold accountBlock
  split
  · exact keeps_charge s t
  · exact Keeps.refl s

theorem accountBlock_state (cpu t x : Nat) :
    ((s.accountBlock cpu t).thread x).state = (s.thread x).state := by
  unfold accountBlock
  split
  · exact upd_state s t x (f := Thread.charge) fun _ => rfl
  · rfl

theorem keeps_noteReady (t : Nat) : Keeps s (s.noteReady t) := by
  unfold Sched.noteReady
  split
  · exact Keeps.refl s
  next h =>
  have hstate : (s.thread t).state ≠ .terminated := fun hdead => h (.inr (.inl hdead))
  have hready : Keeps s (s.upd t fun th => { th with
      schedFifoSeq := (s.schedFifoCounter + 1) % 2 ^ 32, state := .ready }) :=
    keeps_upd (fun hdead => absurd hdead hstate) rfl
  exact hready.trans (Keeps.of_thread rfl)

/-! ## Blocking and waking -/

theorem keeps_threadStop (pid : Nat) : Keeps s (s.threadStop pid) := by
  unfold threadStop
  split
  · exact keeps_upd (fun _ => rfl) rfl
  · exact Keeps.refl s

theorem keeps_blockWith (cpu : Nat) {deadline : Nat} (h : (s.thread t).state ≠ .terminated) :
    Keeps s ((s.accountBlock cpu t).upd t fun th =>
      { th with state := .blocked, sleepUntil := deadline }) := by
  refine (keeps_accountBlock s cpu t).trans (keeps_upd (fun hdead => absurd ?_ h) rfl)
  rw [← accountBlock_state s cpu t t]
  exact hdead

theorem keeps_threadBlock (cpu pid : Nat) : Keeps s (s.threadBlock cpu pid) := by
  unfold threadBlock
  split
  · split
    · exact keeps_upd id rfl
    · split
      next h => exact keeps_blockWith s cpu h
      next => exact Keeps.refl s
  · exact Keeps.refl s

theorem keeps_threadBlockCurrentAtomic (cpu : Nat) : Keeps s (s.threadBlockCurrentAtomic cpu) := by
  unfold threadBlockCurrentAtomic
  split
  · split
    next h =>
      refine keeps_blockWith s cpu ?_
      rw [h]
      decide
    next => exact Keeps.refl s
  · exact Keeps.refl s

theorem keeps_threadBlockWithTimeout (cpu now pid timeout : Nat) :
    Keeps s (s.threadBlockWithTimeout cpu now pid timeout) := by
  unfold threadBlockWithTimeout
  split
  · split
    next h => exact keeps_blockWith s cpu h.2
    next => exact Keeps.refl s
  · exact Keeps.refl s

theorem keeps_threadUnblock (pid : Nat) : Keeps s (s.threadUnblock pid) := by
  unfold threadUnblock
  split
  · split
    · exact (keeps_upd id rfl).trans (keeps_noteReady _ _)
    · exact Keeps.refl s
  · exact Keeps.refl s

theorem keeps_threadUnblockForkChild (cpu pid : Nat) :
    Keeps s (s.threadUnblockForkChild cpu pid) := by
  unfold threadUnblockForkChild
  split
  next t _ =>
    have hbound :
      Keeps s (s.upd t fun th => { th with boundCpu := if th.ring = 3 then 0 else cpu }) :=
      keeps_upd id rfl
    refine hbound.trans ?_
    dsimp only
    split
    · exact (keeps_upd id rfl).trans ((keeps_noteReady _ _).trans (keeps_upd id rfl))
    · exact Keeps.refl _
  · exact Keeps.refl s

theorem keeps_wakeExpired (now t : Nat) : Keeps s (s.wakeExpired now t) := by
  unfold wakeExpired
  split
  · exact (keeps_upd id rfl).trans (keeps_noteReady _ _)
  · exact Keeps.refl s

end

theorem keeps_wakeSlot (now : Nat) (s : Sched) (i : Nat) : Keeps s (wakeSlot now s i) := by
  unfold wakeSlot
  split
  · exact keeps_wakeExpired s now _
  · exact Keeps.refl s

theorem keeps_threadWakeExpiredTimeouts (s : Sched) (now : Nat) :
    Keeps s (s.threadWakeExpiredTimeouts now) := by
  have hfold : Keeps s ((range s.threadCount).foldl (wakeSlot now) s) :=
    foldlRecOn _ _ (Keeps.refl s) fun s' h i _ => h.trans (keeps_wakeSlot now s' i)
  exact hfold.trans (Keeps.of_thread rfl)

/-! ## `thread_schedule` -/

theorem keeps_scan (cpu now : Nat) (doTimeout : Bool) (n i : Nat) (s : Sched) :
    Keeps s (scan cpu now doTimeout n i s).1 := by
  induction n generalizing i s with
  | zero => exact Keeps.refl s
  | succ n ih =>
    unfold scan
    split
    · exact ih _ _
    split
    · exact Keeps.of_thread rfl
    · refine Keeps.trans ?_ (ih _ _)
      split
      · exact keeps_wakeExpired s now _
      · exact Keeps.refl s

theorem keeps_expireSlice (s : Sched) (cpu cur : Nat) : Keeps s (s.expireSlice cpu cur) := by
  unfold expireSlice
  have hflag :
    Keeps s { s with needResched := fun c => if c = cpu then false else s.needResched c } :=
    Keeps.of_thread rfl
  split
  · exact hflag.trans ((keeps_charge _ _).trans (keeps_noteReady _ _))
  · exact hflag

theorem keeps_pick (s : Sched) (cpu : Nat) : Keeps s (s.pick cpu).1 :=
  ⟨(pick_spec s cpu).1.dead, (pick_spec s cpu).1.like.vfork⟩

theorem keeps_prevSaved (s : Sched) (t : Nat) : Keeps s (s.prevSaved t) := by
  unfold prevSaved
  split
  next h =>
    refine (keeps_charge s t).trans ?_
    dsimp only
    split
    · refine keeps_setState (.inl ?_)
      rw [upd_same]
      exact fun hdead => by rw [show (s.thread t).charge.state = _ from h] at hdead; cases hdead
    · exact keeps_noteReady _ _
  next => exact Keeps.refl s

theorem keeps_switchTo (s : Sched) (cpu cur : Nat) (h : Pickable (s.thread t)) :
    Keeps s (s.switchTo cpu cur t) := by
  refine Keeps.trans ?_ (keeps_prevSaved _ _)
  have hcurrent : Keeps s (s.setCurrent cpu t) := Keeps.of_thread rfl
  refine hcurrent.trans (keeps_upd ?_ rfl)
  intro hdead
  rw [show ((s.setCurrent cpu t).thread t) = s.thread t from rfl, h.ready] at hdead
  cases hdead

theorem install_same (s : Sched) (cpu t : Nat) :
    (s.install cpu t).thread t = { s.thread t with state := .running } :=
  upd_same (s.setCurrent cpu t) t fun th => { th with state := .running }

theorem install_other (s : Sched) (cpu : Nat) {t x : Nat} (h : x ≠ t) :
    (s.install cpu t).thread x = s.thread x :=
  upd_other (s.setCurrent cpu t) (fun th => { th with state := .running }) h

/-- A thread that was not terminated at first gets the CPU. -/
theorem keeps_install (h : Keeps s s') (cpu : Nat) (ht : (s.thread t).state ≠ .terminated) :
    Keeps s (s'.install cpu t) := by
  constructor
  · intro x hx
    have hne : x ≠ t := fun h => ht (h ▸ hx)
    rw [install_other s' cpu hne]
    exact h.dead x hx
  · intro x
    rw [← h.vfork x]
    by_cases hx : x = t
    · subst hx
      rw [install_same]
    · rw [install_other s' cpu hx]

/-- **What a section of `thread_schedule` does**, by the way it ends. -/
def Sectioned (s : Sched) (r : Sched × Outcome) : Prop :=
  match r.2 with
  | .fellBack t => (s.thread t).state ≠ .terminated → Keeps s r.1
  | .picked t => Keeps s r.1 ∧ (s.thread t).vforkWaiting = false
  | _ => Keeps s r.1

theorem dispatch_sectioned (h : Keeps s s') (cpu : Nat) : Sectioned s (s'.dispatch cpu) := by
  unfold dispatch
  split
  · split
    · exact h
    · exact keeps_install h cpu
  next cur _ =>
  have hkeeps := (h.trans (keeps_expireSlice s' cpu cur)).trans (keeps_pick _ cpu)
  have hsearched := (pick_spec (s'.expireSlice cpu cur) cpu).1
  generalize (s'.expireSlice cpu cur).pick cpu = r at hkeeps hsearched
  obtain ⟨s1, pick⟩ := r
  cases pick with
  | some t =>
    have ht : Pickable (s1.thread t) := by
      rw [hsearched.valid t (hsearched.pick t rfl).valid]
      exact hsearched.pick t rfl
    have hv : (s.thread t).vforkWaiting = false := (hkeeps.vfork t).symm.trans ht.vfork
    dsimp only
    split
    next heq =>
      subst heq
      refine ⟨?_, hv⟩
      rw [if_pos ht.ready]
      refine hkeeps.trans (keeps_setState (.inl ?_))
      rw [show (s1.thread t).state = _ from ht.ready]
      decide
    next =>
      split
      · exact ⟨hkeeps.trans (keeps_switchTo s1 cpu cur ht), hv⟩
      next hinvalid => exact absurd ht.valid hinvalid
  | none =>
    dsimp only
    split
    · exact hkeeps
    · split
      · split
        · exact fun hd => (keeps_install hkeeps cpu hd).trans (keeps_prevSaved _ _)
        · exact keeps_install hkeeps cpu
      · exact keeps_install hkeeps cpu

theorem scheduleSection_sectioned (s : Sched) (cpu now : Nat) (doTimeout : Bool) :
    Sectioned s (s.scheduleSection cpu now doTimeout) := by
  have hscan := keeps_scan cpu now doTimeout (s.threadCount - 1) 1 s
  unfold scheduleSection
  split
  next heq =>
    rw [heq] at hscan
    exact hscan
  next heq =>
    rw [heq] at hscan
    exact dispatch_sectioned hscan cpu

end Keeps

/-! ## Runs -/

/-- The CPU, the clock and whether timeouts are scanned, if the step is a section of
`thread_schedule`. -/
def Sched.sectionArgs (s : Sched) : Op → Option (Nat × Nat × Bool)
  | .schedule cpu now => some (cpu, now, !s.timeoutsScanned)
  | .scheduleAgain cpu now doTimeout => some (cpu, now, doTimeout)
  | _ => none

/-- The steps after which all is well: a thread that calls `thread_sleep` has not been terminated,
and the thread a section of `thread_schedule` falls back to neither is terminated nor waits for a
vfork child. -/
def Safe (s : Sched) (op : Op) : Prop :=
  (∀ cpu now ms c, op = .sleep cpu now ms → ms ≠ 0 → s.currentCpu cpu = some c →
    (s.thread c).state ≠ .terminated)
  ∧ ∀ cpu now doTimeout t, s.sectionArgs op = some (cpu, now, doTimeout) →
    s.FallsBack cpu now doTimeout t → (s.thread t).state ≠ .terminated
    ∧ (s.thread t).vforkWaiting = false

/-- What is required of a step. -/
structure StepOk (s : Sched) (op : Op) : Prop where
  dead : ∀ t, (s.thread t).state = .terminated → ((s.step op).thread t).state = .terminated
  parked : ∀ t, s.selects op = some t → (s.thread t).vforkWaiting = false

section Steps

variable {s : Sched} {op : Op}

theorem Sectioned.ok {r : Sched × Outcome} (h : Sectioned s r) (hsafe : ∀ t, r.2 = .fellBack t →
      (s.thread t).state ≠ .terminated ∧ (s.thread t).vforkWaiting = false) :
    Keeps s r.1 ∧ ∀ t, r.2 = .picked t ∨ r.2 = .fellBack t → (s.thread t).vforkWaiting = false := by
  obtain ⟨s', o⟩ := r
  cases o with
  | picked t => exact ⟨h.1, fun x hx => by rcases hx with hx | hx <;> cases hx; exact h.2⟩
  | fellBack t =>
    refine ⟨h (hsafe t rfl).1, ?_⟩
    rintro x (hx | hx)
    · cases hx
    · exact (hsafe x hx).2
  | reaped | halted | stays => exact ⟨h, fun x hx => by rcases hx with hx | hx <;> cases hx⟩

theorem selects_cases {t : Nat} (h : s.selects op = some t) :
    s.outcome op = some (.picked t) ∨ s.outcome op = some (.fellBack t) := by
  unfold selects at h
  split at h
  next heq => exact .inl (some.inj h ▸ heq)
  next heq => exact .inr (some.inj h ▸ heq)
  next => cases h

theorem Safe.stepOk (h : Safe s op) : StepOk s op := by
  have hother : Keeps s (s.step op) → s.outcome op = none → StepOk s op := by
    intro hkeeps hnone
    refine ⟨hkeeps.dead, fun t ht => ?_⟩
    rcases selects_cases ht with ht | ht <;> rw [hnone] at ht <;> cases ht
  cases op with
  | stop pid => exact hother (keeps_threadStop s pid) rfl
  | block cpu pid => exact hother (keeps_threadBlock s cpu pid) rfl
  | blockCurrentAtomic cpu => exact hother (keeps_threadBlockCurrentAtomic s cpu) rfl
  | blockWithTimeout cpu now pid timeout =>
    exact hother (keeps_threadBlockWithTimeout s cpu now pid timeout) rfl
  | sleep cpu now ms =>
    refine hother ?_ rfl
    change Keeps s (s.threadSleep cpu now ms)
    unfold threadSleep
    split
    · exact Keeps.refl s
    next hms =>
    split
    next c hc =>
      refine (keeps_accountBlock s cpu c).trans (keeps_upd (fun hdead => ?_) rfl)
      rw [accountBlock_state] at hdead
      exact absurd hdead (h.1 cpu now ms c rfl hms hc)
    next => exact Keeps.refl s
  | unblock pid => exact hother (keeps_threadUnblock s pid) rfl
  | unblockForkChild cpu pid => exact hother (keeps_threadUnblockForkChild s cpu pid) rfl
  | noteReady t => exact hother (keeps_noteReady s t) rfl
  | wakeExpiredTimeouts now => exact hother (keeps_threadWakeExpiredTimeouts s now) rfl
  | schedule cpu now =>
    have hsect := scheduleSection_sectioned { s with timeoutsScanned := false } cpu now
      (!s.timeoutsScanned)
    have hok := hsect.ok fun t ht =>
      h.2 cpu now _ t rfl
        ((scheduleSection_fellBack_iff { s with timeoutsScanned := false } cpu now _ t).mp ht)
    refine ⟨hok.1.dead, fun t ht => hok.2 t ?_⟩
    exact (selects_cases ht).imp some.inj some.inj
  | scheduleAgain cpu now doTimeout =>
    have hok := (scheduleSection_sectioned s cpu now doTimeout).ok fun t ht =>
      h.2 cpu now doTimeout t rfl ((scheduleSection_fellBack_iff s cpu now doTimeout t).mp ht)
    refine ⟨hok.1.dead, fun t ht => hok.2 t ?_⟩
    exact (selects_cases ht).imp some.inj some.inj
  | setVfork t waiting =>
    refine ⟨fun x hx => ?_, nofun⟩
    exact (upd_state s t x (f := fun th => { th with vforkWaiting := waiting }) fun _ => rfl).trans
      hx
  | requestResched cpu => exact hother (Keeps.of_thread rfl) rfl
  | saveContext t valid unwaited =>
    refine hother ?_ rfl
    change Keeps s (s.upd t fun th => { th with contextValid := valid, unwaited := unwaited })
    exact keeps_upd id rfl
  | exit t => exact hother (keeps_setState (.inr rfl)) rfl

theorem noteReady_alive (t : Nat) {x : Nat} (h : (s.thread x).state ≠ .terminated) :
    ((s.noteReady t).thread x).state ≠ .terminated := by
  unfold Sched.noteReady
  split
  · exact h
  · by_cases hx : x = t
    · subst hx
      simp [upd]
    · simpa [upd, hx] using h

theorem prevSaved_alive (t : Nat) {x : Nat} (h : (s.thread x).state ≠ .terminated) :
    ((s.prevSaved t).thread x).state ≠ .terminated := by
  have hcharge : ((s.upd t Thread.charge).thread x).state ≠ .terminated := by
    rw [upd_state s t x (f := Thread.charge) fun _ => rfl]
    exact h
  unfold prevSaved
  split
  · dsimp only
    split
    · by_cases hx : x = t
      · subst hx
        simp [setState]
      · simpa [setState, upd, hx] using hcharge
    · exact noteReady_alive t hcharge
  · exact h

theorem install_alive (s : Sched) (cpu t : Nat) :
    ((s.install cpu t).thread t).state ≠ .terminated := by
  rw [install_same]
  exact nofun

/-- What a section ends with: where it falls back to a thread, that thread is not terminated. -/
def Alive (r : Sched × Outcome) : Prop :=
  ∀ t, r.2 = .fellBack t → (r.1.thread t).state ≠ .terminated

theorem alive_fellBack {t : Nat} (h : (s.thread t).state ≠ .terminated) :
    Alive (s, .fellBack t) := by
  intro t' ht
  obtain rfl := Outcome.fellBack.inj ht
  exact h

theorem alive_of_ne {o : Outcome} (h : ∀ t, o ≠ .fellBack t) : Alive (s, o) :=
  fun t ht => absurd ht (h t)

theorem dispatch_alive (s : Sched) (cpu : Nat) : Alive (s.dispatch cpu) := by
  unfold dispatch
  split
  · split
    · exact alive_of_ne nofun
    · exact alive_fellBack (install_alive s cpu _)
  next cur _ =>
  generalize (s.expireSlice cpu cur).pick cpu = r
  obtain ⟨s1, pick⟩ := r
  cases pick with
  | some b =>
    dsimp only
    split
    · exact alive_of_ne nofun
    · split
      · exact alive_of_ne nofun
      · exact alive_fellBack (install_alive _ cpu _)
  | none =>
    dsimp only
    split
    · exact alive_of_ne nofun
    · split
      · split
        · exact alive_fellBack (prevSaved_alive _ (install_alive _ cpu _))
        · exact alive_fellBack (install_alive _ cpu _)
      · exact alive_fellBack (install_alive _ cpu _)

theorem scheduleSection_alive (s : Sched) (cpu now : Nat) (doTimeout : Bool) :
    Alive (s.scheduleSection cpu now doTimeout) := by
  unfold scheduleSection
  split
  · exact alive_of_ne nofun
  · exact dispatch_alive _ cpu

/-- A step that is not safe brings a terminated thread back, or selects a parked one. -/
theorem StepOk.safe (h : StepOk s op) : Safe s op := by
  constructor
  · rintro cpu now ms c rfl hms hc hdead
    have hstate := h.dead c hdead
    have hnew : (s.step (.sleep cpu now ms)).thread c = { (s.accountBlock cpu c).thread c with
        sleepUntil := deadlineMs now ms, state := .sleeping } := by
      change (s.threadSleep cpu now ms).thread c = _
      unfold threadSleep
      rw [if_neg hms]
      simp only [hc, upd_same]
    rw [hnew] at hstate
    cases hstate
  · intro cpu now doTimeout t hargs hfalls
    have hend : s.outcome op = some (.fellBack t) := by
      cases op with
      | schedule cpu' now' =>
        cases hargs
        exact congrArg some
          ((scheduleSection_fellBack_iff { s with timeoutsScanned := false } cpu now _ t).mpr
          hfalls)
      | scheduleAgain cpu' now' doTimeout' =>
        cases hargs
        exact congrArg some ((scheduleSection_fellBack_iff s cpu now doTimeout t).mpr hfalls)
      | _ => cases hargs
    have hselects : s.selects op = some t := by
      unfold selects
      rw [hend]
    refine ⟨fun hdead => ?_, h.parked t hselects⟩
    have hstate := h.dead t hdead
    cases op with
    | schedule cpu now => exact scheduleSection_alive _ cpu now _ t (some.inj hend) hstate
    | scheduleAgain cpu now doTimeout =>
      exact scheduleSection_alive s cpu now doTimeout t (some.inj hend) hstate
    | _ => cases hargs

end Steps

/-- The state after some steps. -/
def Sched.exec (s : Sched) (ops : List Op) : Sched := ops.foldl Sched.step s

theorem exec_append (s : Sched) (ops ops' : List Op) :
    s.exec (ops ++ ops') = (s.exec ops).exec ops' :=
  foldl_append

/-- **In every run, terminated threads stay terminated and parked ones are not selected**, if and
only if all its steps are safe. -/
theorem terminated_absorbing_iff (s : Sched) (ops : List Op) :
    ((∀ pre mid post t, ops = pre ++ mid ++ post → ((s.exec pre).thread t).state = .terminated →
        ((s.exec (pre ++ mid)).thread t).state = .terminated)
      ∧ ∀ pre op post t, ops = pre ++ op :: post → (s.exec pre).selects op = some t →
        ((s.exec pre).thread t).vforkWaiting = false)
    ↔ ∀ pre op post, ops = pre ++ op :: post → Safe (s.exec pre) op := by
  constructor
  · rintro ⟨hdead, hparked⟩ pre op post rfl
    apply StepOk.safe
    refine ⟨fun t ht => ?_, fun t ht => hparked pre op post t rfl ht⟩
    have := hdead pre [op] post t (by simp) ht
    rwa [exec_append] at this
  · intro hsafe
    refine ⟨fun pre mid => ?_, fun pre op post t hops => (hsafe pre op post hops).stepOk.parked t⟩
    -- one step more, from the left end of the part between
    induction mid generalizing pre with
    | nil =>
      intro post t _ ht
      rwa [append_nil]
    | cons op mid ih =>
      intro post t hops ht
      have hstep := (hsafe pre op (mid ++ post) (by simpa using hops)).stepOk.dead t ht
      have hnext : ((s.exec (pre ++ [op])).thread t).state = .terminated := by
        rw [exec_append]
        exact hstep
      have := ih (pre ++ [op]) post t (by simpa using hops) hnext
      rwa [append_assoc, singleton_append] at this

/-- Two threads: 0 runs on CPU 1, and 1 on CPU 0. -/
def twoRunning : Sched where
  thread t := ⟨t, .running, 0, false, 0, 0, 0, -1, 0, true, false⟩
  threads i := if i < 2 then some i else none
  threadCount := 2
  currentCpu cpu := if cpu = 0 then some 1 else if cpu = 1 then some 0 else none
  idleThreadByCpu _ := none
  needResched _ := false
  timeoutsScanned := false
  schedFifoCounter := 0

/-- CPU 1 stops thread 1, which then calls `thread_sleep` on CPU 0: when the time is over it is
ready. -/
theorem stopped_thread_sleeps : ((twoRunning.exec [.stop 1]).thread 1).state = .terminated
      ∧ ((twoRunning.exec [.stop 1, .sleep 0 0 10]).thread 1).state = .sleeping
      ∧ ((twoRunning.exec [.stop 1, .sleep 0 0 10, .wakeExpiredTimeouts 10]).thread 1).state
      = .ready := by
  decide

end AxonOS.Cpu

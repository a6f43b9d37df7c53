import AxonOS.Futex.Sections

/-! # Every interleaving

A system is the futex table with the account of what has happened. Its steps are the sections of
`futex_syscall`, and what the scheduler does to threads: they are created and listed, replace their
address space, are terminated, taken off the thread table, and freed by `thread_reap`, which calls
`futex_cancel_thread`. A thread that sleeps in a wait may be resumed at any time; the pending
signals and the clock it finds are arbitrary.

The steps keep `Consistent`, and everything that is said about a run follows from it.
-/

namespace AxonOS.Futex

open Arch List Option Relation

/-! ## The system -/

/-- A call that has been made: who made it, what it met and what it has done. -/
structure Call where
  caller : Thread
  env : FutexEnv
  args : FutexArgs
  before : FutexState
  outcome : Outcome

structure System where
  state : FutexState
  calls : Nat
  log : List Call
  returned : List (Nat × Int)

def System.wakes (σ : System) : List WakeRecord := σ.log.filterMap fun c => c.outcome.wake
def System.marks (σ : System) : List Mark := σ.wakes.flatMap WakeRecord.marks

def System.init : System :=
  ⟨⟨fun _ => [], fun _ => none, fun _ => none, fun _ => none, fun _ => none⟩, 0, [], []⟩

def FutexState.setSlot (s : FutexState) (i : Nat) (p : Option ThreadId) : FutexState :=
  { s with slots := fun k => if k = i then p else s.slots k }

@[simp] theorem setSlot_slots (s : FutexState) (i k : Nat) (p : Option ThreadId) :
    (s.setSlot i p).slots k = if k = i then p else s.slots k := rfl

/-- `kmalloc` returns memory that is not in use. -/
structure FutexEnv.Fresh (env : FutexEnv) (s : FutexState) : Prop where
  waiter : ∀ w, env.newWaiter = some w → s.waiters w = none
  node : ∀ n, env.newNode = some n → s.nodes n = none

/-- A call that waits has returned, if it has, with the number of the call. -/
def returns (n : Nat) (r : Option Int) : List (Nat × Int) := (r.map fun v => (n, v)).toList

def System.afterCall (σ : System) (t : Thread) (env : FutexEnv) (a : FutexArgs) (o : Outcome) :
    System where
  state := o.state
  calls := σ.calls + 1
  log := σ.log ++ [⟨t, env, a, σ.state, o⟩]
  returned := σ.returned ++ if a.isWait then returns σ.calls o.result else []

def System.withState (σ : System) (s : FutexState) : System := { σ with state := s }

inductive Step : System → System → Prop where
  | spawn (σ : System) (p : ThreadId) (tid mm : Nat) :
      σ.state.threads p = none → σ.state.slots tid = none → tid ≠ 0 →
      Step σ (σ.withState
      ((σ.state.setSlot tid (some p)).setThread p (some ⟨tid, false, mm, none, none⟩)))
  | exec (σ : System) (p : ThreadId) (t : Thread) (mm : Nat) :
      σ.state.threads p = some t →
      Step σ (σ.withState (σ.state.setThread p (some { t with mm := mm })))
  | call (σ : System) (p : ThreadId) (t : Thread) (env : FutexEnv) (a : FutexArgs) :
      σ.state.threads p = some t → t.frame = none → env.Fresh σ.state →
      Step σ (σ.afterCall t env a (futexSyscall σ.calls σ.state p t env a))
  | resume (σ : System) (p : ThreadId) (t : Thread) (frame : WaitFrame) (wt : Waiter)
      (signal : Bool) (now : Nat) :
      σ.state.threads p = some t → t.frame = some frame → σ.state.waiters frame.waiter = some wt →
      Step σ { σ with
        state := (waitRound σ.state p t frame signal now).2
        returned := σ.returned ++ returns wt.serial (waitRound σ.state p t frame signal now).1 }
  | terminate (σ : System) (p : ThreadId) (t : Thread) :
      σ.state.threads p = some t →
      Step σ (σ.withState (σ.state.setThread p (some { t with terminated := true })))
  | unlist (σ : System) (p : ThreadId) (t : Thread) :
      σ.state.threads p = some t → t.terminated = true → σ.state.slots t.tid = some p →
      Step σ (σ.withState (σ.state.setSlot t.tid none))
  | free (σ : System) (p : ThreadId) (t : Thread) :
      σ.state.threads p = some t → t.terminated = true → σ.state.slots t.tid ≠ some p →
      Step σ (σ.withState ((futexCancelThread σ.state p t).setThread p none))

/-! ## The invariant -/

/-- A thread sleeps in a wait if and only if it has an active waiter, and for that waiter. -/
def Frames (s : FutexState) : Prop :=
  ∀ p t, s.threads p = some t → t.frame.map WaitFrame.waiter = t.active

structure RecordOk (r : WakeRecord) : Prop where
  woke : r.woke = r.marks.countP Mark.counted
  marks : ∀ mk ∈ r.marks, mk.futex = some (r.key, r.owner) ∧ mk.bits &&& r.bitset ≠ 0
      ∧ mk.counted = mk.alive

/-- The record of a call is about the futex and the bitset that its arguments name, and its result
counts what it has done: `FUTEX_WAKE` returns the number woken, `FUTEX_REQUEUE` the number woken and
moved. Only a requeueing call moves waiters, and only one that has done nothing for want of memory
fails. -/
structure Call.Answers (c : Call) (r : WakeRecord) : Prop where
  futex : if c.args.isPrivate then r.key = c.args.uaddr ∧ r.owner = c.caller.mm
    else c.env.leafPa c.args.uaddr = some r.key ∧ r.owner = 0
  bitset : r.bitset = if c.args.cmd = 10 then c.args.val3 else 0xFFFFFFFF
  record : RecordOk r
  result : ∃ moved, Touches c.before c.outcome.state r.key r.owner r.bitset moved
    ∧ (c.args.isRequeue = false → moved = [])
    ∧ (c.outcome.result = some (r.woke + moved.length : Int)
      ∨ c.args.isRequeue = true ∧ c.env.newNode = none ∧ r.woke = 0 ∧ moved = []
        ∧ c.outcome.result = some (-ENOMEM))

/-- A call without a record is a wait, or it has failed and done nothing. -/
def Call.Idle (c : Call) : Prop :=
  c.args.isWait = true ∨ ∃ e, e ≠ 0 ∧ c.outcome.result = some e ∧ c.outcome.state = c.before

def Call.Accounted (c : Call) : Prop :=
  match c.outcome.wake with
  | some r => c.Answers r
  | none => c.Idle

structure Consistent (σ : System) : Prop where
  sound : Sound σ.state σ.calls σ.marks σ.returned
  frames : Frames σ.state
  accounted : ∀ c ∈ σ.log, c.Accounted

theorem Consistent.records {σ : System} (h : Consistent σ) : ∀ r ∈ σ.wakes, RecordOk r := by
  intro r hr
  obtain ⟨c, hc, hwake⟩ := mem_filterMap.mp hr
  have := h.accounted c hc
  rw [Call.Accounted, hwake] at this
  exact this.record

theorem afterCall_marks (σ : System) (t : Thread) (env : FutexEnv) (a : FutexArgs) (o : Outcome) :
    (σ.afterCall t env a o).marks = σ.marks ++ o.wake.toList.flatMap WakeRecord.marks := by
  unfold System.marks System.wakes System.afterCall
  rw [filterMap_append, flatMap_append]
  cases hw : o.wake <;> simp [hw]

section Threads

variable {s s' : FutexState} {p : ThreadId} {t : Thread} {c : Nat} {M : List Mark}
  {R : List (Nat × Int)}

theorem Frames.of_thread (hf : ∀ q u, q ≠ p → s.threads q = some u → u.frame.map WaitFrame.waiter
    = u.active) {t' : Option Thread} (hthr : ∀ q, s'.threads q = if q = p then t' else s.threads q)
    (ht' : ∀ u, t' = some u → u.frame.map WaitFrame.waiter = u.active) : Frames s' := by
  intro q u hu
  rw [hthr] at hu
  split at hu
  · exact ht' u hu
  next hq => exact hf q u hq hu

theorem Frames.setThread (hf : Frames s) {t' : Thread}
    (ht' : t'.frame.map WaitFrame.waiter = t'.active) :
    Frames (s.setThread p (some t')) := by
  refine .of_thread (fun q u _ hu => hf q u hu) (fun _ => rfl) fun u hu => ?_
  rw [← some.inj hu]
  exact ht'

theorem Frames.of_eq (hf : Frames s) (hthr : s'.threads = s.threads) : Frames s' := by
  intro q u hu
  rw [hthr] at hu
  exact hf q u hu

theorem Owners.free (ho : Owners s) (ht : s.threads p = some t) (hidle : t.active = none)
    (hslot : s.slots t.tid ≠ some p) : Owners (s.setThread p none) := by
  refine ho.of_thread ht (fun _ => rfl) rfl (fun _ => hslot) nofun ho.woken ?_ ?_
  · intro x xt hx
    obtain ⟨u, hu, hua, hut⟩ := ho.owner x xt hx
    have hne : xt.thread ≠ p := by
      intro h
      rw [h, ht] at hu
      rw [← some.inj hu, hidle] at hua
      cases hua
    exact ⟨u, by simp [hne, hu], hua, hut⟩
  · intro q u x hu hux
    simp only [setThread_threads] at hu
    split at hu
    · cases hu
    · exact ho.active q u x hu hux

theorem Owners.spawn (ho : Owners s) (hp : s.threads p = none) {tid mm : Nat}
    (hslot : s.slots tid = none) (htid : tid ≠ 0) :
    Owners ((s.setSlot tid (some p)).setThread p (some ⟨tid, false, mm, none, none⟩)) := by
  have hold : ∀ q u, s.threads q = some u → q ≠ p := by
    rintro q u hu rfl
    rw [hp] at hu
    cases hu
  have hnew : ∀ q u, ((s.setSlot tid (some p)).setThread p
      (some ⟨tid, false, mm, none, none⟩)).threads q = some u →
      q = p ∧ u = ⟨tid, false, mm, none, none⟩ ∨ s.threads q = some u := by
    intro q u hu
    simp only [setThread_threads] at hu
    split at hu
    next hq => exact .inl ⟨hq, (some.inj hu).symm⟩
    next => exact .inr hu
  refine ⟨ho.woken, ?_, ?_, ?_, ?_, ?_⟩
  · intro x xt hx
    obtain ⟨u, hu, hua, hut⟩ := ho.owner x xt hx
    refine ⟨u, ?_, hua, hut⟩
    simp only [setThread_threads, hold _ u hu, if_false]
    exact hu
  · intro q u x hu hux
    rcases hnew q u hu with ⟨-, rfl⟩ | hu'
    · cases hux
    · exact ho.active q u x hu' hux
  · intro i q hq
    simp only [setThread_slots, setSlot_slots] at hq
    split at hq
    next hi => exact ⟨⟨tid, false, mm, none, none⟩, by simp [← some.inj hq], hi.symm⟩
    next =>
      obtain ⟨u, hu, hui⟩ := ho.slot i q hq
      refine ⟨u, ?_, hui⟩
      simp only [setThread_threads, hold _ u hu, if_false]
      exact hu
  · intro q u hu hterm
    rcases hnew q u hu with ⟨hq, rfl⟩ | hu'
    · simp [hq]
    have hrun := ho.running q u hu' hterm
    have hne : u.tid ≠ tid := by
      intro h
      rw [h, hslot] at hrun
      cases hrun
    simp [hne, hrun]
  · intro q u hu
    rcases hnew q u hu with ⟨-, rfl⟩ | hu'
    · exact htid
    · exact ho.tid q u hu'

theorem Owners.unlist (ho : Owners s) (ht : s.threads p = some t) (hterm : t.terminated = true)
    (hslot : s.slots t.tid = some p) : Owners (s.setSlot t.tid none) := by
  refine { ho with slot := ?_, running := ?_ }
  · intro i q hq
    simp only [setSlot_slots] at hq
    split at hq
    · cases hq
    · exact ho.slot i q hq
  · intro q u hu hrun
    have hslot' := ho.running q u hu hrun
    have hne : u.tid ≠ t.tid := by
      intro h
      rw [h, hslot] at hslot'
      have hq : p = q := some.inj hslot'
      subst hq
      have htu : some t = some u := ht.symm.trans hu
      rw [some.inj htu, hrun] at hterm
      cases hterm
    simp [hne, hslot']

theorem Sound.of_owners (hs : Sound s c M R) (hb : s'.buckets = s.buckets) (hn : s'.nodes = s.nodes)
    (hw : s'.waiters = s.waiters) (ho : Owners s') : Sound s' c M R where
  queues := by
    refine hs.queues.of_same hb hn ?_
    intro w n
    unfold Names
    rw [hw]
  noEmpty := by
    intro n nd hx hnd
    rw [hn] at hnd
    exact hs.noEmpty n nd hx hnd
  owners := ho
  ledger := hs.ledger.subset fun x xt hx => by rwa [hw] at hx

/-! ## Waits -/

/-- **A round of the wait loop** keeps the account: the wait returns, or goes on sleeping. -/
theorem waitRound_spec (frame : WaitFrame) {wt : Waiter} (hs : Sound s c M R)
    (hf : ∀ q u, q ≠ p → s.threads q = some u → u.frame.map WaitFrame.waiter = u.active)
    (ht : s.threads p = some t) (hact : t.active = some frame.waiter)
    (hw : s.waiters frame.waiter = some wt) (signal : Bool) (now : Nat) :
    Sound (waitRound s p t frame signal now).2 c M
      (R ++ returns wt.serial (waitRound s p t frame signal now).1)
      ∧ Frames (waitRound s p t frame signal now).2 := by
  rcases waitRound_cases hw signal now with ⟨v, hr, hv⟩ | hr
  · rw [hr]
    refine ⟨hs.leave ht hact hw hv,
      .of_thread hf (waitLeave_spec hs.queues hw).threads fun u hu => ?_⟩
    rw [← some.inj hu]
    rfl
  · rw [hr]
    refine ⟨?_, .of_thread hf (fun _ => rfl) fun u hu => ?_⟩
    · simp only [returns, map_none, toList_none, append_nil]
      exact hs.setThread ht rfl rfl fun h => h
    · rw [← some.inj hu]
      exact hact.symm

theorem waitEnter_spec {w : WaiterId} {fresh : Option NodeId} (hs : Sound s c M R) (hf : Frames s)
    (ht : s.threads p = some t) (hidle : t.active = none) (hw : s.waiters w = none)
    (hfresh : ∀ n, fresh = some n → s.nodes n = none) {key owner bitset now : Nat}
    {deadline : Option Nat} {signal : Bool} {r : Option Int × FutexState}
    (hr : waitEnter s p t w fresh key owner bitset c deadline signal now = r) :
    Sound r.2 (c + 1) M (R ++ returns c r.1) ∧ Frames r.2 := by
  subst hr
  unfold waitEnter
  rcases findOrCreate_cases hs.queues key owner hfresh with ⟨-, hc⟩ | ⟨n, s1, hc, hn⟩
  · rw [hc]
    exact ⟨hs.fails (by decide), hf⟩
  rw [hc]
  dsimp only
  rw [if_neg (hs.owners.tid p t ht)]
  obtain ⟨nd, hnd, -⟩ := hn.node
  have hoff : ∀ m, ¬ Names s1 w m := by
    rintro m ⟨wt, hwt, -⟩
    rw [hn.waiters, hw] at hwt
    cases hwt
  have hp := pushWaiter_spec hn.queues hnd w ⟨t.tid, bitset, false, none, p, c⟩ hoff
  generalize pushWaiter s1 n w ⟨t.tid, bitset, false, none, p, c⟩ = s2 at hp
  have hwaiters : ∀ x, s2.waiters x
      = if x = w then some ⟨t.tid, bitset, false, some n, p, c⟩ else s.waiters x := by
    intro x
    split
    next hx => rw [hx, hp.self]
    next hx => rw [hp.waiters x hx, hn.waiters]
  have hthr : s2.threads = s.threads := hp.threads.trans hn.threads
  have howners := hs.owners.publish ht hidle hw rfl rfl (by simp) hwaiters hthr
    (hp.slots.trans hn.slots)
  have hsound : Sound (s2.setThread p (some { t with active := some w })) (c + 1) M R := by
    refine ⟨hp.queues.of_same rfl rfl fun _ _ => Iff.rfl, ?_, howners, ?_⟩
    · refine NoEmpty.mono (hp.noEmpty _ (hn.noEmpty ∅ hs.noEmpty)) ?_
      simp
    · exact (hs.ledger.publish rfl rfl hwaiters).subset fun _ _ h => h
  have hself : (s2.setThread p (some { t with active := some w })).waiters w
      = some ⟨t.tid, bitset, false, some n, p, c⟩ := by
    rw [setThread_waiters, hwaiters, if_pos rfl]
  refine waitRound_spec ⟨w, deadline⟩ hsound ?_ ?_ rfl hself signal now
  · intro q u hq hu
    simp only [setThread_threads, hq, if_false, hthr] at hu
    exact hf q u hu
  · simp

/-- `thread_reap` gives up the wait of the thread and frees the thread. -/
theorem cancel_spec (hs : Sound s c M R) (ht : s.threads p = some t)
    (hslot : s.slots t.tid ≠ some p) :
    Sound ((futexCancelThread s p t).setThread p none) c M R
      ∧ ∀ q, ((futexCancelThread s p t).setThread p none).threads q = if q = p then none
      else s.threads q := by
  cases hact : t.active with
  | none =>
    have hsame : futexCancelThread s p t = s := by
      unfold futexCancelThread
      rw [hact]
    rw [hsame]
    exact ⟨hs.of_owners rfl rfl rfl (hs.owners.free ht hact hslot), fun _ => rfl⟩
  | some w =>
    obtain ⟨wt, hw, -⟩ := hs.owners.active p t w ht hact
    have hsame : futexCancelThread s p t = waitLeave s p t w wt := by
      unfold futexCancelThread
      simp only [hact, hw]
      rfl
    rw [hsame]
    have hleft := waitLeave_spec (p := p) (t := t) hs.queues hw
    have hsound := hs.abandon ht hact hw
    refine ⟨hsound.of_owners rfl rfl rfl
      (hsound.owners.free (t := { t with active := none, frame := none }) ?_ rfl ?_), ?_⟩
    · rw [hleft.threads, if_pos rfl]
    · rw [hleft.slots]
      exact hslot
    · intro q
      rw [setThread_threads, hleft.threads]
      split <;> rfl

end Threads

/-! ## Calls -/

theorem futexKey_error {env : FutexEnv} {t : Thread} {address : Nat} {isPrivate : Bool} {e : Int}
    (h : futexKey env t address isPrivate = .error e) : e ≠ 0 := by
  unfold futexKey at h
  split at h
  · cases h
    decide
  split at h
  · cases h
    decide
  split at h
  · cases h
  · split at h
    · cases h
      decide
    · cases h

theorem futexDeadline_error {env : FutexEnv} {a : FutexArgs} {e : Int}
    (h : futexDeadline env a = .error e) : e ≠ 0 := by
  unfold futexDeadline at h
  split at h
  · cases h
  split at h
  · cases h
    decide
  · split at h
    · cases h
      decide
    · split at h <;> cases h

section Call

variable (serial : Nat) (s : FutexState) (p : ThreadId) (t : Thread)
    (env : FutexEnv) (a : FutexArgs)

theorem futexWaitCall_cases (key owner : Nat) :
    (∃ e, e ≠ 0 ∧ futexWaitCall serial s p t env a key owner = .fail e s)
      ∨ ∃ w bitset deadline r, env.newWaiter = some w
        ∧ waitEnter s p t w env.newNode key owner bitset serial deadline env.signal
        env.nowLocked = r
        ∧ futexWaitCall serial s p t env a key owner = ⟨r.1, none, r.2⟩ := by
  unfold futexWaitCall
  dsimp only
  generalize (if a.cmd = 0 then 0xFFFFFFFF else a.val3) = bitset
  split
  · exact .inl ⟨-EINVAL, by decide, rfl⟩
  split
  next e he => exact .inl ⟨e, futexDeadline_error he, rfl⟩
  next deadline _ =>
  split
  · exact .inl ⟨-ENOMEM, by decide, rfl⟩
  next w hw =>
  split
  · exact .inl ⟨-EFAULT, by decide, rfl⟩
  · split
    · exact .inl ⟨-EAGAIN, by decide, rfl⟩
    · exact .inr ⟨w, bitset, deadline, _, hw, rfl, rfl⟩

theorem futexRequeueCall_cases (key owner : Nat) :
    (∃ e, e ≠ 0 ∧ futexRequeueCall s t env a key owner = .fail e s)
      ∨ ∃ key2 owner2 nrWake nrRequeue r, ¬ (key = key2 ∧ owner = owner2)
        ∧ futexRequeue env.newNode s key owner key2 owner2 nrWake nrRequeue = r
          ∧ futexRequeueCall s t env a key owner
          = ⟨some r.result, some ⟨key, owner, 0xFFFFFFFF, r.woke, r.marks⟩, r.state⟩ := by
  unfold futexRequeueCall
  split
  · exact .inl ⟨-EINVAL, by decide, rfl⟩
  split
  next e he => exact .inl ⟨e, futexKey_error he, rfl⟩
  next key2 owner2 _ =>
  split
  · exact .inl ⟨-EINVAL, by decide, rfl⟩
  next hdiff =>
  dsimp only
  generalize (if a.uaddr + 4 > MMIO_IDENTITY_LIMIT then none else env.readU32 a.uaddr) = read
  split
  · exact .inl ⟨-EFAULT, by decide, rfl⟩
  · split
    · exact .inl ⟨-EAGAIN, by decide, rfl⟩
    · exact .inr ⟨key2, owner2, a.val.toNat, a.val2.toNat, _, hdiff, rfl, rfl⟩

/-- The ways a call can go: it fails, it waits, or it wakes. -/
theorem futexSyscall_cases : (∃ e, e ≠ 0 ∧ futexSyscall serial s p t env a = .fail e s)
      ∨ (a.isWait = true ∧ ∃ w key owner bitset deadline r, env.newWaiter = some w
        ∧ waitEnter s p t w env.newNode key owner bitset serial deadline env.signal
        env.nowLocked = r
        ∧ futexSyscall serial s p t env a = ⟨r.1, none, r.2⟩)
      ∨ (a.isWait = false ∧ ∃ result key owner bitset woke marks s',
        futexSyscall serial s p t env a = ⟨some result, some ⟨key, owner, bitset, woke, marks⟩, s'⟩
          ∧ futexKey env t a.uaddr a.isPrivate = .ok (key, owner)
          ∧ bitset = (if a.cmd = 10 then a.val3 else 0xFFFFFFFF)
          ∧ (Queues s → Owners s → env.Fresh s → ∃ moved,
            WakingSpec s s' key owner bitset woke marks moved
            ∧ (a.isRequeue = false → moved = [])
            ∧ (result = woke + moved.length
              ∨ a.isRequeue = true ∧ env.newNode = none ∧ woke = 0 ∧ moved = []
              ∧ result = -ENOMEM))) := by
  unfold futexSyscall
  split
  · exact .inl ⟨-ENOSYS, by decide, rfl⟩
  next hcmd =>
  split
  · exact .inl ⟨-ENOSYS, by decide, rfl⟩
  split
  next e he => exact .inl ⟨e, futexKey_error he, rfl⟩
  next key owner hkey =>
  split
  next hwait =>
    rcases futexWaitCall_cases serial s p t env a key owner with
      h | ⟨w, bitset, deadline, r, hw, hr, h⟩
    · exact .inl h
    · exact .inr (.inl ⟨hwait, w, key, owner, bitset, deadline, r, hw, hr, h⟩)
  next hwait =>
    have hnowait : a.isWait = false := Bool.eq_false_iff.mpr hwait
    split
    next hwake =>
      dsimp only
      have hbitset : (if a.cmd = 1 then 0xFFFFFFFF else a.val3) = if a.cmd = 10 then a.val3
          else 0xFFFFFFFF := by
        simp only [FutexArgs.isWake, Bool.or_eq_true, beq_iff_eq] at hwake
        rcases hwake with hcmd | hcmd <;> simp [hcmd]
      generalize (if a.cmd = 1 then 0xFFFFFFFF else a.val3) = bitset at hbitset
      split
      · exact .inl ⟨-EINVAL, by decide, rfl⟩
      · refine .inr (.inr ⟨hnowait, _, key, owner, bitset, _, _, _, rfl, hkey, hbitset, ?_⟩)
        intro hq ho _
        exact ⟨[], futexWake_spec hq ho rfl, fun _ => rfl, .inl (by simp)⟩
    next hwake =>
      have hrequeue : a.isRequeue = true := by
        simpa [hnowait, Bool.eq_false_iff.mpr hwake] using hcmd
      rcases futexRequeueCall_cases s t env a key owner with
        h | ⟨key2, owner2, nw, nr, r, hdiff, hr, h⟩
      · exact .inl h
      · have hcmd : a.cmd ≠ 10 := by
          simp only [FutexArgs.isRequeue, Bool.or_eq_true, beq_iff_eq] at hrequeue
          omega
        refine .inr
          (.inr ⟨hnowait, _, key, owner, 0xFFFFFFFF, _, _, _, h, hkey, (if_neg hcmd).symm, ?_⟩)
        intro hq ho hfresh
        obtain ⟨moved, hspec, hresult⟩ := futexRequeue_spec hq ho hfresh.node hdiff hr
        refine ⟨moved, hspec, fun hno => absurd hrequeue (by simp [hno]), ?_⟩
        exact hresult.imp id fun h => ⟨hrequeue, h⟩

theorem futexKey_ok {env : FutexEnv} {t : Thread} {address key owner : Nat} {isPrivate : Bool}
    (h : futexKey env t address isPrivate = .ok (key, owner)) :
    if isPrivate then key = address ∧ owner = t.mm else env.leafPa address = some key
        ∧ owner = 0 := by
  unfold futexKey at h
  split at h
  · cases h
  split at h
  · cases h
  cases isPrivate with
  | true =>
    cases h
    exact ⟨rfl, rfl⟩
  | false =>
    cases hpa : env.leafPa address with
    | none => simp [hpa] at h
    | some pa =>
      simp only [hpa, Bool.false_eq_true, if_false] at h
      cases h
      exact ⟨rfl, rfl⟩

end Call

/-! ## Steps and runs -/

theorem Consistent.call {σ : System} {p : ThreadId} {t : Thread} {env : FutexEnv} {a : FutexArgs}
    (h : Consistent σ) (ht : σ.state.threads p = some t) (hframe : t.frame = none)
    (hfresh : env.Fresh σ.state) :
    Consistent (σ.afterCall t env a (futexSyscall σ.calls σ.state p t env a)) := by
  have hidle : t.active = none := by
    rw [← h.frames p t ht, hframe]
    rfl
  have hs := h.sound
  rcases futexSyscall_cases σ.calls σ.state p t env a with ⟨e, he, hr⟩
    | ⟨hwait, w, key, owner, bitset, deadline, r, hw, henter, hr⟩
    | ⟨hwait, result, key, owner, bitset, woke, marks, s', hr, hkey, hbitset, hspec⟩
  · rw [hr]
    refine ⟨?_, h.frames, ?_⟩
    · rw [afterCall_marks]
      simp only [System.afterCall, Outcome.fail, toList_none, flatMap_nil, append_nil]
      split
      · exact hs.fails he
      · rw [append_nil]
        exact hs.next
    · exact forall_mem_append.mpr ⟨h.accounted, forall_mem_singleton.mpr (.inr ⟨e, he, rfl, rfl⟩)⟩
  · rw [hr]
    have henter := waitEnter_spec hs h.frames ht hidle (hfresh.waiter w hw) hfresh.node henter
    refine ⟨?_, henter.2, ?_⟩
    · rw [afterCall_marks]
      simp only [System.afterCall, hwait, if_true, toList_none, flatMap_nil, append_nil]
      exact henter.1
    · exact forall_mem_append.mpr ⟨h.accounted, forall_mem_singleton.mpr (.inl hwait)⟩
  · rw [hr]
    obtain ⟨moved, hwake, hmoved, hresult⟩ := hspec hs.queues hs.owners hfresh
    refine ⟨?_, h.frames.of_eq hwake.threads, ?_⟩
    · rw [afterCall_marks]
      simp only [System.afterCall, hwait, toList_some, flatMap_singleton]
      rw [if_neg (by decide), append_nil]
      exact (hwake.sound _ _ _ hs).next
    · refine forall_mem_append.mpr ⟨h.accounted, forall_mem_singleton.mpr ?_⟩
      exact ⟨futexKey_ok hkey, hbitset, ⟨hwake.woke, hwake.marks⟩, moved, hwake.touches, hmoved,
        hresult.imp (congrArg some) (by simp)⟩

/-- **One step keeps the account right.** -/
theorem Step.consistent {σ σ' : System} (hstep : Step σ σ') (h : Consistent σ) : Consistent σ' := by
  have hs := h.sound
  cases hstep with
  | spawn p tid mm hp hslot htid =>
    exact ⟨hs.of_owners rfl rfl rfl (hs.owners.spawn hp hslot htid),
      (h.frames.of_eq rfl).setThread rfl, h.accounted⟩
  | exec p t mm ht =>
    exact ⟨hs.setThread ht rfl rfl fun hterm => hterm, h.frames.setThread
      (h.frames p t ht), h.accounted⟩
  | call p t env a ht hframe hfresh => exact h.call ht hframe hfresh
  | resume p t frame wt signal now ht hframe hw =>
    have hact : t.active = some frame.waiter := by
      rw [← h.frames p t ht, hframe]
      rfl
    have hround := waitRound_spec frame hs (fun q u _ hu => h.frames q u hu) ht hact hw signal now
    exact ⟨hround.1, hround.2, h.accounted⟩
  | terminate p t ht =>
    exact ⟨hs.setThread ht rfl rfl nofun,
      h.frames.setThread (h.frames p t ht), h.accounted⟩
  | unlist p t ht hterm hslot =>
    exact ⟨hs.of_owners rfl rfl rfl (hs.owners.unlist ht hterm hslot),
      h.frames.of_eq rfl, h.accounted⟩
  | free p t ht hterm hslot =>
    have hcancel := cancel_spec hs ht hslot
    exact ⟨hcancel.1, .of_thread (fun q u _ hu => h.frames q u hu) hcancel.2 nofun, h.accounted⟩

theorem consistent_init : Consistent System.init := by
  refine ⟨⟨⟨?_, ?_, ?_, ?_, ?_⟩, ?_, ⟨?_, ?_, ?_, ?_, ?_, ?_⟩, ⟨?_, ?_, ?_, ?_, ?_, ?_, ?_, ?_⟩⟩,
    ?_, ?_⟩ <;>
    simp [System.init, System.marks, System.wakes, keyOf, OnList, Names, NoEmpty, Frames]

/-- **Every interleaving keeps the account right.** -/
theorem consistent_of_run {σ : System} (hrun : ReflTransGen Step System.init σ) : Consistent σ := by
  induction hrun with
  | refl => exact consistent_init
  | tail _ hstep ih => exact hstep.consistent ih

/-- Something that occurs once in the lists of all calls occurs once in the list of one call. -/
theorem filter_any_of_countP_one {α β : Type} {f : α → List β} {q : β → Bool} {l : List α}
    (h : (l.flatMap f).countP q = 1) : ∃ r, (l.filter fun r => (f r).any q) = [r]
    ∧ (f r).countP q = 1 := by
  have hnone : ∀ l : List α, (l.flatMap f).countP q = 0 → (l.filter fun r => (f r).any q) = [] := by
    intro l hl
    rw [filter_eq_nil_iff]
    intro r hr hany
    obtain ⟨b, hb, hq⟩ := any_eq_true.mp hany
    exact countP_eq_zero.mp hl b (mem_flatMap.mpr ⟨r, hr, hb⟩) hq
  induction l with
  | nil => simp at h
  | cons x l ih =>
    rw [flatMap_cons, countP_append] at h
    by_cases hx : (f x).any q = true
    · have hpos : 0 < (f x).countP q := by
        rw [countP_pos_iff]
        exact any_eq_true.mp hx
      refine ⟨x, ?_, by omega⟩
      simp only [filter_cons, hx, if_true, hnone l (by omega)]
    · have hzero : (f x).countP q = 0 := by
        rw [countP_eq_zero]
        intro b hb hq
        exact hx (any_eq_true.mpr ⟨b, hb, hq⟩)
      simp only [filter_cons, hx]
      exact ih (by omega)

theorem sum_woke_eq {l : List WakeRecord} (h : ∀ r ∈ l, RecordOk r) :
    (l.map WakeRecord.woke).sum = (l.flatMap WakeRecord.marks).countP Mark.alive := by
  induction l with
  | nil => rfl
  | cons r l ih =>
    have hr := h r mem_cons_self
    have hcount : r.marks.countP Mark.counted = r.marks.countP Mark.alive := by
      refine countP_congr fun mk hmk => ?_
      rw [(hr.marks mk hmk).2.2]
    rw [map_cons, sum_cons, flatMap_cons, countP_append, hr.woke, hcount,
      ih fun r hr => h r (mem_cons_of_mem _ hr)]

/-- **Wakeups are neither lost nor duplicated.** In every interleaving: a waiter is on the list of
the node it names and on no other, once; a waiter off the lists has been woken; no node in the table
is without waiters, and no two have the same key and owner; a wait that returned `0` was marked by
one call, once, and counted if its thread was alive; the calls have counted the marked waits of live
threads; a wait that returned an error was marked by no call; and every call's record is about the
futex and the bitset that its arguments name, its result is the number it has counted, with the
number it has moved to another futex when it requeues, and it has touched no waiter of another futex
or with a disjoint bitset. -/
theorem futex_wakeups_exact {σ : System} (hrun : ReflTransGen Step System.init σ) :
    (∀ n w, OnList σ.state n w ↔ Names σ.state w n)
    ∧ (∀ n m w, OnList σ.state n w → OnList σ.state m w → n = m)
    ∧ (∀ n nd, σ.state.nodes n = some nd → nd.waiters.Nodup)
    ∧ (∀ w wt, σ.state.waiters w = some wt → (wt.woken = true ↔ wt.node = none))
    ∧ (∀ b n, n ∈ σ.state.buckets b → ∃ nd, σ.state.nodes n = some nd ∧ nd.waiters ≠ [])
    ∧ (∀ n m nd nd', σ.state.nodes n = some nd → σ.state.nodes m = some nd' →
        nd.key = nd'.key → nd.owner = nd'.owner → n = m) ∧ (∀ k, (k, 0) ∈ σ.returned →
        ∃ r mk, (σ.wakes.filter fun r => r.marks.any fun mk => mk.wait == k) = [r]
          ∧ (r.marks.filter fun mk => mk.wait == k) = [mk] ∧ mk.counted = mk.alive)
    ∧ (∀ r ∈ σ.wakes, r.woke = r.marks.countP Mark.counted)
    ∧ (σ.wakes.map WakeRecord.woke).sum = σ.marks.countP Mark.alive
    ∧ (∀ k v, (k, v) ∈ σ.returned → v ≠ 0 → ∀ mk ∈ σ.marks, mk.wait ≠ k)
    ∧ (∀ c ∈ σ.log, ∀ r, c.outcome.wake = some r → c.Answers r)
    ∧ (∀ c ∈ σ.log, c.outcome.wake = none → c.Idle) := by
  have h := consistent_of_run hrun
  have hq := h.sound.queues
  have hl := h.sound.ledger
  refine ⟨hq.listed, ?_, hq.nodup, h.sound.owners.woken, ?_, ?_, ?_, ?_,
    sum_woke_eq h.records, ?_, ?_, ?_⟩
  · intro n m w hn hm
    exact ((hq.listed n w).mp hn).unique ((hq.listed m w).mp hm)
  · intro b n hn
    obtain ⟨k, hk, -⟩ := (hq.bucket b n).mp hn
    obtain ⟨nd, hnd, -⟩ := map_eq_some_iff.mp hk
    exact ⟨nd, hnd, h.sound.noEmpty n nd (Set.notMem_empty n) hnd⟩
  · intro n m nd nd' hn hm hkey howner
    refine hq.unique n m (nd.key, nd.owner) ?_ ?_
    · simp [keyOf, hn]
    · simp [keyOf, hm, hkey, howner]
  · intro k hk
    obtain ⟨r, hr, hone⟩ := filter_any_of_countP_one (hl.ok k hk)
    rw [countP_eq_length_filter, length_eq_one_iff] at hone
    obtain ⟨mk, hmk⟩ := hone
    have hrmem : r ∈ σ.wakes := by
      have : r ∈ [r] := mem_singleton_self r
      rw [← hr] at this
      exact mem_of_mem_filter this
    have hmkmem : mk ∈ r.marks := by
      have : mk ∈ [mk] := mem_singleton_self mk
      rw [← hmk] at this
      exact mem_of_mem_filter this
    exact ⟨r, mk, hr, hmk, ((h.records r hrmem).marks mk hmkmem).2.2⟩
  · intro r hr
    exact (h.records r hr).woke
  · intro k v hk hv mk hmk hwait
    have hzero := hl.failed k v hk hv
    exact countP_eq_zero.mp hzero mk hmk (by simp [hwait])
  · intro c hc r hwake
    have := h.accounted c hc
    rwa [Call.Accounted, hwake] at this
  · intro c hc hwake
    have := h.accounted c hc
    rwa [Call.Accounted, hwake] at this

/-- What a waiting call and a waking call on one private futex meet. -/
def pairEnv (waiter node : Option Nat) : FutexEnv :=
  ⟨fun _ => none, fun _ => some 0, none, 0, 0, false, waiter, node⟩

/-- The first thread waits, the second one wakes it, and the wait returns `0`. -/
theorem futex_wakeups_exact_pair : ∃ σ, ReflTransGen Step System.init σ ∧ (0, 0) ∈ σ.returned
      ∧ σ.wakes.map WakeRecord.woke = [1] ∧ σ.marks.countP Mark.alive = 1
      ∧ ∃ r mk, (σ.wakes.filter fun r => r.marks.any fun mk => mk.wait == 0) = [r]
          ∧ (r.marks.filter fun mk => mk.wait == 0) = [mk] ∧ mk.counted = mk.alive := by
  have h1 := ReflTransGen.refl.tail (Step.spawn System.init 1 1 16 rfl rfl (by decide))
  have h2 := h1.tail (Step.spawn _ 2 2 16 rfl rfl (by decide))
  have h3 := h2.tail (Step.call _ 1 ⟨1, false, 16, none, none⟩ (pairEnv (some 10) (some 20))
    ⟨0x1000, 128, 0, 0, 0, 0⟩ rfl rfl ⟨fun _ _ => rfl, fun _ _ => rfl⟩)
  have h4 := h3.tail (Step.call _ 2 ⟨2, false, 16, none, none⟩ (pairEnv none none)
    ⟨0x1000, 129, 1, 0, 0, 0⟩ rfl rfl ⟨nofun, nofun⟩)
  have h5 := h4.tail (Step.resume _ 1 ⟨1, false, 16, some 10, some ⟨10, none⟩⟩ ⟨10, none⟩
    ⟨1, 0xFFFFFFFF, true, none, 1, 0⟩ false 0 rfl rfl rfl)
  exact ⟨_,
    h5, by decide, by decide, by decide, (futex_wakeups_exact h5).2.2.2.2.2.2.1 0 (by decide)⟩

end AxonOS.Futex

import Mathlib.Tactic

/-! # The scheduler of `thread.c`

Thread states and the functions that change them, each section under `sched_lock` as one step.
Threads are named by their identity, not by `tid`; the table `threads[]` maps slots to them.
`smp_sched_cpu_id` is an argument of what runs on a CPU, `pit_get_time_ms` an argument of what reads
the clock.

`thread_schedule` gives the lock back when it frees a terminated thread and then starts its scan
again, so one call may be several sections (`schedule`, then `scheduleAgain`). The switch itself
happens with the lock held until `thread_schedule_prev_saved`.
-/

namespace AxonOS.Cpu

/-- `thread_state_t`. -/
inductive ThreadState where
  | ready
  | running
  | blocked
  | terminated
  | sleeping
  deriving DecidableEq, Repr

/-- The fields of `thread_t` that the scheduler reads. `contextValid` is what `thread_context_valid`
says of the saved context, `unwaited` what `thread_zombie_autoreap_ok` says of the waiter, the exit
status and the process of a terminated thread. -/
structure Thread where
  tid : Nat
  state : ThreadState
  sleepUntil : Nat
  vforkWaiting : Bool
  nice : Int
  schedVruntime : Nat
  schedFifoSeq : Nat
  boundCpu : Int
  ring : Nat
  contextValid : Bool
  unwaited : Bool
  deriving DecidableEq, Repr

structure Sched where
  thread : Nat → Thread
  threads : Nat → Option Nat
  threadCount : Nat
  currentCpu : Nat → Option Nat
  idleThreadByCpu : Nat → Option Nat
  needResched : Nat → Bool
  timeoutsScanned : Bool
  schedFifoCounter : Nat

def MAX_THREADS : Nat := 512

def SMP_MAX_CPUS : Nat := 16

/-- `&main_thread`. -/
def mainThread : Nat := 0

/-! ## Reading and writing threads -/

def Sched.upd (s : Sched) (t : Nat) (f : Thread → Thread) : Sched :=
  { s with thread := fun x => if x = t then f (s.thread t) else s.thread x }

def Sched.setState (s : Sched) (t : Nat) (st : ThreadState) : Sched :=
  s.upd t fun th => { th with state := st }

def Sched.setCurrent (s : Sched) (cpu t : Nat) : Sched :=
  { s with currentCpu := fun c => if c = cpu then some t else s.currentCpu c }

/-- `thread_get`: table slots are thread ids. -/
def Sched.threadGet (s : Sched) (pid : Nat) : Option Nat :=
  if MAX_THREADS ≤ pid then none
  else
    match s.threads pid with
    | some t => if (s.thread t).tid = pid then some t else none
    | none => none

/-- `thread_is_any_idle`. -/
def Sched.isAnyIdle (s : Sched) (t : Nat) : Bool :=
  (List.range SMP_MAX_CPUS).any fun cpu => s.idleThreadByCpu cpu == some t

/-- `thread_time_after_eq32`. -/
def timeAfterEq32 (now deadline : Nat) : Bool :=
  decide ((now + 2 ^ 32 - deadline) % 2 ^ 32 < 2 ^ 31)

/-- `thread_deadline_ms`. -/
def deadlineMs (now delay : Nat) : Nat :=
  let delay := if delay = 0 then 1 else delay
  let delay := if 0x7FFFFFFF < delay then 0x7FFFFFFF else delay
  (now + delay) % 2 ^ 32

/-- `thread_vruntime_delta`. -/
def Thread.vruntimeDelta (th : Thread) : Nat := (max (-20) (min th.nice 19) + 21).toNat

def Thread.charge (th : Thread) : Thread :=
  { th with schedVruntime := (th.schedVruntime + th.vruntimeDelta) % 2 ^ 64 }

/-- `thread_account_block_nolock`, on the CPU of the caller. -/
def Sched.accountBlock (s : Sched) (cpu t : Nat) : Sched :=
  if s.currentCpu cpu = some t ∧ (s.thread t).state = .running ∧ s.isAnyIdle t = false then
    s.upd t Thread.charge
  else s

/-- `thread_note_ready_nolock`. -/
def Sched.noteReady (s : Sched) (t : Nat) : Sched :=
  if (s.thread t).state = .ready ∨ (s.thread t).state = .terminated
    ∨ (s.thread t).vforkWaiting then s
  else
    let seq := (s.schedFifoCounter + 1) % 2 ^ 32
    { s.upd t fun th => { th with schedFifoSeq := seq, state := .ready } with
      schedFifoCounter := seq }

/-! ## Blocking and waking -/

/-- `thread_stop`: the first thread of the table with this id that is not terminated yet. -/
def Sched.threadStop (s : Sched) (pid : Nat) : Sched :=
  match (List.range s.threadCount).findSome? fun i =>
      (s.threads i).filter fun t => (s.thread t).tid = pid ∧ (s.thread t).state ≠ .terminated with
  | some t => s.upd t fun th => { th with state := .terminated, sleepUntil := 0 }
  | none => s

def Sched.threadBlock (s : Sched) (cpu pid : Nat) : Sched :=
  match s.threadGet pid with
  | some t =>
    if (s.thread t).state = .blocked then s.upd t fun th => { th with sleepUntil := 0 }
    else if (s.thread t).state ≠ .terminated then
      (s.accountBlock cpu t).upd t fun th => { th with state := .blocked, sleepUntil := 0 }
    else s
  | none => s

def Sched.threadBlockCurrentAtomic (s : Sched) (cpu : Nat) : Sched :=
  match s.currentCpu cpu with
  | some t =>
    if (s.thread t).state = .running then
      (s.accountBlock cpu t).upd t fun th => { th with state := .blocked, sleepUntil := 0 }
    else s
  | none => s

def Sched.threadBlockWithTimeout (s : Sched) (cpu now pid timeout : Nat) : Sched :=
  match s.threadGet pid with
  | some t =>
    if (s.thread t).state ≠ .blocked ∧ (s.thread t).state ≠ .terminated then
      (s.accountBlock cpu t).upd t fun th =>
        { th with
          state := .blocked
          sleepUntil := if timeout = 0 then 0 else deadlineMs now timeout }
    else s
  | none => s

/-- The section of `thread_sleep`; the caller yields after it. -/
def Sched.threadSleep (s : Sched) (cpu now ms : Nat) : Sched :=
  if ms = 0 then s
  else
    match s.currentCpu cpu with
    | some c =>
      (s.accountBlock cpu c).upd c fun th =>
        { th with sleepUntil := deadlineMs now ms, state := .sleeping }
    | none => s

def Sched.threadUnblock (s : Sched) (pid : Nat) : Sched :=
  match s.threadGet pid with
  | some t =>
    if (s.thread t).state = .blocked ∨ (s.thread t).state = .sleeping then
      (s.upd t fun th => { th with sleepUntil := 0 }).noteReady t
    else s
  | none => s

def Sched.threadUnblockForkChild (s : Sched) (cpu pid : Nat) : Sched :=
  match s.threadGet pid with
  | some t =>
    let s := s.upd t fun th => { th with boundCpu := if th.ring = 3 then 0 else cpu }
    if (s.thread t).state = .blocked ∨ (s.thread t).state = .sleeping then
      let vruntime :=
        match s.currentCpu cpu with
        | some cur => (s.thread cur).schedVruntime - 1
        | none => 0
      ((s.upd t fun th => { th with sleepUntil := 0, schedVruntime := vruntime }).noteReady t).upd t
        fun th => { th with schedFifoSeq := 0 }
    else s
  | none => s

/-- A timed wait or sleep is over. -/
def Thread.expired (th : Thread) (now : Nat) : Bool :=
  th.sleepUntil != 0 && (th.state == .sleeping || th.state == .blocked)
    && timeAfterEq32 now th.sleepUntil

/-- One slot of the scan for expired timeouts. -/
def Sched.wakeExpired (s : Sched) (now : Nat) (t : Nat) : Sched :=
  if (s.thread t).expired now then (s.upd t fun th => { th with sleepUntil := 0 }).noteReady t
  else s

def Sched.wakeSlot (now : Nat) (s : Sched) (i : Nat) : Sched :=
  match s.threads i with
  | some t => s.wakeExpired now t
  | none => s

def Sched.threadWakeExpiredTimeouts (s : Sched) (now : Nat) : Sched :=
  { (List.range s.threadCount).foldl (Sched.wakeSlot now) s with timeoutsScanned := true }

/-! ## `thread_schedule` -/

/-- `thread_zombie_autoreap_ok`, on the CPU of the caller. -/
def Sched.autoreapOk (s : Sched) (cpu t : Nat) : Bool :=
  (s.thread t).state == .terminated && s.currentCpu cpu != some t && t != mainThread
    && !s.isAnyIdle t && (s.thread t).unwaited

/-- The high-water mark goes down over empty slots. -/
def shrink (threads : Nat → Option Nat) : Nat → Nat
  | 0 => 0
  | n + 1 => if 0 < n ∧ threads n = none then shrink threads n else n + 1

def Sched.dropSlot (s : Sched) (i : Nat) : Sched :=
  let threads := fun j => if j = i then none else s.threads j
  { s with threads := threads, threadCount := shrink threads s.threadCount }

/-- The first scan over `n` slots from `i` on: `true` when it stopped to free a thread. -/
def Sched.scan (cpu now : Nat) (doTimeout : Bool) : Nat → Nat → Sched → Sched × Bool
  | 0, _, s => (s, false)
  | n + 1, i, s =>
    match s.threads i with
    | none => Sched.scan cpu now doTimeout n (i + 1) s
    | some t =>
      if s.autoreapOk cpu t then (s.dropSlot i, true)
      else Sched.scan cpu now doTimeout n (i + 1) (if doTimeout then s.wakeExpired now t else s)

/-- Another thread is ready to run. -/
def Sched.peerReady (s : Sched) (cur : Nat) : Bool :=
  (List.range s.threadCount).any fun i =>
    match s.threads i with
    | some t =>
      t != cur && !s.isAnyIdle t && (s.thread t).state == .ready && !(s.thread t).vforkWaiting
    | none => false

/-- The expiry of a time slice. -/
def Sched.expireSlice (s : Sched) (cpu cur : Nat) : Sched :=
  let s' := { s with needResched := fun c => if c = cpu then false else s.needResched c }
  if s.needResched cpu ∧ (s.thread cur).state = .running ∧ s.isAnyIdle cur = false
      ∧ s.peerReady cur then
    (s'.upd cur Thread.charge).noteReady cur
  else s'

/-- One slot of the search for the thread to run; `pick` is the best one so far. A thread whose
context is not valid is terminated on the way. -/
def Sched.pickSlot (cpu : Nat) (pass : Nat) (acc : Sched × Option Nat) (i : Nat) :
    Sched × Option Nat :=
  let s := acc.1
  match s.threads i with
  | none => acc
  | some t =>
    let th := s.thread t
    if th.state ≠ .ready ∨ th.vforkWaiting ∨ (th.ring = 3 ∧ cpu ≠ 0)
        ∨ (0 ≤ th.boundCpu ∧ th.boundCpu ≠ cpu) ∨ (pass = 0 ∧ s.isAnyIdle t)
        ∨ (pass = 1 ∧ s.isAnyIdle t ∧ s.idleThreadByCpu cpu ≠ some t) then acc
    else if !th.contextValid then (s.setState t .terminated, acc.2)
    else
      match acc.2 with
      | none => (s, some t)
      | some b =>
        if th.schedVruntime < (s.thread b).schedVruntime
              ∨ (th.schedVruntime = (s.thread b).schedVruntime
              ∧ th.schedFifoSeq < (s.thread b).schedFifoSeq) then (s, some t)
        else acc

def Sched.pickPass (cpu pass : Nat) (s : Sched) : Sched × Option Nat :=
  (List.range s.threadCount).foldl (Sched.pickSlot cpu pass) (s, none)

/-- Both passes: idle threads only if nothing else is ready. -/
def Sched.pick (s : Sched) (cpu : Nat) : Sched × Option Nat :=
  match Sched.pickPass cpu 0 s with
  | (s, some t) => (s, some t)
  | (s, none) => Sched.pickPass cpu 1 s

/-- `thread_schedule_prev_saved`. -/
def Sched.prevSaved (s : Sched) (t : Nat) : Sched :=
  if (s.thread t).state = .running then
    let s := s.upd t Thread.charge
    if (s.thread t).vforkWaiting then s.setState t .blocked else s.noteReady t
  else s

/-- The thread gets the CPU. -/
def Sched.install (s : Sched) (cpu t : Nat) : Sched := (s.setCurrent cpu t).setState t .running

/-- The thread whose context is saved at a switch. -/
def Sched.outgoing (s : Sched) (cur : Nat) : Nat :=
  if (s.thread cur).contextValid then cur else mainThread

/-- What a section of `thread_schedule` ends with: it has freed a thread and will go on, the CPU has
no thread to fall back to, the current thread keeps the CPU, a ready thread was picked, or, with no
ready thread, the idle thread or the main thread takes the CPU. -/
inductive Outcome where
  | reaped
  | halted
  | stays
  | picked (t : Nat)
  | fellBack (t : Nat)
  deriving DecidableEq, Repr

/-- A ready thread other than the current one takes the CPU. -/
def Sched.switchTo (s : Sched) (cpu cur t : Nat) : Sched :=
  let prev := s.outgoing cur
  let s := (s.setCurrent cpu t).upd t fun th =>
    { th with
      boundCpu := if th.boundCpu = cpu ∧ s.isAnyIdle t = false then -1 else th.boundCpu
      state := .running }
  s.prevSaved prev

/-- The rest of a section, after the scan. -/
def Sched.dispatch (s : Sched) (cpu : Nat) : Sched × Outcome :=
  match s.currentCpu cpu with
  | none =>
    match (if cpu = 0 then some mainThread else s.idleThreadByCpu cpu) with
    | none => (s, .halted)
    | some d => (s.install cpu d, .fellBack d)
  | some cur =>
    let (s, pick) := (s.expireSlice cpu cur).pick cpu
    match pick with
    | some t =>
      if t = cur then
        (if (s.thread cur).state = .ready then s.setState cur .running else s, .picked t)
      else if (s.thread t).contextValid then (s.switchTo cpu cur t, .picked t)
      else ((s.setState t .terminated).install cpu mainThread, .fellBack mainThread)
    | none =>
      if (s.thread cur).state = .running then (s, .stays)
      else
        match s.idleThreadByCpu cpu with
        | some d =>
          if d ≠ cur ∧ (s.thread d).contextValid then
            ((s.install cpu d).prevSaved (s.outgoing cur), .fellBack d)
          else (s.install cpu mainThread, .fellBack mainThread)
        | none => (s.install cpu mainThread, .fellBack mainThread)

/-- A section of `thread_schedule` from the scan on. -/
def Sched.scheduleSection (s : Sched) (cpu now : Nat) (doTimeout : Bool) : Sched × Outcome :=
  match Sched.scan cpu now doTimeout (s.threadCount - 1) 1 s with
  | (s, true) => (s, .reaped)
  | (s, false) => s.dispatch cpu

/-! ## Steps -/

/-- What may happen: the functions of `thread.c`, and the writes of other code to `vfork_waiting`,
to `need_resched` and to the saved contexts, and exits. -/
inductive Op where
  | stop (pid : Nat)
  | block (cpu pid : Nat)
  | blockCurrentAtomic (cpu : Nat)
  | blockWithTimeout (cpu now pid timeout : Nat)
  | sleep (cpu now ms : Nat)
  | unblock (pid : Nat)
  | unblockForkChild (cpu pid : Nat)
  | noteReady (t : Nat)
  | wakeExpiredTimeouts (now : Nat)
  | schedule (cpu now : Nat)
  | scheduleAgain (cpu now : Nat) (doTimeout : Bool)
  | setVfork (t : Nat) (waiting : Bool)
  | requestResched (cpu : Nat)
  | saveContext (t : Nat) (valid unwaited : Bool)
  | exit (t : Nat)

def Sched.step (s : Sched) : Op → Sched
  | .stop pid => s.threadStop pid
  | .block cpu pid => s.threadBlock cpu pid
  | .blockCurrentAtomic cpu => s.threadBlockCurrentAtomic cpu
  | .blockWithTimeout cpu now pid timeout => s.threadBlockWithTimeout cpu now pid timeout
  | .sleep cpu now ms => s.threadSleep cpu now ms
  | .unblock pid => s.threadUnblock pid
  | .unblockForkChild cpu pid => s.threadUnblockForkChild cpu pid
  | .noteReady t => s.noteReady t
  | .wakeExpiredTimeouts now => s.threadWakeExpiredTimeouts now
  | .schedule cpu now =>
    (Sched.scheduleSection { s with timeoutsScanned := false } cpu now (!s.timeoutsScanned)).1
  | .scheduleAgain cpu now doTimeout => (s.scheduleSection cpu now doTimeout).1
  | .setVfork t waiting => s.upd t fun th => { th with vforkWaiting := waiting }
  | .requestResched cpu =>
    { s with needResched := fun c => if c = cpu then true else s.needResched c }
  | .saveContext t valid unwaited =>
    s.upd t fun th => { th with contextValid := valid, unwaited := unwaited }
  | .exit t => s.setState t .terminated

/-- How a section of `thread_schedule` ends, if the step is one. -/
def Sched.outcome (s : Sched) : Op → Option Outcome
  | .schedule cpu now =>
    some (Sched.scheduleSection { s with timeoutsScanned := false } cpu now (!s.timeoutsScanned)).2
  | .scheduleAgain cpu now doTimeout => some (s.scheduleSection cpu now doTimeout).2
  | _ => none

/-- The thread that the step selects to run. -/
def Sched.selects (s : Sched) (op : Op) : Option Nat :=
  match s.outcome op with
  | some (.picked t) => some t
  | some (.fellBack t) => some t
  | _ => none

end AxonOS.Cpu

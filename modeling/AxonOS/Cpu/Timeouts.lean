import AxonOS.Cpu.Terminated

/-! # Sleep deadlines

A deadline is a time in 32 bits that is compared by the sign of a difference, so that it may lie
behind the point where the clock wraps. The value 0 stands for "no deadline". A sleep whose deadline
falls on it is never over; all others end at the first scan that comes to the thread in time.
-/

namespace AxonOS.Cpu

open List Sched

/-- The scans for expired timeouts: that of a timer tick, and that of `thread_schedule`. -/
inductive Scan where
  | tick
  | schedule (cpu : Nat)

def Scan.run (now : Nat) (s : Sched) : Scan → Sched
  | .tick => s.threadWakeExpiredTimeouts now
  | .schedule cpu => (Sched.scan cpu now true (s.threadCount - 1) 1 s).1

/-- The scan has not been stopped to free a thread. -/
def Scan.Complete (now : Nat) (s : Sched) : Scan → Prop
  | .tick => True
  | .schedule cpu => (Sched.scan cpu now true (s.threadCount - 1) 1 s).2 = false

def Scan.slots (s : Sched) : Scan → List Nat
  | .tick => range s.threadCount
  | .schedule _ => range' 1 (s.threadCount - 1)

variable {s s' : Sched} {t now : Nat}

/-! ## One scan -/

theorem Scan.run_thread {k : Scan} (h : k.Complete now s) :
    (k.run now s).thread t = ((k.slots s).foldl (wakeSlot now) s).thread t := by
  cases k with
  | tick => rfl
  | schedule cpu => exact congrArg (fun s => s.thread t) (scan_eq_foldl h)

/-! ## Sleeping -/

/-- `thread_sleep` of the thread, or `thread_block_with_timeout` on it, with the clock at
`start`. -/
def PutsToSleep (s : Sched) (t start ms : Nat) (op : Op) : Prop :=
  (∃ cpu, op = .sleep cpu start ms ∧ s.currentCpu cpu = some t)
    ∨ ∃ cpu pid, op = .blockWithTimeout cpu start pid ms ∧ s.threadGet pid = some t
      ∧ (s.thread t).state ≠ .blocked ∧ (s.thread t).state ≠ .terminated

/-- What may happen during the sleep: early scans, and all that leaves the thread alone. -/
inductive Sleeps (t start ms : Nat) (s : Sched) : Sched → Prop
  | refl : Sleeps t start ms s s
  | other {s' s'' : Sched} : Sleeps t start ms s s' → s''.thread t = s'.thread t →
      Sleeps t start ms s s''
  | scan {s' : Sched} {d : Nat} (k : Scan) : Sleeps t start ms s s' → d < ms →
    k.Complete (start + d) s' → Sleeps t start ms s (k.run (start + d) s')

variable {start ms d : Nat}

def Asleep (s : Sched) (t deadline : Nat) : Prop :=
  ((s.thread t).state = .sleeping ∨ (s.thread t).state = .blocked)
    ∧ (s.thread t).sleepUntil = deadline

theorem PutsToSleep.asleep {op : Op} (h : PutsToSleep s t start ms op)
    (hms : 1 ≤ ms ∧ ms ≤ 0x7FFFFFFF) :
    Asleep (s.step op) t ((start + ms) % 2 ^ 32) := by
  have hdeadline : deadlineMs start ms = (start + ms) % 2 ^ 32 := by
    simp only [deadlineMs, if_neg (show ¬ ms = 0 by omega),
      if_neg (show ¬ 0x7FFFFFFF < ms by omega)]
  have hne : ms ≠ 0 := by omega
  rcases h with ⟨cpu, rfl, ht⟩ | ⟨cpu, pid, rfl, ht, hstate⟩
  · simp [Asleep, Sched.step, threadSleep, hne, ht, hdeadline]
  · simp [Asleep, Sched.step, threadBlockWithTimeout, ht, hstate, hne, hdeadline]

/-- Before and after the wrap of the clock, and of the deadline. -/
theorem Asleep.expired_iff (h : Asleep s t ((start + ms) % 2 ^ 32)) (hms : ms ≤ 0x7FFFFFFF)
    (hd : d < 2 ^ 31) :
    (s.thread t).expired (start + d) = true ↔ (start + ms) % 2 ^ 32 ≠ 0 ∧ ms ≤ d := by
  have htime : timeAfterEq32 (start + d) ((start + ms) % 2 ^ 32) = true ↔ ms ≤ d := by
    unfold timeAfterEq32
    rw [decide_eq_true_iff]
    omega
  simp only [Thread.expired, Bool.and_eq_true, Bool.or_eq_true, beq_iff_eq, bne_iff_ne, h.2, htime]
  exact ⟨fun hall => ⟨hall.1.1, hall.2⟩, fun hall => ⟨⟨hall.1, h.1⟩, hall.2⟩⟩

theorem Sleeps.asleep (h : Sleeps t start ms s s') (hs : Asleep s t ((start + ms) % 2 ^ 32))
    (hms : ms ≤ 0x7FFFFFFF) : Asleep s' t ((start + ms) % 2 ^ 32) := by
  induction h with
  | refl => exact hs
  | other _ hsame ih =>
    unfold Asleep
    rw [hsame]
    exact ih
  | scan k _ hd hk ih =>
    have hearly := (ih.expired_iff hms (hd.trans_le (hms.trans (by decide)))).not.mpr fun hall => by
      omega
    unfold Asleep
    rw [k.run_thread hk, foldl_other (.inl (Bool.eq_false_of_not_eq_true hearly))]
    exact ih

/-- **A sleep of `ms` milliseconds ends at the first scan after this time that comes to the
thread**, unless the thread waits for a `vfork` or the deadline is the value that stands for none;
and it does not end before. -/
theorem sleep_ends_iff (op : Op) (k : Scan) (hms : 1 ≤ ms ∧ ms ≤ 0x7FFFFFFF)
    (hop : PutsToSleep s t start ms op) (hsleeps : Sleeps t start ms (s.step op) s')
    (hd : ms ≤ d ∧ d < 2 ^ 31) (hk : k.Complete (start + d) s') :
    (s'.thread t).state ≠ .ready
        ∧ (((k.run (start + d) s').thread t).state = .ready ↔ (start + ms) % 2 ^ 32 ≠ 0
        ∧ (s'.thread t).vforkWaiting = false ∧ ∃ i ∈ k.slots s', s'.threads i = some t) := by
  have hasleep := hsleeps.asleep (hop.asleep hms) hms.2
  have hnot : (s'.thread t).state ≠ .ready := by
    rcases hasleep.1 with h | h <;> rw [h] <;> decide
  have hexpired := hasleep.expired_iff hms.2 hd.2
  refine ⟨hnot, ?_⟩
  rw [k.run_thread hk]
  by_cases hwoken : (s'.thread t).expired (start + d) = true ∧ ∃ i ∈ k.slots s',
    s'.threads i = some t
  · rw [foldl_woken hwoken.1 hwoken.2]
    cases hv : (s'.thread t).vforkWaiting with
    | false => exact iff_of_true rfl ⟨(hexpired.mp hwoken.1).1, rfl, hwoken.2⟩
    | true => exact iff_of_false hnot fun hall => absurd hall.2.1 (by decide)
  · rw [foldl_other (by grind)]
    exact iff_of_false hnot fun hall => hwoken ⟨hexpired.mpr ⟨hall.1, hd.1⟩, hall.2.2⟩

/-- Two milliseconds before the clock wraps, for three milliseconds. -/
theorem sleep_ends_behind_wrap :
    ((Scan.run (2 ^ 32 - 2 + 3) (twoRunning.step (.sleep 0 (2 ^ 32 - 2) 3)) .tick).thread 1).state
    = .ready :=
  (sleep_ends_iff (.sleep 0 (2 ^ 32 - 2) 3) .tick (by decide) (.inl ⟨0, rfl, rfl⟩) .refl (by decide)
    trivial).2.mpr ⟨by decide, rfl, 1, by decide, rfl⟩

/-- Two milliseconds before the clock wraps, for two milliseconds: a day later the thread is
asleep. -/
theorem sleep_never_ends : ((twoRunning.exec
    [.sleep 0 (2 ^ 32 - 2) 2, .wakeExpiredTimeouts (2 ^ 32),
      .schedule 1 (2 ^ 32 + 86400000)]).thread 1).state
      = .sleeping := by
  decide

end AxonOS.Cpu

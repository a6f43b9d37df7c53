import AxonOS.Lib.Sleep

/-! # Blocked readers of an eventfd and of a pty ring

Both register the reader and release the lock before `thread_block`: a write between the two takes
the registration and finds a thread that is not blocked yet. An eventfd has one place for a reader,
a pty ring has eight.
-/

namespace AxonOS.Ipc

open Lib

structure Eventfd where
  count : Nat
  nonblock : Bool
  semaphore : Bool
  readerWaiterTid : Option Nat
  writerWaiterTid : Option Nat

inductive EventfdCall where
  | read (cnt : Nat)
  | write (cnt : Nat) (add : Nat)

def EventfdCall.isRead : EventfdCall → Bool
  | .read _ => true
  | .write .. => false

/-- A round of `eventfd_read_bytes` or `eventfd_write_bytes`, up to the release of the lock. -/
def eventfdSection (e : Eventfd) (tid : Nat) (_ : Bool) :
    EventfdCall → Eventfd × Pc EventfdCall × List Nat
  | .read cnt =>
    if cnt < 8 then (e, .idle (-22), [])
    else if e.count = 0 then
      if e.nonblock then (e, .idle (-11), [])
      else ({ e with readerWaiterTid := some tid }, .blocking (.read cnt), [])
    else
      ({ e with count := if e.semaphore then e.count - 1 else 0, writerWaiterTid := none },
        .waking (.read cnt) 8 e.writerWaiterTid.toList, [])
  | .write cnt add =>
    if cnt < 8 ∨ add = 2 ^ 64 - 1 then (e, .idle (-22), [])
    else if e.count > 2 ^ 64 - 1 - add then
      if e.nonblock then (e, .idle (-11), [])
      else ({ e with writerWaiterTid := some tid }, .blocking (.write cnt add), [])
    else
      ({ e with count := e.count + add, readerWaiterTid := none },
        .waking (.write cnt add) 8 e.readerWaiterTid.toList, [])

variable {β : Type}

/-- The ring a side of the pair reads, and how often the other side is open. -/
structure PtyRing (β : Type) where
  buf : List β
  waiters : List Nat
  peerOpens : Nat

inductive PtyCall (β : Type) where
  /-- The head of the loop of `pty_read`. -/
  | read (n : Nat) (nonblock : Bool)
  /-- Its section, behind the test without data. -/
  | wait (n : Nat) (nonblock : Bool)
  | ringRead (n : Nat)
  /-- Behind `thread_yield`. -/
  | slept (p : PtyCall β)
  | ringWrite (src : List β)

def PtyCall.isRead : PtyCall β → Bool
  | .ringWrite _ => false
  | _ => true

def PtyRing.addWaiter (r : PtyRing β) (tid : Nat) : PtyRing β :=
  if r.waiters.length < 8 then { r with waiters := r.waiters ++ [tid] } else r

def ptySection (r : PtyRing β) (tid : Nat) (intr : Bool) :
    PtyCall β → PtyRing β × Pc (PtyCall β) × List Nat
  | .read n nonblock =>
    if n = 0 then (r, .idle (-1), [])
    else if r.buf.length > 0 then (r, .running (.ringRead n), [])
    else if r.peerOpens = 0 then (r, .idle 0, [])
    else if nonblock then (r, .idle (-11), [])
    else (r, .running (.wait n nonblock), [])
  | .wait n nonblock =>
    if r.buf.length > 0 then (r, .running (.read n nonblock), [])
    else (r.addWaiter tid, .blocking (.slept (.read n nonblock)), [])
  | .ringRead n =>
    let done := min n r.buf.length
    if done > 0 then ({ r with buf := r.buf.drop done }, .idle done, [])
    else (r.addWaiter tid, .blocking (.slept (.ringRead n)), [])
  | .slept p => (r, if intr then .idle (-4) else .running p, [])
  | .ringWrite src =>
    let done := min src.length (4095 - r.buf.length)
    -- `pty_ring_wake` unblocks inside the section
    if done > 0 then ({ r with buf := r.buf ++ src.take done, waiters := [] },
      .idle done, r.waiters)
    else (r, .idle done, [])

/-! ## Readers are not forgotten -/

def eventfd : Calls Eventfd EventfdCall :=
  ⟨eventfdSection, EventfdCall.isRead, (·.readerWaiterTid.toList)⟩

def pty (β : Type) : Calls (PtyRing β) (PtyCall β) := ⟨ptySection, PtyCall.isRead, (·.waiters)⟩

/-- A reader that finds no data does not take the place of a reader that sleeps or is about to. -/
def Spares (s : Threads Eventfd EventfdCall) (op : CallOp EventfdCall) : Prop :=
  ∀ t intr cnt x cnt', op = .run t intr → s.pc t = .running (.read cnt) → s.obj.count = 0 →
    s.pc x = .blocked (.read cnt') ∨ s.pc x = .blocking (.read cnt') →
    s.obj.readerWaiterTid ≠ some x

/-- A section that registers finds nothing to read. -/
def PtyRing.Starves (r : PtyRing β) : PtyCall β → Prop
  | .wait .. => r.buf.length = 0
  | .ringRead n => min n r.buf.length = 0
  | _ => False

/-- A reader that finds nothing to read finds one of the eight places free. -/
def Roomy (s : Threads (PtyRing β) (PtyCall β)) (op : CallOp (PtyCall β)) : Prop :=
  ∀ t intr p, op = .run t intr → s.pc t = .running p → s.obj.Starves p → s.obj.waiters.length < 8

section Eventfd

variable {s : Threads Eventfd EventfdCall} {op : CallOp EventfdCall}

theorem eventfd_spared {t x cnt : Nat} {intr : Bool} {q : EventfdCall} (hs : Spares s op)
    (hop : op = .run t intr) (ht : s.pc t = .running (.read cnt))
    (hx : s.pc x = .blocked q ∨ s.pc x = .blocking q) (hq : q.isRead = true)
    (hreg : x ∈ s.obj.readerWaiterTid.toList) :
    x ∈ (eventfdSection s.obj t intr (.read cnt)).1.readerWaiterTid.toList := by
  have hfree : s.obj.count ≠ 0 := by
    intro hcount
    cases q with
    | read cnt' => exact hs t intr cnt x cnt' hop ht hcount hx (Option.mem_toList.mp hreg)
    | write => cases hq
  simp only [eventfdSection]
  split_ifs <;> exact hreg

theorem eventfd_poised (h : eventfd.Poised s) (hp : eventfd.Parted s op) (hs : Spares s op) :
    eventfd.Poised (eventfd.step s op) := by
  refine h.step ?_ ?_
  · rintro t intr p q - - hq hreads
    cases p <;> simp only [eventfd] at hq hreads ⊢ <;> grind [eventfdSection, EventfdCall.isRead]
  · rintro t intr p x q hop ht hx hq hreg
    cases p with
    | read cnt => exact eventfd_spared hs hop ht (.inr hx) hq hreg
    | write cnt add =>
      have hnot := hp t intr _ x q hop ht rfl hx
      rw [hq] at hnot
      cases hnot

theorem eventfd_kept (h : eventfd.Kept s) (hp : eventfd.Poised s) (hs : Spares s op) :
    eventfd.Kept (eventfd.step s op) := by
  refine h.step hp ?_ ?_
  · rintro t intr p x q hop ht hx hq hreg -
    cases p with
    | read cnt => exact .inl (eventfd_spared hs hop ht (.inl hx) hq hreg)
    | write cnt add =>
      simp only [Calls.Awaited, Threads.next, eventfd, eventfdSection]
      split_ifs
      · exact .inl hreg
      · exact .inl hreg
      · exact .inl hreg
      · exact .inr ⟨t, .write cnt add, 8, _, Function.update_self .., rfl, hreg⟩
  · intro e t intr p q
    cases p <;> simp only [eventfd] <;> grind [eventfdSection]

end Eventfd

section Pty

variable {s : Threads (PtyRing β) (PtyCall β)} {op : CallOp (PtyCall β)}

theorem mem_addWaiter {r : PtyRing β} {x t : Nat} (h : x ∈ r.waiters) :
    x ∈ (r.addWaiter t).waiters := by
  unfold PtyRing.addWaiter
  split_ifs
  · exact List.mem_append_left [t] h
  · exact h

theorem self_mem_addWaiter {r : PtyRing β} {t : Nat} (h : r.waiters.length < 8) :
    t ∈ (r.addWaiter t).waiters := by
  simp [PtyRing.addWaiter, h]

theorem pty_poised (h : (pty β).Poised s) (hp : (pty β).Parted s op) (hr : Roomy s op) :
    (pty β).Poised ((pty β).step s op) := by
  refine h.step ?_ ?_
  · rintro t intr p q hop ht hq -
    have hroom := hr t intr p hop ht
    have hself := @self_mem_addWaiter _ s.obj t
    simp only [pty] at *
    cases p <;> grind [ptySection, PtyRing.Starves]
  · rintro t intr p x q hop ht hx hq hreg
    have hnot := hp t intr p x q hop ht
    have hadd := mem_addWaiter (t := t) hreg
    simp only [pty] at *
    cases p <;> grind [ptySection, PtyCall.isRead]

theorem pty_kept (h : (pty β).Kept s) (hp : (pty β).Poised s) :
    (pty β).Kept ((pty β).step s op) := by
  refine h.step hp ?_ ?_
  · rintro t intr p x q - - - - hreg hnot
    left
    have hadd := mem_addWaiter (t := t) hreg
    simp only [pty, Threads.next] at *
    cases p <;> grind [ptySection]
  · intro e t intr p q
    cases p <;> simp only [pty] <;> grind [ptySection]

end Pty

/-- **Readers do not sleep through data** in the runs in which no writer runs its section between
the registration of a reader and its `thread_block`, and every reader finds a place: a blocked
reader is registered, or a writer is between its update and its wakeup. -/
theorem readers_kept {e : Eventfd} {ops : List (CallOp EventfdCall)} {r : PtyRing β}
    {ops' : List (CallOp (PtyCall β))}
    (h : RunMeets eventfd.step (fun s op => eventfd.Parted s op ∧ Spares s op)
    (eventfd.run e []) ops)
    (h' : RunMeets (pty β).step (fun s op => (pty β).Parted s op ∧ Roomy s op)
    ((pty β).run r []) ops') :
    eventfd.Kept (eventfd.run e ops) ∧ (pty β).Kept ((pty β).run r ops') := by
  constructor
  · exact (run_invariant (I := fun s => eventfd.Poised s ∧ eventfd.Kept s)
      (fun _ _ hk hm => ⟨eventfd_poised hk.1 hm.1 hm.2, eventfd_kept hk.2 hk.1 hm.2⟩)
      eventfd.rested h).2
  · exact (run_invariant (I := fun s => (pty β).Poised s ∧ (pty β).Kept s)
      (fun _ _ hk hm => ⟨pty_poised hk.1 hm.1 hm.2, pty_kept hk.2 hk.1⟩) (pty β).rested h').2

/-- A reader of each blocks. -/
theorem reader_kept_blocked :
    eventfd.Kept
    (eventfd.run ⟨0, false, false, none, none⟩ [.call 1 (.read 8), .run 1 false, .run 1 false]) ∧
    (pty Nat).Kept ((pty Nat).run ⟨[], [], 1⟩
      [.call 1 (.read 1 false), .run 1 false, .run 1 false, .run 1 false]) := by
  refine readers_kept ?_ ?_
  · simp only [runMeets_cons]
    refine ⟨⟨nofun, nofun⟩, ⟨?_, ?_⟩, ⟨?_, ?_⟩, runMeets_nil _⟩
    · rintro t intr p x q ⟨⟩ ⟨⟩ ⟨⟩
    · rintro t intr cnt x cnt' ⟨⟩ - - - ⟨⟩
    · rintro t intr p x q ⟨⟩ ⟨⟩
    · rintro t intr cnt x cnt' ⟨⟩ ⟨⟩
  · simp only [runMeets_cons]
    refine ⟨⟨nofun, nofun⟩, ⟨?_, ?_⟩, ⟨?_, ?_⟩, ⟨?_, ?_⟩, runMeets_nil _⟩
    · rintro t intr p x q ⟨⟩ ⟨⟩ ⟨⟩
    · exact fun _ _ _ _ _ _ => by decide
    · rintro t intr p x q ⟨⟩ ⟨⟩ ⟨⟩
    · exact fun _ _ _ _ _ _ => by decide
    · rintro t intr p x q ⟨⟩ ⟨⟩
    · exact fun _ _ _ _ _ _ => by decide

theorem reader_sleeps :
    (∃ s, s = eventfd.run ⟨0, false, false, none, none⟩ [.call 1 (.read 8), .run 1 false,
      .call 2 (.write 8 1), .run 2 false, .run 2 false, .run 1 false] ∧
      s.pc 1 = .blocked (.read 8) ∧ s.obj = ⟨1, false, false, none, none⟩ ∧ ¬ eventfd.Awaited s 1) ∧
    ∃ s, s = (pty Nat).run ⟨[], [], 1⟩ [.call 1 (.read 1 false), .run 1 false, .run 1 false,
      .call 2 (.ringWrite [0]), .run 2 false, .run 1 false] ∧
      s.pc 1 = .blocked (.slept (.read 1 false)) ∧ s.obj = ⟨[0], [], 1⟩ := by
  refine ⟨⟨_, rfl, rfl, rfl, ?_⟩, _, rfl, rfl, rfl⟩
  rintro (hreg | ⟨u, p, rc, l, hu, -⟩)
  · cases hreg
  by_cases h1 : u = 1
  · subst h1
    cases hu
  · by_cases h2 : u = 2
    · subst h2
      cases hu
    · simp [eventfd, Calls.run, Calls.step, Threads.next, eventfdSection, unblockAll, h1, h2] at hu

end AxonOS.Ipc

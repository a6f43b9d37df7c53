import AxonOS.Arch.Word
import AxonOS.Arch.Addr

/-! # The futex table

`futex_syscall` and `futex_cancel_thread`, with one function for each section that runs under
`futex_lock`. Waiters and nodes are heap objects with an address; the list of a node's waiters and
the chain of a hash bucket are lists of addresses.

A waiter carries two fields that the code does not have: the thread that made the call and the
number of the call. They are written once and only read by the account of the wakeups.
-/

namespace AxonOS.Futex

open Arch

abbrev WaiterId := Nat
abbrev NodeId := Nat
abbrev ThreadId := Nat

/-! ## The state -/

/-- `futex_waiter_t`; `thread` and `serial` are the call the waiter belongs to. -/
structure Waiter where
  tid : Nat
  bitset : Nat
  woken : Bool
  node : Option NodeId
  thread : ThreadId
  serial : Nat
  deriving DecidableEq, Repr

/-- `futex_node_t`. The owner is the address of an `mm_t`, or `0` for a futex in shared memory. -/
structure Node where
  key : Nat
  owner : Nat
  waiters : List WaiterId
  deriving DecidableEq, Repr

/-- The local variables of a `FUTEX_WAIT` that has gone to sleep. -/
structure WaitFrame where
  waiter : WaiterId
  deadline : Option Nat
  deriving DecidableEq, Repr

/-- The fields of `thread_t` that matter here, and the frame of the wait the thread is in. -/
structure Thread where
  tid : Nat
  terminated : Bool
  mm : Nat
  active : Option WaiterId
  frame : Option WaitFrame
  deriving DecidableEq, Repr

/-- The hash table, the heap objects, the thread objects and the thread table (`threads[]`). -/
structure FutexState where
  buckets : Nat → List NodeId
  nodes : NodeId → Option Node
  waiters : WaiterId → Option Waiter
  threads : ThreadId → Option Thread
  slots : Nat → Option ThreadId

def FutexState.setNode (s : FutexState) (n : NodeId) (nd : Option Node) : FutexState :=
  { s with nodes := fun k => if k = n then nd else s.nodes k }

def FutexState.setWaiter (s : FutexState) (w : WaiterId) (wt : Option Waiter) : FutexState :=
  { s with waiters := fun k => if k = w then wt else s.waiters k }

def FutexState.setThread (s : FutexState) (p : ThreadId) (t : Option Thread) : FutexState :=
  { s with threads := fun k => if k = p then t else s.threads k }

def FutexState.setBucket (s : FutexState) (b : Nat) (l : List NodeId) : FutexState :=
  { s with buckets := fun k => if k = b then l else s.buckets k }

def threadGet (s : FutexState) (tid : Nat) : Option Thread :=
  match (s.slots tid).bind s.threads with
  | none => none
  | some t => if t.tid = tid then some t else none

/-! ## Nodes -/

def futexHash (key owner : Nat) : Nat := (key / 8 ^^^ owner / 16) % 256

/-- `futex_find_node(key, owner, 0)`. -/
def futexFindNode (s : FutexState) (key owner : Nat) : Option NodeId :=
  (s.buckets (futexHash key owner)).find? fun n =>
    match s.nodes n with
    | none => false
    | some nd => nd.key == key && nd.owner == owner

/-- `futex_find_node(key, owner, 1)`; `fresh` is what `kmalloc` returns. -/
def futexFindOrCreate (fresh : Option NodeId) (s : FutexState) (key owner : Nat) :
    Option NodeId × FutexState :=
  match futexFindNode s key owner with
  | some n => (some n, s)
  | none =>
    match fresh with
    | none => (none, s)
    | some n =>
      let h := futexHash key owner
      (some n, (s.setNode n (some ⟨key, owner, []⟩)).setBucket h (n :: s.buckets h))

def futexDropEmpty (s : FutexState) (node : Option NodeId) : FutexState :=
  match node with
  | none => s
  | some n =>
    match s.nodes n with
    | none => s
    | some nd =>
      if nd.waiters ≠ [] then s
      else
        let h := futexHash nd.key nd.owner
        if n ∈ s.buckets h then (s.setBucket h ((s.buckets h).erase n)).setNode n none else s

def futexUnlinkWaiter (s : FutexState) (w : WaiterId) : FutexState :=
  match s.waiters w with
  | none => s
  | some wt =>
    match wt.node with
    | none => s
    | some n =>
      let s1 :=
        match s.nodes n with
        | none => s
        | some nd => s.setNode n (some { nd with waiters := nd.waiters.erase w })
      s1.setWaiter w (some { wt with node := none })

/-- The waiter in front of the node's list, for a waiter that is on no list. -/
def pushWaiter (s : FutexState) (n : NodeId) (w : WaiterId) (wt : Waiter) : FutexState :=
  match s.nodes n with
  | none => s
  | some nd =>
    (s.setNode n (some { nd with waiters := w :: nd.waiters })).setWaiter w
      (some { wt with node := some n })

/-! ## Waking -/

/-- A waiter that a call has marked as woken: the call it belongs to, the futex it was queued on,
its bitset, whether the waking call counted it, and whether its thread was still alive. -/
structure Mark where
  wait : Nat
  futex : Option (Nat × Nat)
  bits : Nat
  counted : Bool
  alive : Bool
  deriving DecidableEq, Repr

/-- The test before `woke++`. -/
def countsWaiter (s : FutexState) (w : WaiterId) (wt : Waiter) : Bool :=
  match threadGet s wt.tid with
  | none => false
  | some t => t.active == some w && !t.terminated

/-- The thread that made the call has not been terminated. -/
def threadAlive (s : FutexState) (wt : Waiter) : Bool :=
  match s.threads wt.thread with
  | none => false
  | some t => !t.terminated

/-- The futex the waiter is queued on. -/
def futexOf (s : FutexState) (wt : Waiter) : Option (Nat × Nat) :=
  (wt.node.bind s.nodes).map fun nd => (nd.key, nd.owner)

def markOf (s : FutexState) (w : WaiterId) (wt : Waiter) : Mark :=
  ⟨wt.serial, futexOf s wt, wt.bitset, countsWaiter s w wt, threadAlive s wt⟩

/-- The waiter is taken off its list and marked. -/
def wakeWaiter (s : FutexState) (w : WaiterId) (wt : Waiter) : FutexState :=
  (futexUnlinkWaiter s w).setWaiter w (some { wt with node := none, woken := true })

/-- What a waking section does: the number it counts, the waiters it marks, and the state it
leaves. -/
structure WakeResult where
  woke : Nat
  marks : List Mark
  state : FutexState

/-- The loop of `futex_wake_locked`. The successor is read before a waiter is unlinked, so the loop
visits the waiters that are on the list when it starts. -/
def futexWakeLoop (count bitset : Nat) : List WaiterId → Nat → FutexState → WakeResult
  | [], woke, s => ⟨woke, [], s⟩
  | w :: rest, woke, s =>
    if woke < count then
      match s.waiters w with
      | none => futexWakeLoop count bitset rest woke s
      | some wt =>
        if wt.bitset &&& bitset ≠ 0 then
          let r := futexWakeLoop count bitset rest
            (if countsWaiter s w wt then woke + 1 else woke) (wakeWaiter s w wt)
          { r with marks := markOf s w wt :: r.marks }
        else futexWakeLoop count bitset rest woke s
    else ⟨woke, [], s⟩

def futexWakeLocked (s : FutexState) (node : Option NodeId) (count bitset : Nat) : WakeResult :=
  match node.bind s.nodes with
  | none => ⟨0, [], s⟩
  | some nd => futexWakeLoop count bitset nd.waiters 0 s

/-- The section of `FUTEX_WAKE`. -/
def futexWake (s : FutexState) (key owner count bitset : Nat) : WakeResult :=
  let node := futexFindNode s key owner
  let r := futexWakeLocked s node count bitset
  { r with state := futexDropEmpty r.state node }

/-! ## Requeueing -/

/-- The loop of `FUTEX_REQUEUE`: the first waiter of `src` becomes the first one of `dst`. -/
def requeueLoop (src dst : NodeId) : Nat → FutexState → Nat × FutexState
  | 0, s => (0, s)
  | n + 1, s =>
    match s.nodes src with
    | none => (0, s)
    | some nd =>
      match nd.waiters with
      | [] => (0, s)
      | w :: rest =>
        match s.waiters w with
        | none => (0, s)
        | some wt =>
          let s1 := s.setNode src (some { nd with waiters := rest })
          let r := requeueLoop src dst n (pushWaiter s1 dst w wt)
          (r.1 + 1, r.2)

/-- What the section of `FUTEX_REQUEUE` does; `result` is what the call returns. -/
structure RequeueResult where
  result : Int
  woke : Nat
  marks : List Mark
  state : FutexState

/-- The section of `FUTEX_REQUEUE`, after the comparison. -/
def futexRequeue (fresh : Option NodeId) (s : FutexState)
    (key owner key2 owner2 nrWake nrRequeue : Nat) :
    RequeueResult :=
  let src := futexFindNode s key owner
  let r := futexWakeLocked s src nrWake 0xFFFFFFFF
  match src.bind r.state.nodes with
  | none => ⟨r.woke, r.woke, r.marks, futexDropEmpty r.state src⟩
  | some nd =>
    if nd.waiters ≠ [] ∧ nrRequeue ≠ 0 then
      match futexFindOrCreate fresh r.state key2 owner2 with
      | (none, s1) => ⟨if r.woke ≠ 0 then r.woke else -ENOMEM, r.woke, r.marks, s1⟩
      | (some dst, s1) =>
        let q := requeueLoop (src.getD 0) dst nrRequeue s1
        ⟨r.woke + q.1, r.woke, r.marks, futexDropEmpty q.2 src⟩
    else ⟨r.woke, r.woke, r.marks, futexDropEmpty r.state src⟩

/-! ## Waiting -/

/-- The end of a wait, under the lock: the waiter leaves its list and is freed. -/
def waitLeave (s : FutexState) (p : ThreadId) (t : Thread) (w : WaiterId) (wt : Waiter) :
    FutexState :=
  let s1 := futexDropEmpty (futexUnlinkWaiter s w) wt.node
  (s1.setThread p (some { t with active := none, frame := none })).setWaiter w none

/-- One round of the wait loop: leave with a result, or go to sleep. -/
def waitRound (s : FutexState) (p : ThreadId) (t : Thread) (frame : WaitFrame) (signal : Bool)
    (now : Nat) : Option Int × FutexState :=
  match s.waiters frame.waiter with
  | none => (none, s)
  | some wt =>
    if wt.woken then (some 0, waitLeave s p t frame.waiter wt)
    else if signal then (some (-EINTR), waitLeave s p t frame.waiter wt)
    else if frame.deadline.any fun d => decide (d ≤ now) then
      (some (-ETIMEDOUT), waitLeave s p t frame.waiter wt)
    else (none, s.setThread p (some { t with frame := some frame }))

/-- The first section of a wait, after the value has been compared: the waiter is published and the
loop is entered. `w` and `fresh` are what `kmalloc` returns. -/
def waitEnter (s : FutexState) (p : ThreadId) (t : Thread) (w : WaiterId) (fresh : Option NodeId)
    (key owner bitset serial : Nat) (deadline : Option Nat) (signal : Bool) (now : Nat) :
    Option Int × FutexState :=
  match futexFindOrCreate fresh s key owner with
  | (none, s1) => (some (-ENOMEM), s1)
  | (some n, s1) =>
    let s2 := pushWaiter s1 n w ⟨if t.tid = 0 then 1 else t.tid, bitset, false, none, p, serial⟩
    let t2 := { t with active := some w }
    waitRound (s2.setThread p (some t2)) p t2 ⟨w, deadline⟩ signal now

/-- `futex_cancel_thread`, called when the thread object is freed. -/
def futexCancelThread (s : FutexState) (p : ThreadId) (t : Thread) : FutexState :=
  match t.active with
  | none => s
  | some w =>
    match s.waiters w with
    | none => s
    | some wt =>
      let s1 := futexDropEmpty (futexUnlinkWaiter s w) wt.node
      (s1.setThread p (some { t with active := none, frame := none })).setWaiter w none

/-! ## The call -/

/-- The arguments of `futex_syscall`; `op` and `val3` as 32-bit words. -/
structure FutexArgs where
  uaddr : Nat
  op : Nat
  val : Int
  timeout : Nat
  uaddr2 : Nat
  val3 : Nat
  deriving DecidableEq, Repr

/-- What a call meets: the physical address of a page (`mm_user_leaf_pa`), the word at an address
(`read_u32_user`), the timespec at `timeout`, the clock when the arguments are read and under the
lock, whether a signal is pending, and what `kmalloc` returns for the waiter and for a node. -/
structure FutexEnv where
  leafPa : Nat → Option Nat
  readU32 : Nat → Option Nat
  timespec : Option (Int × Int)
  now : Nat
  nowLocked : Nat
  signal : Bool
  newWaiter : Option WaiterId
  newNode : Option NodeId

/-- `op & ~(FUTEX_PRIVATE_FLAG | FUTEX_CLOCK_REALTIME)`. -/
def FutexArgs.cmd (a : FutexArgs) : Nat := a.op &&& 0xFFFFFE7F
def FutexArgs.isPrivate (a : FutexArgs) : Bool := a.op &&& 128 != 0
def FutexArgs.isRealtime (a : FutexArgs) : Bool := a.op &&& 256 != 0
def FutexArgs.isWait (a : FutexArgs) : Bool := a.cmd == 0 || a.cmd == 9
def FutexArgs.isWake (a : FutexArgs) : Bool := a.cmd == 1 || a.cmd == 10
def FutexArgs.isRequeue (a : FutexArgs) : Bool := a.cmd == 3 || a.cmd == 4

/-- `(int)(uintptr_t)timeout`. -/
def FutexArgs.val2 (a : FutexArgs) : Int :=
  let x : Nat := a.timeout % 2 ^ 32
  if x < 2 ^ 31 then (x : Int) else (x : Int) - 2 ^ 32

def futexKey (env : FutexEnv) (t : Thread) (address : Nat) (isPrivate : Bool) :
    Except Int (Nat × Nat) :=
  if address % 4 ≠ 0 then .error (-EINVAL)
  else if address < 0x1000 ∨ address > MMIO_IDENTITY_LIMIT - 4 ∨ t.mm = 0 then .error (-EFAULT)
  else if isPrivate then .ok (address, t.mm)
  else
    match env.leafPa address with
    | none => .error (-EFAULT)
    | some pa => .ok (pa, 0)

/-- The deadline of a wait; relative to now for `FUTEX_WAIT`. -/
def futexDeadline (env : FutexEnv) (a : FutexArgs) : Except Int (Option Nat) :=
  if a.timeout = 0 then .ok none
  else
    match env.timespec with
    | none => .error (-EFAULT)
    | some (sec, ns) =>
      if sec < 0 ∨ ns < 0 ∨ ns ≥ 1000000000 ∨ sec.toNat > (2 ^ 64 - 1 - ns.toNat) / 1000000000 then
        .error (-EINVAL)
      else
        let deadline := sec.toNat * 1000000000 + ns.toNat
        if a.cmd = 0 then
          .ok (some (if deadline > 2 ^ 64 - 1 - env.now then 2 ^ 64 - 1 else deadline + env.now))
        else .ok (some deadline)

/-- What a waking call was asked for and what it has done. -/
structure WakeRecord where
  key : Nat
  owner : Nat
  bitset : Nat
  woke : Nat
  marks : List Mark
  deriving DecidableEq, Repr

/-- What a call has done when it returns or goes to sleep (`result = none`). -/
structure Outcome where
  result : Option Int
  wake : Option WakeRecord
  state : FutexState

def Outcome.fail (e : Int) (s : FutexState) : Outcome := ⟨some e, none, s⟩

/-- The `FUTEX_WAIT` part of the call. -/
def futexWaitCall (serial : Nat) (s : FutexState) (p : ThreadId) (t : Thread) (env : FutexEnv)
    (a : FutexArgs) (key owner : Nat) : Outcome :=
  let bitset := if a.cmd = 0 then 0xFFFFFFFF else a.val3
  if bitset = 0 then .fail (-EINVAL) s
  else
    match futexDeadline env a with
    | .error e => .fail e s
    | .ok deadline =>
      match env.newWaiter with
      | none => .fail (-ENOMEM) s
      | some w =>
        -- the word is read under the lock
        match (if a.uaddr + 4 > MMIO_IDENTITY_LIMIT then none else env.readU32 a.uaddr) with
        | none => .fail (-EFAULT) s
        | some value =>
          if value ≠ (a.val % 2 ^ 32).toNat then .fail (-EAGAIN) s
          else
            let r := waitEnter s p t w env.newNode key owner bitset serial deadline
              env.signal env.nowLocked
            ⟨r.1, none, r.2⟩

/-- The `FUTEX_REQUEUE` part of the call. -/
def futexRequeueCall (s : FutexState) (t : Thread) (env : FutexEnv) (a : FutexArgs)
    (key owner : Nat) : Outcome :=
  if a.val < 0 ∨ a.val2 < 0 then .fail (-EINVAL) s
  else
    match futexKey env t a.uaddr2 a.isPrivate with
    | .error e => .fail e s
    | .ok (key2, owner2) =>
      if key = key2 ∧ owner = owner2 then .fail (-EINVAL) s
      else
        let read := if a.uaddr + 4 > MMIO_IDENTITY_LIMIT then none else env.readU32 a.uaddr
        if a.cmd = 4 ∧ read = none then .fail (-EFAULT) s
        else if a.cmd = 4 ∧ read ≠ some a.val3 then .fail (-EAGAIN) s
        else
          let r := futexRequeue env.newNode s key owner key2 owner2 a.val.toNat a.val2.toNat
          ⟨some r.result, some ⟨key, owner, 0xFFFFFFFF, r.woke, r.marks⟩, r.state⟩

/-- `futex_syscall`, up to its return or until the caller sleeps. -/
def futexSyscall (serial : Nat) (s : FutexState) (p : ThreadId) (t : Thread) (env : FutexEnv)
    (a : FutexArgs) : Outcome :=
  if !(a.isWait || a.isWake || a.isRequeue) then .fail (-ENOSYS) s
  else if a.isRealtime ∧ a.cmd ≠ 9 then .fail (-ENOSYS) s
  else
    match futexKey env t a.uaddr a.isPrivate with
    | .error e => .fail e s
    | .ok (key, owner) =>
      if a.isWait then futexWaitCall serial s p t env a key owner
      else if a.isWake then
        let bitset := if a.cmd = 1 then 0xFFFFFFFF else a.val3
        if a.val < 0 ∨ bitset = 0 then .fail (-EINVAL) s
        else
          let r := futexWake s key owner a.val.toNat bitset
          ⟨some r.woke, some ⟨key, owner, bitset, r.woke, r.marks⟩, r.state⟩
      else futexRequeueCall s t env a key owner

end AxonOS.Futex

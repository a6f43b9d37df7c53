import AxonOS.Arch.Word
import AxonOS.Lib.Chain
import AxonOS.Lib.SlotTable

/-! # The process tree

The functions of `process.c` that link and unlink processes, each section under `process_lock` as
one step. A process has a pointer to its parent and to its first child, and its siblings hang
together by `next_sibling`. `process_find_child` repairs links that it finds missing: from the
pointers to the parent, and from the thread ids in `parent_tid`, which may name another thread by
now.

Processes are named by their address; `live` says which are allocated. A loop along a list that does
not end leaves the CPU hung with the lock held (`hung`).
-/

namespace AxonOS.Process

open Lib
open Function (update)

/-! ## State -/

def PROCESS_TABLE_MAX : Nat := 1024

/-- What the process code sees of the threads: `thread_get`, and the fields `parent_tid` and
`process`. -/
structure Threads where
  get : Int → Option Nat
  parentTid : Nat → Int
  process : Nat → Option Nat

structure PState where
  live : Nat → Bool
  pid : Nat → Nat
  pgid : Nat → Int
  zombie : Nat → Bool
  parent : Nat → Option Nat
  firstChild : Nat → Option Nat
  nextSibling : Nat → Option Nat
  leader : Nat → Option Nat
  processTable : Nat → Option Nat
  nextPid : Nat
  threads : Threads
  hung : Bool

namespace PState

def hang (s : PState) : PState := { s with hung := true }

/-! ## Creation -/

/-- `p->next_sibling = parent->first_child; parent->first_child = p;` -/
def link (s : PState) (parent p : Nat) : PState :=
  { s with
    nextSibling := update s.nextSibling p (s.firstChild parent)
    firstChild := update s.firstChild parent (some p) }

def setParent (s : PState) (p : Nat) (parent : Option Nat) : PState :=
  { s with parent := update s.parent p parent }

/-- A new process: `pid` is its number, and its other fields are zero. -/
def alloc (s : PState) (slot p pid : Nat) (pgid : Int) (parent : Option Nat) : PState :=
  { s with
    live := update s.live p true
    pid := update s.pid p pid
    pgid := update s.pgid p pgid
    zombie := update s.zombie p false
    parent := update s.parent p parent
    firstChild := update s.firstChild p none
    nextSibling := update s.nextSibling p none
    leader := update s.leader p none
    processTable := update s.processTable slot (some p) }

def processCreate (s : PState) (parent : Option Nat) (p : Nat) : PState :=
  match firstFree s.processTable 0 PROCESS_TABLE_MAX with
  | none => s
  | some slot =>
    let next := (s.nextPid + 1) % 2 ^ 64
    let pid := if s.nextPid = 0 then next else s.nextPid
    let s := { s with nextPid := if s.nextPid = 0 then (next + 1) % 2 ^ 64 else next }
    match parent with
    | none => s.alloc slot p pid (toInt pid) none
    | some q => (s.alloc slot p pid (s.pgid q) (some q)).link q p

/-- `process_attach_thread`, as far as the leader goes. -/
def processAttachThread (s : PState) (p thread : Nat) : PState :=
  { s with leader := update s.leader p (some ((s.leader p).getD thread)) }

/-! ## Searching for a child -/

def processWaitSpecMatch (s : PState) (pid pgid : Int) (p : Nat) : Bool :=
  if 0 < pid then decide ((s.pid p : Int) = pid)
  else if pid = -1 then true
  else if pid = 0 then decide (s.pgid p = pgid)
  else decide (s.pgid p = -pid)

/-- Whether `p` is in the list of `q`. -/
def listed (s : PState) (q p : Nat) : Option Bool :=
  (chainFind s.nextSibling (· == p) PROCESS_TABLE_MAX (s.firstChild q)).map Option.isSome

/-- `process_relink_child_locked`. -/
def relinkChild (s : PState) (parent p : Nat) : PState :=
  if s.hung then s
  else
    let s := s.setParent p (some parent)
    match s.listed parent p with
    | none => s.hang
    | some true => s
    | some false => s.link parent p

/-- The loop over the children: whether one has matched, and the first that is wanted. -/
def scanChildren (next : Nat → Option Nat) (fits wanted : Nat → Bool) :
    Nat → Bool → Option Nat → Option (Bool × Option Nat)
  | _, matched, none => some (matched, none)
  | 0, _, some _ => none
  | n + 1, matched, some p =>
    if !fits p then scanChildren next fits wanted n matched (next p)
    else if wanted p then some (true, some p)
    else scanChildren next fits wanted n true (next p)

/-- One slot of a repair pass, which ends with the first result. -/
def repairSlot (candidate : PState → Nat → Bool) (parent : Nat) (wanted : Nat → Bool)
    (acc : PState × Bool × Option Nat) (i : Nat) : PState × Bool × Option Nat :=
  if acc.2.2.isSome then acc
  else
    match acc.1.processTable i with
    | none => acc
    | some p =>
      if candidate acc.1 p then
        (acc.1.relinkChild parent p, true, if wanted p then some p else none)
      else acc

def repairPass (candidate : PState → Nat → Bool) (parent : Nat) (wanted : Nat → Bool)
    (acc : PState × Bool × Option Nat) : PState × Bool × Option Nat :=
  (List.range PROCESS_TABLE_MAX).foldl (repairSlot candidate parent wanted) acc

def hasParent (parent : Nat) (pid pgid : Int) (s : PState) (p : Nat) : Bool :=
  s.parent p == some parent && s.processWaitSpecMatch pid pgid p

/-- A process whose leader's `parent_tid` names a thread of `parent`. -/
def forkedBy (parent : Nat) (pid pgid : Int) (s : PState) (p : Nat) : Bool :=
  p != parent && (match s.leader p with
      | none => false
      | some t =>
        decide (0 ≤ s.threads.parentTid t) && (match s.threads.get (s.threads.parentTid t) with
            | none => false
            | some pt => s.threads.process pt == some parent))
    && s.processWaitSpecMatch pid pgid p

/-- `process_find_child`: the state, `*has_match` and the result. -/
def processFindChild (s : PState) (parent : Nat) (pid pgid : Int) (zombiesOnly : Bool) :
    PState × Bool × Option Nat :=
  let wanted := fun p => !zombiesOnly || s.zombie p
  match scanChildren s.nextSibling (s.processWaitSpecMatch pid pgid) wanted PROCESS_TABLE_MAX false
      (s.firstChild parent) with
  | none => (s.hang, false, none)
  | some (true, result) => (s, true, result)
  | some (false, _) =>
    let r := repairPass (hasParent parent pid pgid) parent wanted (s, false, none)
    if r.2.1 then r else repairPass (forkedBy parent pid pgid) parent wanted r

/-! ## Moving and removing -/

def processMarkZombie (s : PState) (p : Nat) : PState := { s with zombie := update s.zombie p true }

/-- The loop of `process_reparent_children`. -/
def moveChildren (newParent : Option Nat) : Nat → PState → Option Nat → PState
  | _, s, none => s
  | 0, s, some _ => s.hang
  | n + 1, s, some child =>
    let next := s.nextSibling child
    let s := s.setParent child newParent
    match newParent with
    | some q => moveChildren newParent n (s.link q child) next
    | none =>
      moveChildren newParent n { s with nextSibling := update s.nextSibling child none } next

def processReparentChildren (s : PState) (process : Nat) (newParent : Option Nat) : PState :=
  if newParent = some process then s
  else
    moveChildren newParent PROCESS_TABLE_MAX
      { s with firstChild := update s.firstChild process none } (s.firstChild process)

/-- The link in the list of `q` that points to `child`: the one behind a sibling, or the first. -/
def findLink (s : PState) (q child : Nat) : Option (Option (Option Nat)) :=
  chainPred s.nextSibling child PROCESS_TABLE_MAX none (s.firstChild q)

def unlink (s : PState) (q child : Nat) : Option Nat → PState
  | none => { s with firstChild := update s.firstChild q (s.nextSibling child) }
  | some prev => { s with nextSibling := update s.nextSibling prev (s.nextSibling child) }

def dropSlot (s : PState) (child : Nat) : PState :=
  match (List.range PROCESS_TABLE_MAX).find? fun i => s.processTable i == some child with
  | some i => { s with processTable := update s.processTable i none }
  | none => s

/-- `child->parent = NULL; child->next_sibling = NULL;`, the table, `thread_detach_process` and
`kfree`. -/
def free (s : PState) (child : Nat) : PState :=
  let s := { s with
    parent := update s.parent child none
    nextSibling := update s.nextSibling child none }
  let s := s.dropSlot child
  { s with
    live := update s.live child false
    threads := { s.threads with
      process := fun t => if s.threads.process t = some child then none else s.threads.process t } }

def processReap (s : PState) (parent child : Nat) : PState × Int :=
  if !s.zombie child then (s, -1)
  else
    match s.findLink parent child with
    | none => (s.hang, 0)
    | some none => (s, -1)
    | some (some prev) => ((s.unlink parent child prev).free child, 0)

def processReapZombie (s : PState) (child : Nat) : PState × Int :=
  if !s.zombie child then (s, -1)
  else
    match s.parent child with
    | none => (s.free child, 0)
    | some q =>
      match s.findLink q child with
      | none => (s.hang, 0)
      | some none => (s.free child, 0)
      | some (some prev) => ((s.unlink q child prev).free child, 0)

def processDiscard (s : PState) (parent child : Nat) : PState × Int :=
  match s.findLink parent child with
  | none => (s.hang, 0)
  | some none => (s, -1)
  | some (some prev) =>
    if s.parent child ≠ some parent then (s, -1)
    else ({ s.unlink parent child prev with leader := update s.leader child none }.free child, 0)

/-- The first part of `process_adopt_child`: out of the list of another parent. -/
def leaveParent (s : PState) (parent child : Nat) : PState :=
  match s.parent child with
  | none => s
  | some q =>
    if q = parent then s
    else
      match s.findLink q child with
      | none => s.hang
      | some none => s
      | some (some prev) => s.unlink q child prev

def processAdoptChild (s : PState) (parent child : Nat) : PState × Int :=
  if child = parent then (s, -1) else ((s.leaveParent parent child).relinkChild parent child, 0)

end PState

/-! ## Runs -/

/-- The functions of `process.c`, and what changes around them: ids, and the table of threads, whose
ids are used again. -/
inductive TreeOp where
  | create (parent : Option Nat) (p : Nat)
  | attach (p thread : Nat)
  | findChild (parent : Nat) (pid pgid : Int) (zombiesOnly : Bool)
  | markZombie (p : Nat)
  | reparent (process : Nat) (newParent : Option Nat)
  | reap (parent child : Nat)
  | reapZombie (child : Nat)
  | discard (parent child : Nat)
  | adopt (parent child : Nat)
  | setIds (p pid : Nat) (pgid : Int)
  | setThreads (threads : Threads)

def PState.call (s : PState) : TreeOp → PState
  | .create parent p => s.processCreate parent p
  | .attach p thread => s.processAttachThread p thread
  | .findChild parent pid pgid zombiesOnly => (s.processFindChild parent pid pgid zombiesOnly).1
  | .markZombie p => s.processMarkZombie p
  | .reparent process newParent => s.processReparentChildren process newParent
  | .reap parent child => (s.processReap parent child).1
  | .reapZombie child => (s.processReapZombie child).1
  | .discard parent child => (s.processDiscard parent child).1
  | .adopt parent child => (s.processAdoptChild parent child).1
  | .setIds p pid pgid => { s with pid := update s.pid p pid, pgid := update s.pgid p pgid }
  | .setThreads threads => { s with threads := threads }

/-- Nothing happens any more after a hang. -/
def PState.step (s : PState) (op : TreeOp) : PState := if s.hung then s else s.call op

def PState.exec (s : PState) (ops : List TreeOp) : PState := ops.foldl PState.step s

/-- The pointers that are passed are those of allocated processes, and `kmalloc` returns a new
one. -/
def PState.Valid (s : PState) : TreeOp → Prop
  | .create parent p => (∀ q, parent = some q → s.live q = true) ∧ s.live p = false
  | .findChild parent _ _ _ => s.live parent = true
  | .reparent process newParent =>
    s.live process = true ∧ ∀ q, newParent = some q → s.live q = true
  | .reap parent child => s.live parent = true ∧ s.live child = true
  | .reapZombie child => s.live child = true
  | .discard parent child => s.live parent = true ∧ s.live child = true
  | .adopt parent child => s.live parent = true ∧ s.live child = true
  | _ => True

end AxonOS.Process

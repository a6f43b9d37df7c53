import AxonOS.Arch.Word
import AxonOS.Lib.Ring

/-! # Pipes

`pipe_read_bytes`, `pipe_write_bytes` and `pipe_release_end` of `syscall_dispatch.c`, each section
under `p->lock` as one step. A call that finds neither bytes nor room registers its thread in the
pipe and blocks it within the section; there is one place for a reader and one for a writer. A call
in progress is what its thread is `doing`; between two sections it waits for the lock or for
`thread_unblock`.

Two fields only record what happens: `log`, the pieces that went into the ring with the number of
the call they belong to, and `out`, the bytes that left it.
-/

namespace AxonOS.Ipc

open Lib

variable {β : Type}

def PIPE_BUF_SIZE : Nat := 4096

def PIPE_CAPACITY : Nat := 64 * 1024

/-! ## State -/

/-- `pipe_t`; a waiter of −1 is `none`. -/
structure Pipe (β : Type) where
  ring : RingBuf β
  refcount : Int
  readerWaiter : Option Nat
  writerWaiter : Option Nat

/-- What a thread does; `idle` with the value of its last call. -/
inductive Doing where
  | idle (ret : Int)
  | reading (cnt : Nat) (nonblock : Bool)
  | writing (call : Nat)
  deriving DecidableEq, Repr

def Doing.isReading : Doing → Bool
  | .reading _ _ => true
  | _ => false

def Doing.isWriting : Doing → Bool
  | .writing _ => true
  | _ => false

/-- A call of `pipe_write_bytes`: its arguments, its `written`, and the value it has returned. -/
structure WriteCall (β : Type) where
  data : List β
  nonblock : Bool
  written : Nat
  ret : Option Int

structure St (β : Type) where
  pipe : Pipe β
  blocked : Nat → Bool
  doing : Nat → Doing
  writes : List (WriteCall β)
  log : List (Nat × List β)
  out : List β

/-- After `pipe`: `cell` is what `kmalloc` returned. -/
def St.init (cell : Nat → β) : St β where
  pipe := ⟨RingBuf.empty cell PIPE_CAPACITY, 2, none, none⟩
  blocked _ := false
  doing _ := .idle 0
  writes := []
  log := []
  out := []

/-! ## Threads -/

def St.threadBlock (s : St β) (t : Nat) : St β :=
  { s with blocked := fun x => if x = t then true else s.blocked x }

def St.threadUnblock (s : St β) (t : Nat) : St β :=
  { s with blocked := fun x => if x = t then false else s.blocked x }

def St.setDoing (s : St β) (t : Nat) (d : Doing) : St β :=
  { s with doing := fun x => if x = t then d else s.doing x }

/-- Unblock the registered thread and clear the place. -/
def St.wakeReader (s : St β) : St β :=
  match s.pipe.readerWaiter with
  | some t => { s with pipe := { s.pipe with readerWaiter := none } }.threadUnblock t
  | none => s

def St.wakeWriter (s : St β) : St β :=
  match s.pipe.writerWaiter with
  | some t => { s with pipe := { s.pipe with writerWaiter := none } }.threadUnblock t
  | none => s

@[simp] theorem wakeReader_eq (s : St β) :
    s.wakeReader = { s with
      pipe := { s.pipe with readerWaiter := none }
      blocked := fun x => if s.pipe.readerWaiter = some x then false else s.blocked x } := by
  unfold St.wakeReader
  split
  next t h => simp [St.threadUnblock, h, eq_comm]
  next h =>
    simp only [h, reduceCtorEq, if_false]
    rw [← h]

@[simp] theorem wakeWriter_eq (s : St β) :
    s.wakeWriter = { s with
      pipe := { s.pipe with writerWaiter := none }
      blocked := fun x => if s.pipe.writerWaiter = some x then false else s.blocked x } := by
  unfold St.wakeWriter
  split
  next t h => simp [St.threadUnblock, h, eq_comm]
  next h =>
    simp only [h, reduceCtorEq, if_false]
    rw [← h]

/-! ## Sections -/

/-- Bytes leave the ring. -/
def St.get (s : St β) (n : Nat) : St β :=
  { s with pipe := { s.pipe with ring := s.pipe.ring.drop n }, out := s.out ++ s.pipe.ring.take n }

/-- A section of `pipe_read_bytes` by `t`. -/
def St.readSection (s : St β) (t cnt : Nat) (nonblock : Bool) : St β :=
  let used := s.pipe.ring.used
  if 0 < used then
    let n := if used < cnt then used else cnt
    (s.get n).wakeWriter.setDoing t (.idle n)
  else if s.pipe.refcount < 2 then s.setDoing t (.idle 0)
  else if nonblock then s.setDoing t (.idle (-EAGAIN))
  else { s with pipe := { s.pipe with readerWaiter := some t } }.threadBlock t

/-- Call `call` has put a piece of its data into the ring. -/
def St.put (s : St β) (call : Nat) (w : WriteCall β) (piece : List β) : St β :=
  { s with
    pipe := { s.pipe with ring := s.pipe.ring.push piece }
    writes := s.writes.set call { w with written := w.written + piece.length }
    log := s.log ++ [(call, piece)] }

def St.finish (s : St β) (t call : Nat) (w : WriteCall β) (ret : Int) : St β :=
  { s with writes := s.writes.set call { w with ret := some ret } }.setDoing t (.idle ret)

/-- What a write returns when it has to stop. -/
def WriteCall.stopped (w : WriteCall β) (errno : Int) : Int :=
  if 0 < w.written then w.written else -errno

/-- The next `n` bytes go into the ring, and then the test of the loop. -/
def St.writePiece (s : St β) (t call : Nat) (w : WriteCall β) (n : Nat) : St β :=
  let s := (s.put call w ((w.data.drop w.written).take n)).wakeReader
  if w.written + n < w.data.length then s
  else s.finish t call { w with written := w.written + n } (w.written + n : Nat)

/-- A section of `pipe_write_bytes` by `t`. The second test of the reference count, behind the
copying, repeats the first within the same section. -/
def St.writeSection (s : St β) (t call : Nat) (w : WriteCall β) : St β :=
  if s.pipe.refcount < 2 then s.finish t call w (w.stopped EPIPE)
  else
    let free := s.pipe.ring.free
    if 0 < free then
      let rest := w.data.length - w.written
      s.writePiece t call w (if rest < free then rest else free)
    else if w.nonblock then s.finish t call w (w.stopped EAGAIN)
    else { s with pipe := { s.pipe with writerWaiter := some t } }.threadBlock t

/-- `pipe_release_end`. -/
def St.releaseEnd (s : St β) : St β :=
  { s with pipe := { s.pipe with refcount := s.pipe.refcount - 1 } }.wakeReader.wakeWriter

/-! ## Steps -/

/-- What may happen: a thread enters a function, it runs a section, an end is closed, or some other
part of the kernel unblocks a thread. -/
inductive Op (β : Type) where
  | read (t cnt : Nat) (nonblock : Bool)
  | write (t : Nat) (data : List β) (nonblock : Bool)
  | run (t : Nat)
  | releaseEnd
  | unblock (t : Nat)

def St.startRead (s : St β) (t cnt : Nat) (nonblock : Bool) : St β :=
  match s.doing t with
  | .idle _ => s.setDoing t (if cnt = 0 then .idle (-EINVAL) else .reading cnt nonblock)
  | _ => s

def St.startWrite (s : St β) (t : Nat) (data : List β) (nonblock : Bool) : St β :=
  match s.doing t with
  | .idle _ =>
    if data.length = 0 then s.setDoing t (.idle (-EINVAL))
    else
      { s with writes := s.writes ++ [WriteCall.mk data nonblock 0 none] }.setDoing t
        (.writing s.writes.length)
  | _ => s

/-- The next section of `t`, unless it is blocked. -/
def St.runThread (s : St β) (t : Nat) : St β :=
  if s.blocked t then s
  else
    match s.doing t with
    | .idle _ => s
    | .reading cnt nonblock => s.readSection t cnt nonblock
    | .writing call =>
      match s.writes[call]? with
      | some w => s.writeSection t call w
      | none => s

def St.step (s : St β) : Op β → St β
  | .read t cnt nonblock => s.startRead t cnt nonblock
  | .write t data nonblock => s.startWrite t data nonblock
  | .run t => s.runThread t
  | .releaseEnd => s.releaseEnd
  | .unblock t => s.threadUnblock t

def St.exec (s : St β) (ops : List (Op β)) : St β := ops.foldl St.step s

def St.pieces (s : St β) (call : Nat) : List (List β) :=
  (s.log.filter fun e => e.1 = call).map Prod.snd

end AxonOS.Ipc

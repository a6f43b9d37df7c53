import AxonOS.Arch.Word
import AxonOS.Signal.Frame

/-! # Signal delivery and `rt_sigreturn`

A thread enters the kernel by a system call (`syscall_entry64`) or an interrupt, and every way back
to user mode looks for a signal to deliver. The registers a system call returns to are in the live
frame on the kernel stack, an array of words, and once more in the `saved_user_*` fields of the
thread; delivery reads the fields and patches both. `rt_sigreturn` is a system call that replaces
both by the context in the signal frame.

User code, other system calls and the arrival of signals are operations with any result. The machine
keeps, for every frame that has been pushed and not yet returned to, the context and the mask that
were interrupted (`Pushed`), and for every `rt_sigreturn` what it has led to (`Resumption`).
-/

namespace AxonOS.Signal

open Arch Lib
open Function (update)

/-! ## The thread -/

/-- The `saved_user_*` fields. -/
structure Saved where
  r8 : Word
  r9 : Word
  r10 : Word
  r11 : Word
  r12 : Word
  r13 : Word
  r14 : Word
  r15 : Word
  rdi : Word
  rsi : Word
  rbp : Word
  rbx : Word
  rdx : Word
  rcx : Word
  rip : Word
  rsp : Word

structure Thread where
  /-- `state == THREAD_TERMINATED` -/
  terminated : Bool
  pendingSignals : Word
  savedSigMask : Word
  sas : AltStack
  suspendActive : Bool
  suspendOldMask : Word
  restoreSigmask : Bool
  savedSigmaskOrig : Word
  saved : Saved
  sigreturnRestoreGprs : Bool
  sigreturnRcx : Word
  sigreturnR11 : Word
  /-- `saved_syscall_frame`, the frame on the kernel stack. -/
  frame : Nat → Word

/-- What delivery reads and changes: the thread, the actions of its process, and user memory. -/
structure Kernel where
  t : Thread
  actions : Nat → SigAction
  mem : PMem

/-! ## Masks -/

def sigwaitRestoreSavedMask (t : Thread) : Thread :=
  let t :=
    if t.suspendActive then { t with savedSigMask := t.suspendOldMask, suspendActive := false }
    else t
  if t.restoreSigmask then { t with savedSigMask := t.savedSigmaskOrig, restoreSigmask := false }
  else t

/-- `sigwait_begin_set`, with a mask: `ppoll`, `pselect6` and `epoll_pwait`. -/
def sigwaitBeginSet (t : Thread) (kmask : Word) : Thread :=
  let t := if t.restoreSigmask then t
    else { t with savedSigmaskOrig := t.savedSigMask, restoreSigmask := true }
  { t with savedSigMask := kmask }

/-- What a system call does to the mask. -/
inductive MaskOp where
  | keep
  /-- `rt_sigprocmask` -/
  | set (mask : Word)
  /-- `rt_sigsuspend` -/
  | suspend (mask : Word)
  /-- `ppoll`, `pselect6`, `epoll_pwait` -/
  | wait (mask : Word)

def Thread.apply (t : Thread) : MaskOp → Thread
  | .keep => t
  | .set mask => { t with savedSigMask := mask }
  | .suspend mask =>
    { t with suspendOldMask := t.savedSigMask, savedSigMask := mask, suspendActive := true }
  | .wait mask => sigwaitBeginSet t mask

/-- The mask in force after the call, a temporary one aside. -/
def Thread.maskAfter (t : Thread) : MaskOp → Word
  | .set mask => mask
  | _ => t.savedSigMask

/-! ## Choosing a signal -/

/-- `signal_prepare_next`'s result. -/
inductive Prep where
  | nothing
  | handler (sig : Nat) (sa : SigAction)
  | retry
  | fatal

def sighandlerUserPlausible (h : Word) : Bool :=
  if h = 0 || h = 1 then true else 0x10000 ≤ h.toNat && h.toNat < MMIO_IDENTITY_LIMIT

def signalDefaultFatal (sig : Nat) : Bool :=
  [1, 2, 3, 4, 6, 7, 8, 9, 11, 13, 14, 15, 24, 25, 31].contains sig

def Thread.consume (t : Thread) (sig : Nat) : Thread :=
  { t with pendingSignals := t.pendingSignals &&& ~~~ sigBit sig }

/-- The lowest signal of a set. -/
def firstSignal (set : Word) : Option Nat :=
  ((List.range 64).map (· + 1)).find? fun sig => set.getLsbD (sig - 1)

/-- The signals that can be delivered: `SIGKILL` and `SIGSTOP` cannot be blocked. -/
def Thread.deliverable (t : Thread) : Word :=
  t.pendingSignals &&& ~~~ (t.savedSigMask &&& ~~~ (sigBit SIGKILL ||| sigBit SIGSTOP))

/-- The handler of a signal: `SIGKILL` and `SIGSTOP` cannot be caught or ignored. -/
def handlerOf (sig : Nat) (sa : SigAction) : Word :=
  let h := if sig = SIGKILL || sig = SIGSTOP then 0 else sa.handler
  if !sighandlerUserPlausible h && sig = SIGKILL then 0 else h

def signalPrepareNext (t : Thread) (actions : Nat → SigAction) :
    Prep × Thread × (Nat → SigAction) :=
  if t.terminated then (.nothing, t, actions)
  else
    match firstSignal t.deliverable with
    | none => (.nothing, t, actions)
    | some sig =>
      let sa := actions sig
      let h := handlerOf sig sa
      if !sighandlerUserPlausible h then
        (.retry, t.consume sig, update actions sig { sa with handler := 0 })
      else if h = 1 then (.retry, t.consume sig, actions)
      else if h = 0 then
        if signalDefaultFatal sig then
          (.fatal, { t.consume sig with pendingSignals := 0, terminated := true }, actions)
        else (.retry, t.consume sig, actions)
      else if sa.restorer = 0 then (.nothing, t, actions)
      else (.handler sig sa, t, actions)

/-! ## Delivery -/

/-- The mask that goes into a frame. -/
def Thread.frameMask (t : Thread) : Word :=
  if t.suspendActive then t.suspendOldMask
  else if t.restoreSigmask then t.savedSigmaskOrig else t.savedSigMask

def signalWriteRtFrame (m : PMem) (t : Thread) (sig : Nat) (sa : SigAction)
    (oldRsp : Word) (sc : Regs) :
    PMem × Option Nat :=
  match rtFrameStart oldRsp with
  | none => (m, none)
  | some start =>
    let uc : KUcontext :=
      { ssSp := t.sas.sp, ssFlags := t.sas.flags, ssSize := t.sas.size, mcontext := sc,
        sigmask := t.frameMask }
    match writeFrame m start uc sig sa.restorer with
    | (m, false) => (m, none)
    | (m, true) => (m, some start)

def signalCommitDelivery (t : Thread) (sig : Nat) (sa : SigAction) : Thread :=
  let base := if t.suspendActive then t.suspendOldMask else t.savedSigMask
  let mask := base ||| sa.mask
  let mask := if sa.flags &&& SA_NODEFER = 0 then mask ||| sigBit sig else mask
  { t.consume sig with suspendActive := false, savedSigMask := mask }

/-- How the kernel is left: with the interrupted context, with the handler of an action, whose frame
is at `start`, or never. -/
inductive Outcome where
  | resume
  | handler (sa : SigAction) (start : Nat)
  | dead
  deriving DecidableEq

/-- The loop of both delivery functions. Every round that goes on takes a signal away, so that 65
rounds are enough (`deliverLoop_isSome`). -/
def deliverLoop {α : Type} (giveUp : α)
    (deliver : Kernel → Nat → SigAction → Kernel × α × Outcome) :
    Nat → Kernel → Option (Kernel × α × Outcome)
  | 0, _ => none
  | fuel + 1, k =>
    match signalPrepareNext k.t k.actions with
    | (.nothing, t, actions) =>
      some ({ k with t := sigwaitRestoreSavedMask t, actions := actions }, giveUp, .resume)
    | (.fatal, t, actions) =>
      some ({ k with t := sigwaitRestoreSavedMask t, actions := actions }, giveUp, .dead)
    | (.retry, t, actions) => deliverLoop giveUp deliver fuel { k with t := t, actions := actions }
    | (.handler sig sa, t, actions) => some (deliver { k with t := t, actions := actions } sig sa)

/-- `syscall_is_norestart`: `poll`, `select`, `epoll_wait`, `pselect6`, `ppoll`, `epoll_pwait` and
`rt_sigsuspend`. -/
def syscallIsNorestart (nr : Word) : Bool :=
  [7, 23, 232, 270, 271, 281, 130].contains (nr.toNat % 2 ^ 32)

/-- The system call is started again after the handler. -/
def restarts (k : Kernel) (sa : SigAction) (ret : Word) : Bool :=
  sa.flags &&& SA_RESTART ≠ 0 && ret = BitVec.ofInt 64 (-EINTR) && 2 ≤ k.t.saved.rip.toNat
    && !syscallIsNorestart (k.t.frame 14)
    && copyFromUserRaw k.mem (k.t.saved.rip.toNat - 2) 2 == some [0x0f, 0x05]

/-- The context that `maybe_deliver_pending_signal` saves. -/
def syscallContext (t : Thread) (ret : Word) (restart : Bool) : Regs :=
  { r8 := t.saved.r8, r9 := t.saved.r9, r10 := t.saved.r10
    r11 := if t.sigreturnRestoreGprs then t.sigreturnR11 else t.saved.r11
    r12 := t.saved.r12, r13 := t.saved.r13, r14 := t.saved.r14, r15 := t.saved.r15
    rdi := t.saved.rdi, rsi := t.saved.rsi, rbp := t.saved.rbp, rbx :=
    t.saved.rbx, rdx := t.saved.rdx
    rax := if restart then t.frame 14 else ret
    rcx := if t.sigreturnRestoreGprs then t.sigreturnRcx else t.saved.rcx
    rsp := t.saved.rsp
    rip := if restart then t.saved.rip - 2 else t.saved.rip
    eflags := t.saved.r11 }

/-- The handler's arguments and stack, in the live frame and in the thread. -/
def enterHandler (t : Thread) (sig : Nat) (sa : SigAction) (start : Nat) : Thread :=
  let t := { t with frame := update t.frame 8 (BitVec.ofNat 64 sig)
                    saved := { t.saved with rdi := BitVec.ofNat 64 sig } }
  let info := BitVec.ofNat 64 (start + RT_SIGFRAME_INFO_OFF)
  let uc := BitVec.ofNat 64 (start + RT_SIGFRAME_UC_OFF)
  let t := if sa.flags &&& SA_SIGINFO = 0 then t
    else { t with frame := update (update t.frame 9 info) 12 uc
                  saved := { t.saved with rsi := info, rdx := uc } }
  { t with frame := update (update t.frame 13 sa.handler) 15 (BitVec.ofNat 64 start) }

def giveUp {α : Type} (k : Kernel) (a : α) : Kernel × α × Outcome :=
  ({ k with t := sigwaitRestoreSavedMask k.t }, a, .resume)

/-- The body of the loop of `maybe_deliver_pending_signal`, with a signal to deliver. -/
def deliverAtSyscall (ret : Word) (k : Kernel) (sig : Nat) (sa : SigAction) :
    Kernel × Unit × Outcome :=
  if k.t.saved.rsp = 0 || k.t.saved.rip = 0 then giveUp k ()
  else
    let restart := restarts k sa ret
    if sa.handler.toNat < 0x10000 then giveUp k ()
    else
      match signalWriteRtFrame k.mem k.t sig sa (signalPickHandlerRsp k.t.sas sa k.t.saved.rsp)
          (syscallContext k.t ret restart) with
      | (mem, none) => giveUp { k with mem := mem } ()
      | (mem, some start) =>
        let t := signalCommitDelivery (enterHandler k.t sig sa start) sig sa
        ({ k with mem := mem, t := { t with restoreSigmask := false } }, (), .handler sa start)

/-- The handler's registers after an interrupt. -/
def Regs.enterHandler (r : Regs) (sig : Nat) (sa : SigAction) (start : Nat) : Regs :=
  let r := { r with rdi := BitVec.ofNat 64 sig }
  let r := if sa.flags &&& SA_SIGINFO = 0 then r
    else { r with rsi := BitVec.ofNat 64 (start + RT_SIGFRAME_INFO_OFF)
                  rdx := BitVec.ofNat 64 (start + RT_SIGFRAME_UC_OFF) }
  { r with
        rip := sa.handler, rsp := BitVec.ofNat 64 start,
        eflags := (r.eflags ||| 0x200) &&& ~~~ 0x400 }

/-- The thread in the handler, with the handler's registers `r`. -/
def Thread.interruptedBy (t : Thread) (r : Regs) (sig : Nat) (sa : SigAction) : Thread :=
  let saved := { t.saved with rdi := r.rdi, rsi := r.rsi, rdx := r.rdx, rip := r.rip, rsp := r.rsp,
                              r11 := r.eflags }
  { signalCommitDelivery { t with saved := saved } sig sa with restoreSigmask := false }

/-- The body of the loop of `maybe_deliver_pending_signal_iretq`, with a signal to deliver. -/
def deliverAtInterrupt (regs : Regs) (k : Kernel) (sig : Nat) (sa : SigAction) :
    Kernel × Regs × Outcome :=
  if sa.handler.toNat < 0x10000 then giveUp k regs
  else if regs.rsp = 0 || regs.rip = 0 then giveUp k regs
  else if regs.rip.toNat < 0x10000 then giveUp k regs
  else
    match signalWriteRtFrame k.mem k.t sig sa (signalPickHandlerRsp k.t.sas sa regs.rsp) regs with
    | (mem, none) => giveUp { k with mem := mem } regs
    | (mem, some start) =>
      let r := regs.enterHandler sig sa start
      ({ k with mem := mem, t := k.t.interruptedBy r sig sa }, r, .handler sa start)

def maybeDeliverPendingSignal (k : Kernel) (ret : Word) : Option (Kernel × Unit × Outcome) :=
  deliverLoop () (deliverAtSyscall ret) 65 k

/-- `maybe_deliver_pending_signal_iretq`, for a ring-3 frame. A terminated thread does not
return. -/
def maybeDeliverPendingSignalIretq (k : Kernel) (regs : Regs) : Option (Kernel × Regs × Outcome) :=
  if k.t.terminated then some ({ k with t := sigwaitRestoreSavedMask k.t }, regs, .dead)
  else deliverLoop regs (deliverAtInterrupt regs) 65 k

/-! ## The way into and out of a system call -/

/-- The frame that `syscall_entry64` pushes: `SYSCALL` has put the return address into `rcx` and the
flags into `r11`. -/
def entryFrame (u : Regs) : Nat → Word
  | 0 => u.r15
  | 1 => u.r14
  | 2 => u.r13
  | 3 => u.r12
  | 4 => u.eflags
  | 5 => u.r10
  | 6 => u.r9
  | 7 => u.r8
  | 8 => u.rdi
  | 9 => u.rsi
  | 10 => u.rbp
  | 11 => u.rbx
  | 12 => u.rdx
  | 13 => u.rip
  | 14 => u.rax
  | 15 => u.rsp
  | _ => 0

def syscallSnapshotUserRegs (t : Thread) (frame : Nat → Word) : Thread :=
  { t with
    frame := frame
    saved :=
      { r15 := frame 0, r14 := frame 1, r13 := frame 2, r12 := frame 3, r11 := frame 4,
        r10 := frame 5, r9 := frame 6, r8 := frame 7, rdi := frame 8, rsi := frame 9,
        rbp := frame 10, rbx := frame 11, rdx := frame 12, rcx := frame 13, rip := frame 13,
        rsp := frame 15 } }

/-- `syscall_entry64`, up to the call of `syscall_do`. -/
def syscallEntry64 (t : Thread) (u : Regs) : Thread := syscallSnapshotUserRegs t (entryFrame u)

/-- The saved register that belongs into a slot of the frame; not `rax`. -/
def Saved.slot (r : Saved) : Nat → Option Word
  | 0 => some r.r15
  | 1 => some r.r14
  | 2 => some r.r13
  | 3 => some r.r12
  | 4 => some r.r11
  | 5 => some r.r10
  | 6 => some r.r9
  | 7 => some r.r8
  | 8 => some r.rdi
  | 9 => some r.rsi
  | 10 => some r.rbp
  | 11 => some r.rbx
  | 12 => some r.rdx
  | 13 => some r.rcx
  | 15 => some r.rsp
  | _ => none

def rebuildSyscallFrame (t : Thread) : Thread :=
  { t with frame := fun i => (t.saved.slot i).getD (t.frame i) }

def USER_CS : Word := 0x1B
def USER_DS : Word := 0x23

def syscallPrepareIretFrame (t : Thread) : Thread :=
  let rip := t.frame 13
  let flags := t.frame 4 ||| 0x200
  let rsp := t.frame 15
  let t := if t.sigreturnRestoreGprs then
      { t with frame := update (update t.frame 13 t.sigreturnRcx) 4 t.sigreturnR11
               sigreturnRestoreGprs := false }
    else t
  let frame := update (update (update t.frame 15 rip) 16 USER_CS) 17 flags
  { t with frame := update (update frame 18 rsp) 19 USER_DS }

/-- The pops of `syscall_entry64` and `iretq`. -/
def popFrame (frame : Nat → Word) : Regs :=
  { r15 := frame 0, r14 := frame 1, r13 := frame 2, r12 := frame 3, r11 := frame 4, r10 := frame 5,
    r9 := frame 6, r8 := frame 7, rdi := frame 8, rsi := frame 9, rbp := frame 10, rbx := frame 11,
    rdx := frame 12, rcx := frame 13, rax := frame 14, rip := frame 15, eflags :=
    frame 17, rsp := frame 18 }

/-- `syscall_entry64` from `.ret_to_user` on, with `syscall_finalize_user_frame`. -/
def retToUser (t : Thread) (rax : Word) : Thread × Regs :=
  let t := { t with frame := update t.frame 14 rax }
  let t := { t with frame := update t.frame 12 t.saved.rdx }
  let t := syscallPrepareIretFrame t
  (t, popFrame t.frame)

/-! ## `rt_sigreturn` -/

/-- The assignments of `SYS_rt_sigreturn`: the slots of `rcx` and `r11` are those of `iretq`'s `rip`
and flags, and the registers themselves are kept apart. -/
def Thread.restoreContext (t : Thread) (sc : Regs) (mask : Word) : Thread :=
  { t with
    sigreturnRcx := sc.rcx
    sigreturnR11 := sc.r11
    sigreturnRestoreGprs := true
    saved :=
      { r8 := sc.r8, r9 := sc.r9, r10 := sc.r10, r11 := sc.eflags, r12 := sc.r12, r13 := sc.r13,
        r14 := sc.r14, r15 := sc.r15, rdi := sc.rdi, rsi := sc.rsi, rbp := sc.rbp, rbx := sc.rbx,
        rdx := sc.rdx, rcx := sc.rip, rip := sc.rip, rsp := sc.rsp }
    savedSigMask := mask }

/-- `SYS_rt_sigreturn`; the result is the error, or the thread and `sc->rax`. -/
def rtSigreturn (t : Thread) (m : PMem) : Option (Thread × Word) :=
  let ucPtr := t.saved.rsp.toNat
  if ucPtr < 0x200000 || MMIO_IDENTITY_LIMIT < ucPtr + UCONTEXT_SIZE then none
  else
    match copyFromUserRaw m ucPtr UCONTEXT_SIZE with
    | none => none
    | some bytes =>
      let (sc, mask) := ucontextOf bytes
      some (rebuildSyscallFrame (t.restoreContext sc mask), sc.rax)

def SYS_rt_sigreturn : Word := 15

/-- `syscall_sanitize_user_ret`, the last thing `syscall_do` does; `sc` is
`(int)last_syscall_debug`, the number of the system call that was started last, by any thread. -/
def syscallSanitizeUserRet (sc : BitVec 32) (ret : Word) : Word :=
  let sr := ret.toInt
  if 0 ≤ sr then
    if sr ≤ 0x7FFFFFFF && ret >>> 32 ≠ 0 then (ret.setWidth 32).setWidth 64 else ret
  else
    let e : BitVec 32 := (-ret).setWidth 32
    let keepEperm := sc = 112 || sc = 109 -- `setsid` and `setpgid`
    if (e = 1 || sr = -1) && !keepEperm then -2 else ret

/-! ## The machine -/

/-- A frame on a user stack: the action it was pushed for, the alternate stack at that time, its
place, the bytes of its context, and what was interrupted. -/
structure Pushed where
  sa : SigAction
  sas : AltStack
  start : Nat
  uc : Option (List Nat)
  ctx : Regs
  mask : Word

/-- What an `rt_sigreturn` was to resume, and what it has resumed: the context and mask of user mode
or, if another signal is delivered at its return, those in the frame of that signal. A thread that
is killed at the return resumes nothing. -/
structure Resumption where
  expected : Regs × Word
  actual : Regs × Word

structure Machine where
  k : Kernel
  /-- The registers in user mode. -/
  u : Regs
  pushed : List Pushed
  resumptions : List Resumption

inductive Op where
  /-- User code runs, of this thread or of others. -/
  | run (u : Regs) (mem : PMem)
  /-- Signals arrive. -/
  | signals (pending : Word)
  | sigaction (actions : Nat → SigAction)
  | sigaltstack (sas : AltStack)
  /-- A system call other than `rt_sigreturn`, with its effect on the mask, its result, and user
  memory after it. -/
  | call (mask : MaskOp) (ret : Word) (mem : PMem)
  /-- An interrupt, or a system call by `int 0x80` with its effect on the mask. -/
  | interrupt (mask : MaskOp)
  /-- `rt_sigreturn` by `SYSCALL`, from the frame with index `i`; `sc` as in
  `syscallSanitizeUserRet`. -/
  | sigreturn (i : Nat) (sc : BitVec 32)

/-- The context in user memory from which `rt_sigreturn` would resume. -/
def frameContext (m : PMem) (start : Nat) : Regs × Word :=
  let r := ucontextOf ((readBytes m (start + RT_SIGFRAME_UC_OFF) UCONTEXT_SIZE).getD [])
  (r.1.resumed, r.2)

def Pushed.of (k : Kernel) (sa : SigAction) (start : Nat) (ctx : Regs) (mask : Word) : Pushed :=
  ⟨sa, k.t.sas, start, readBytes k.mem (start + RT_SIGFRAME_UC_OFF) UCONTEXT_SIZE, ctx, mask⟩

/-- The context of a system call that starts again: at its `syscall` instruction, with its
number. -/
def Regs.restarted (r : Regs) (nr : Word) : Regs := { r with rip := r.rip - 2, rax := nr }

/-- A system call with the number `nr` that has returned `EINTR`, and is restartable under
`SA_RESTART`: it is none of those that wait with a time limit or a mask, and its instruction,
`0f 05`, is right before `rip`. -/
def restartable (sa : SigAction) (nr rip ret : Word) (mem : PMem) : Bool :=
  sa.flags &&& 0x10000000 ≠ 0 && ret = -4 && 2 ≤ rip.toNat
    && !([7, 23, 232, 270, 271, 281, 130].contains (nr.toNat % 2 ^ 32))
    && copyFromUserRaw mem (rip.toNat - 2) 2 == some [0x0f, 0x05]

/-- Back to user mode from a system call; `ctx` is the context to resume after a handler of each
action. -/
def Machine.leave (s : Machine) (k : Kernel) (ret : Word) (ctx : SigAction → Regs) (mask : Word) :
    Machine :=
  match maybeDeliverPendingSignal k ret with
  | none => s
  | some (k, _, outcome) =>
    let (t, u) := retToUser k.t ret
    let s := { s with k := { k with t := t }, u := u }
    match outcome with
    | .handler sa start => { s with pushed := .of k sa start (ctx sa) mask :: s.pushed }
    | _ => s

/-- Back to user mode from an interrupt. -/
def Machine.leaveInterrupt (s : Machine) (k : Kernel) (mask : Word) : Machine :=
  match maybeDeliverPendingSignalIretq k s.u with
  | none => s
  | some (k, u, outcome) =>
    match outcome with
    | .handler sa start =>
      { s with k := k, u := u, pushed := .of k sa start s.u.resumed mask :: s.pushed }
    | _ => { s with k := k, u := u }

/-- What the last step has resumed: another signal's frame, or user mode. -/
def Machine.resumed (before after : Machine) : Regs × Word :=
  if before.pushed.length < after.pushed.length then
    frameContext after.k.mem ((after.pushed.head?.map Pushed.start).getD 0)
  else (after.u, after.k.t.savedSigMask)

/-- A step in user mode, from there into the kernel and back. -/
def Machine.next (s : Machine) : Op → Machine
  | .run u mem => { s with u := u, k := { s.k with mem := mem } }
  | .signals pending => { s with k := { s.k with t := { s.k.t with pendingSignals := pending } } }
  | .sigaction actions => { s with k := { s.k with actions := actions } }
  | .sigaltstack sas => { s with k := { s.k with t := { s.k.t with sas := sas } } }
  | .call mask ret mem =>
    let t := (syscallEntry64 s.k.t s.u).apply mask
    let ctx := (retToUser t ret).2
    s.leave { s.k with t := t, mem := mem } ret
      (fun sa => if restartable sa s.u.rax s.u.rip ret mem then ctx.restarted s.u.rax else ctx)
      (s.k.t.maskAfter mask)
  | .interrupt mask => s.leaveInterrupt { s.k with t := s.k.t.apply mask } (s.k.t.maskAfter mask)
  | .sigreturn i sc =>
    let t := syscallEntry64 s.k.t s.u
    match rtSigreturn t s.k.mem with
    | none =>
      let ret := BitVec.ofInt 64 (-EFAULT)
      let ctx := (retToUser t ret).2
      s.leave { s.k with t := t } ret (fun _ => ctx) s.k.t.savedSigMask
    | some (t, rax) =>
      let ret := syscallSanitizeUserRet sc rax
      let ctx := ((s.pushed[i]?.map Pushed.ctx).getD (retToUser t ret).2)
      let mask := ((s.pushed[i]?.map Pushed.mask).getD t.savedSigMask)
      let s' := { s with pushed := s.pushed.eraseIdx i }
      let after := s'.leave { s.k with t := t } ret (fun _ => ctx) mask
      if after.k.t.terminated then after
      else { after with resumptions := ⟨(ctx, mask), s'.resumed after⟩ :: s.resumptions }

/-- A thread that has been terminated does nothing. -/
def Machine.step (s : Machine) (op : Op) : Machine := if s.k.t.terminated then s else s.next op

def Machine.exec (s : Machine) (ops : List Op) : Machine := ops.foldl Machine.step s

end AxonOS.Signal

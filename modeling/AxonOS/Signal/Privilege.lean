import AxonOS.Signal.RoundTrip

/-! # What `rt_sigreturn` lets a program choose

The flags of `iretq` are those of the context on the user stack: `rt_sigreturn` puts them into the
slot of `r11`, a signal at its return leaves the slot alone, and `syscall_prepare_iret_frame` sets
the interrupt flag and no other. The selectors are constants. So a program cannot leave ring 3, but
it chooses IOPL, NT and the virtual-8086 flags as it likes.
-/

namespace AxonOS.Signal

open Arch Lib Option
open Function (update)

/-- The flags that user code may change: CF, PF, AF, ZF, SF, TF, DF, OF, RF, AC and ID. -/
def userFlags : Word := 0x250DD5

/-- The other flags, among them IOPL, NT, VM, VIF and VIP. -/
def systemFlags (flags : Word) : Word := flags &&& ~~~ userFlags

/-- The flags in the context at the user stack pointer. -/
def contextFlags (t : Thread) (m : PMem) : Word :=
  (ucontextOf ((copyFromUserRaw m t.saved.rsp.toNat UCONTEXT_SIZE).getD [])).1.eflags

/-- The frame of the `iretq` at the end of an `rt_sigreturn` that succeeds, with the signals that
are delivered at its return; `sc` as in `syscallSanitizeUserRet`. -/
def sigreturnFrame (k : Kernel) (sc : BitVec 32) : Option (Nat → Word) := do
  let (t, rax) ← rtSigreturn k.t k.mem
  let ret := syscallSanitizeUserRet sc rax
  let (k, _, _) ← maybeDeliverPendingSignal { k with t := t } ret
  return (retToUser k.t ret).1.frame

/-- `iretq` goes to ring 3 and leaves interrupts enabled. -/
structure EntersUser (frame : Nat → Word) : Prop where
  cs : frame 16 = USER_CS
  ss : frame 19 = USER_DS
  interrupts : (frame 17).getLsbD 9 = true

/-- Two frames go to user mode with the same system flags. -/
def SamePrivilege (f1 f2 : Nat → Word) : Prop :=
  EntersUser f1 ∧ EntersUser f2 ∧ systemFlags (f1 17) = systemFlags (f2 17)

variable {k k' : Kernel} {t t' : Thread} {m : PMem}

/-! ## The way of the flags -/

theorem rtSigreturn_flags {rax : Word} (h : rtSigreturn t m = some (t', rax)) :
    t'.frame 4 = contextFlags t m := by
  unfold rtSigreturn at h
  dsimp only at h
  split at h
  · cases h
  split at h
  · cases h
  · next bytes hbytes =>
    obtain ⟨rfl, _⟩ := Prod.mk.inj (some.inj h)
    unfold contextFlags
    rw [hbytes]
    rfl

theorem enterHandler_flags (t : Thread) (sig : Nat) (sa : SigAction) (start : Nat) :
    (enterHandler t sig sa start).frame 4 = t.frame 4 := by
  unfold enterHandler
  split <;> rfl

theorem deliverAtSyscall_flags (ret : Word) (k : Kernel) (sig : Nat) (sa : SigAction) :
    (deliverAtSyscall ret k sig sa).1.t.frame 4 = k.t.frame 4 := by
  have hgive : ∀ k : Kernel, (giveUp k ()).1.t.frame 4 = k.t.frame 4 := by
    intro k
    unfold giveUp
    rw [sigwaitRestoreSavedMask_eq]
  unfold deliverAtSyscall
  dsimp only
  split
  · exact hgive k
  · split
    · exact hgive k
    · split
      · exact hgive _
      · exact enterHandler_flags k.t sig sa _

/-- A signal at the return of a system call does not change the flags. -/
theorem maybeDeliverPendingSignal_flags {ret : Word} {u : Unit} {outcome : Outcome}
    (h : maybeDeliverPendingSignal k ret = some (k', u, outcome)) : k'.t.frame 4 = k.t.frame 4 := by
  obtain ⟨p, actions, ⟨heq, -⟩ | ⟨heq, -⟩ | ⟨sig, sa, heq, -⟩⟩ := deliverLoop_cases h
  · cases heq
    rw [sigwaitRestoreSavedMask_eq]
    rfl
  · cases heq
    rw [sigwaitRestoreSavedMask_eq]
    rfl
  · have hk := congrArg (fun r => r.1.t.frame 4) heq
    exact hk.trans (deliverAtSyscall_flags ret _ sig sa)

theorem retToUser_frame (t : Thread) (ret : Word) :
    (retToUser t ret).1.frame 16 = USER_CS ∧ (retToUser t ret).1.frame 19 = USER_DS
      ∧ (retToUser t ret).1.frame 17 = t.frame 4 ||| IF := by
  unfold retToUser syscallPrepareIretFrame
  dsimp only
  split <;> exact ⟨rfl, rfl, rfl⟩

/-- An `rt_sigreturn` that succeeds goes to user mode, with the flags of the context. -/
theorem sigreturnFrame_spec (sc : BitVec 32) (h : (rtSigreturn k.t m).isSome = true) :
    ∃ f, sigreturnFrame { k with mem := m } sc = some f ∧ EntersUser f
    ∧ f 17 = contextFlags k.t m ||| IF := by
  obtain ⟨⟨t, rax⟩, hreturn⟩ := isSome_iff_exists.mp h
  obtain ⟨⟨k', _, outcome⟩, hdeliver⟩ :
      ∃ r, maybeDeliverPendingSignal { k with t := t, mem := m }
      (syscallSanitizeUserRet sc rax) = some r :=
    deliverLoop_isSome (Nat.lt_succ_of_le (card_signalsOf_le _))
  obtain ⟨hcs, hss, hflags⟩ := retToUser_frame k'.t (syscallSanitizeUserRet sc rax)
  rw [maybeDeliverPendingSignal_flags hdeliver, rtSigreturn_flags hreturn] at hflags
  refine ⟨(retToUser k'.t (syscallSanitizeUserRet sc rax)).1.frame, ?_, ⟨hcs, hss, ?_⟩, hflags⟩
  · unfold sigreturnFrame
    rw [hreturn]
    dsimp only [bind_eq_bind, bind_some]
    rw [hdeliver]
    rfl
  · rw [hflags, BitVec.getLsbD_or]
    exact Bool.or_true _

/-- **The system flags do not depend on the context, if and only if the contexts agree on them.** -/
theorem sigreturn_privilege_iff (k : Kernel) (m1 m2 : PMem) (sc1 sc2 : BitVec 32)
    (h1 : (rtSigreturn k.t m1).isSome = true) (h2 : (rtSigreturn k.t m2).isSome = true) :
    ∃ f1 f2, sigreturnFrame { k with mem := m1 } sc1 = some f1
      ∧ sigreturnFrame { k with mem := m2 } sc2 = some f2
      ∧ (SamePrivilege f1 f2
        ↔ systemFlags (contextFlags k.t m1 ||| IF) = systemFlags (contextFlags k.t m2 ||| IF)) := by
  obtain ⟨f1, hf1, huser1, hflags1⟩ := sigreturnFrame_spec sc1 h1
  obtain ⟨f2, hf2, huser2, hflags2⟩ := sigreturnFrame_spec sc2 h2
  refine ⟨f1, f2, hf1, hf2, ?_⟩
  unfold SamePrivilege
  rw [hflags1, hflags2]
  constructor
  · exact fun h => h.2.2
  · exact fun h => ⟨huser1, huser2, h⟩

/-! ## A context with IOPL 3 -/

/-- A context with these flags. -/
def contextWith (flags : Word) : KUcontext :=
  { ssSp := 0, ssFlags := SS_DISABLE, ssSize := 0, sigmask := 0
    mcontext := { running 0 with eflags := flags } }

/-- Memory with the context on the stack. -/
def stackWith (flags : Word) : PMem :=
  (writeBytes (fun _ => some 0) (frameAt + RT_SIGFRAME_UC_OFF)
    (encode (contextWith flags).fields)).1

/-- A thread in its restorer, with the stack pointer at the context. -/
def inRestorer : Kernel :=
  let saved := { waiting.saved with rsp := BitVec.ofNat 64 (frameAt + RT_SIGFRAME_UC_OFF) }
  ⟨{ waiting with pendingSignals := 0, saved := saved }, fun _ => handled, fun _ => some 0⟩

theorem inRestorer_returns (flags : Word) :
      (rtSigreturn inRestorer.t (stackWith flags)).isSome = true
      ∧ contextFlags inRestorer.t (stackWith flags) = flags := by
  have hread : readBytes (stackWith flags) (frameAt + RT_SIGFRAME_UC_OFF) UCONTEXT_SIZE
      = some (encode (contextWith flags).fields) := by
    rw [← length_encode_ucontext (contextWith flags)]
    exact readBytes_writeBytes (writeBytes_iff.mpr fun _ _ _ => rfl)
  have hreturn := rtSigreturn_eq (t := inRestorer.t) (by decide) (by decide) rfl hread
    (ucontextOf_encode _)
  rw [hreturn, ← rtSigreturn_flags hreturn]
  exact ⟨rfl, rfl⟩

/-- Contexts that differ in CF and TF. -/
theorem sigreturn_privilege_user_flags : (rtSigreturn inRestorer.t (stackWith 0x202)).isSome = true
      ∧ (rtSigreturn inRestorer.t (stackWith 0x303)).isSome = true
      ∧ ∃ f1 f2, sigreturnFrame { inRestorer with mem := stackWith 0x202 } 15 = some f1
        ∧ sigreturnFrame { inRestorer with mem := stackWith 0x303 } 15 = some f2
        ∧ SamePrivilege f1 f2 := by
  obtain ⟨h1, hflags1⟩ := inRestorer_returns 0x202
  obtain ⟨h2, hflags2⟩ := inRestorer_returns 0x303
  obtain ⟨f1, f2, hf1, hf2, hiff⟩ := sigreturn_privilege_iff inRestorer _ _ 15 15 h1 h2
  rw [hflags1, hflags2] at hiff
  exact ⟨h1, h2, f1, f2, hf1, hf2, hiff.mpr (by decide)⟩

/-- A context with IOPL 3 puts IOPL 3 into the frame. -/
theorem sigreturn_raises_iopl :
      ∃ f1 f2, sigreturnFrame { inRestorer with mem := stackWith 0x202 } 15 = some f1
      ∧ sigreturnFrame { inRestorer with mem := stackWith 0x3202 } 15 = some f2
      ∧ f1 17 = 0x202 ∧ f2 17 = 0x3202 ∧ ¬ SamePrivilege f1 f2 := by
  obtain ⟨h1, hflags1⟩ := inRestorer_returns 0x202
  obtain ⟨h2, hflags2⟩ := inRestorer_returns 0x3202
  obtain ⟨f1, hf1, _, heq1⟩ := sigreturnFrame_spec 15 h1
  obtain ⟨f2, hf2, _, heq2⟩ := sigreturnFrame_spec 15 h2
  rw [hflags1] at heq1
  rw [hflags2] at heq2
  refine ⟨f1, f2, hf1, hf2, heq1, heq2, fun hsame => ?_⟩
  have hsystem := hsame.2.2
  rw [heq1, heq2] at hsystem
  revert hsystem
  decide

end AxonOS.Signal

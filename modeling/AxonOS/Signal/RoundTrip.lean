import AxonOS.Signal.Steps
import AxonOS.Lib.Run

/-! # What `rt_sigreturn` resumes

A frame holds the context and the mask that were interrupted (`Holds`), whichever way the kernel was
left, and a handler that returns with its frame unmodified resumes them. Two things get in the way,
both because `rt_sigreturn` is a system call like others. Its result, the `rax` of the interrupted
context, goes through `syscall_sanitize_user_ret`, which takes -1 for the error `EPERM` and makes it
`ENOENT`. And if another signal is delivered at its return, a result of `-EINTR` makes it an
interrupted call that is to be started again.
-/

namespace AxonOS.Signal

open Arch Lib List Option
open Function (update)

/-! ## The invariant -/

structure Holds (d : Pushed) : Prop where
  lo : 0x200000 ≤ d.start
  hi : d.start + RT_SIGFRAME_SIZE ≤ USER_STACK_TOP + 64 * PAGE_SIZE_2M
  stored : ∃ bytes sc, d.uc = some bytes ∧ ucontextOf bytes = (sc, d.mask) ∧ sc.resumed = d.ctx

/-- The thread is dead, or it is settled in user mode and all its frames hold what was
interrupted. -/
def Sound (s : Machine) : Prop :=
  s.k.t.terminated = true ∨ (Settled s.k.t ∧ ∀ d ∈ s.pushed, Holds d)

/-- A handler returns to `rt_sigreturn` through the restorer, with its frame unmodified. -/
def Valid (s : Machine) : Op → Prop
  | .sigreturn i _ =>
    s.u.rax = SYS_rt_sigreturn
      ∧ ∃ d, s.pushed[i]? = some d ∧ s.u.rsp = BitVec.ofNat 64 (d.start + RT_SIGFRAME_UC_OFF)
        ∧ readBytes s.k.mem (d.start + RT_SIGFRAME_UC_OFF) UCONTEXT_SIZE = d.uc
  | .call _ _ _ => s.u.rax ≠ SYS_rt_sigreturn
  | _ => True

/-- Every `rt_sigreturn` has resumed the context and the mask that were interrupted. -/
def Resumes (s : Machine) : Prop := ∀ r ∈ s.resumptions, r.actual = r.expected

/-- The way out of the kernel after the return from the frame with the index `i`, to the context and
the mask `c`. -/
def Machine.returnExit (s : Machine) (i : Nat) (c : Regs × Word) : Exit :=
  ⟨s.k.t.pendingSignals, c.2, s.k.actions, s.k.t.sas, s.k.mem, c.1.rsp, c.1.rip ≠ 0,
    s.pushed.eraseIdx i⟩

/-- A result that is not taken for the error `EPERM`: it is not negative, or its low word is not -1,
or the last system call was `setsid` or `setpgid`. -/
def Survives (sc : BitVec 32) (rax : Word) : Prop :=
  0 ≤ rax.toInt ∨ rax.setWidth 32 ≠ -1 ∨ sc = 112 ∨ sc = 109

/-- Unless the next signal kills the thread, the interrupted `rax` is not taken for an error, and no
frame is pushed for an action under which `rt_sigreturn`, with this `rax` as its result, is a call
that is to be started again. -/
def Undisturbed (s : Machine) : Op → Prop
  | .sigreturn i sc => s.k.t.terminated = false → ∀ d, s.pushed[i]? = some d →
    fate s.k.t.pendingSignals d.mask s.k.actions ≠ .killed → Survives sc d.ctx.rax ∧ ∀ sa,
      (s.returnExit i (d.ctx, d.mask)).Pushes sa →
      restartable sa SYS_rt_sigreturn d.ctx.rip d.ctx.rax s.k.mem = false
  | _ => True

theorem sanitize_eq_iff (sc : BitVec 32) (rax : Word) :
    syscallSanitizeUserRet sc rax = rax ↔ Survives sc rax := by
  have hlow : (-rax).setWidth 32 = 1 ↔ rax.setWidth 32 = -1 := by
    constructor <;> intro h <;> bv_omega
  unfold syscallSanitizeUserRet Survives
  dsimp only
  split
  next hpos =>
    refine iff_of_true ?_ (.inl hpos)
    rw [if_neg]
    rw [Bool.and_eq_true, decide_eq_true_eq, decide_eq_true_eq]
    rintro ⟨hle, hhigh⟩
    refine hhigh (BitVec.eq_of_toNat_eq ?_)
    rw [BitVec.toInt_eq_toNat_cond] at hle hpos
    rw [BitVec.toNat_ushiftRight, Nat.shiftRight_eq_div_pow]
    split_ifs at hle hpos <;> simp <;> omega
  next hneg =>
    have hminus : rax.toInt = -1 → rax.setWidth 32 = -1 := by
      intro h
      obtain rfl : rax = -1 := BitVec.eq_of_toInt_eq h
      rfl
    split
    next hcond =>
      refine iff_of_false (fun h => ?_) ?_
      · subst h
        revert hcond
        simp
      · simp only [Bool.and_eq_true, Bool.or_eq_true, decide_eq_true_eq, Bool.not_eq_true',
          Bool.or_eq_false_iff, decide_eq_false_iff_not] at hcond
        tauto
    next hcond =>
      refine iff_of_true rfl ?_
      simp only [Bool.and_eq_true, Bool.or_eq_true, decide_eq_true_eq, Bool.not_eq_true',
          Bool.or_eq_false_iff, decide_eq_false_iff_not] at hcond
      tauto

theorem restarts_eq (k : Kernel) (sa : SigAction) (ret : Word) :
    restarts k sa ret = restartable sa (k.t.frame 14) k.t.saved.rip ret k.mem := by
  have heintr : BitVec.ofInt 64 (-EINTR) = -4 := by decide
  unfold restarts restartable syscallIsNorestart
  rw [heintr]
  rfl

theorem Exit.Pushes.unique {e : Exit} {sa sa' : SigAction} (h : e.Pushes sa) (h' : e.Pushes sa') :
    sa' = sa := by
  obtain ⟨sig, hfate⟩ := h.caught
  obtain ⟨sig', hfate'⟩ := h'.caught
  rw [hfate] at hfate'
  cases hfate'
  rfl

theorem Exit.Pushes.not_killed {e : Exit} {sa : SigAction} (h : e.Pushes sa) :
    fate e.pending e.mask e.actions ≠ .killed := by
  obtain ⟨sig, hfate⟩ := h.caught
  rw [hfate]
  exact nofun

/-! ## Steps -/

variable {s s' : Machine} {t : Thread} {stored u : Regs} {d : Pushed} {i : Nat} {rax : Word}
    {sc : BitVec 32}

theorem InHandler.holds (h : InHandler s s' t stored d) (hctx : stored.resumed = d.ctx)
    (hmask : t.frameMask = d.mask) : Holds d := by
  obtain ⟨bytes, huc, hbytes⟩ := h.stored
  refine ⟨(rtFrameStart_bounds h.placed (frame_inside h.inside)).1, h.inside, bytes,
    stored, huc, ?_, hctx⟩
  rw [hbytes, hmask]

theorem InHandler.sound (h : InHandler s s' t stored d) (hd : Holds d)
    (hs : ∀ d ∈ s.pushed, Holds d) :
    Sound s' := by
  refine .inr ⟨h.settled, ?_⟩
  rw [h.pushed]
  exact forall_mem_cons.mpr ⟨hd, hs⟩

theorem Back.sound (h : Back s s' t u) (hs : ∀ d ∈ s.pushed, Holds d) : Sound s' := by
  refine .inr ⟨h.settled, fun d hd => hs d ?_⟩
  rw [h.pushed] at hd
  exact hd

theorem restarted_resumed (t : Thread) (ret : Word) : (syscallContext t ret true).resumed
      = ((syscallContext t ret false).resumed).restarted (t.frame 14) := rfl

theorem step_of_dead {op : Op} (h : s.k.t.terminated = true) : s.step op = s := by
  unfold Machine.step
  rw [h]
  rfl

theorem step_of_alive {op : Op} (h : s.k.t.terminated = false) : s.step op = s.next op := by
  unfold Machine.step
  rw [h]
  rfl

/-- Another system call: a frame that it leaves holds the context of its return. -/
theorem sound_call (hsettled : Settled s.k.t) (hframes : ∀ d ∈ s.pushed, Holds d)
    (halive : s.k.t.terminated = false) (mask : MaskOp) (ret : Word) (mem : PMem) :
    Sound (s.next (.call mask ret mem)) ∧ (s.next (.call mask ret mem)).resumptions
    = s.resumptions := by
  have hentry : Settled (syscallEntry64 s.k.t s.u) := ⟨hsettled.1, hsettled.2, hsettled.3⟩
  have hmask : ((syscallEntry64 s.k.t s.u).apply mask).frameMask = s.k.t.maskAfter mask :=
    frameMask_apply hentry mask
  obtain ⟨hframe, hsaved, _, hterm, _⟩ := apply_same (syscallEntry64 s.k.t s.u) mask
  have hsynced := (synced_entry s.k.t s.u).congr hframe hsaved
  have hresumed := retToUser_resumes hsynced ret
  have hnr : ((syscallEntry64 s.k.t s.u).apply mask).frame 14 = s.u.rax := congrFun hframe 14
  have hrip : ((syscallEntry64 s.k.t s.u).apply mask).saved.rip = s.u.rip :=
    congrArg Saved.rip hsaved
  unfold Machine.next
  rcases leave_cases s { s.k with t := (syscallEntry64 s.k.t s.u).apply mask, mem := mem } ret _ _
    (hterm.trans halive) (apply_one hentry mask) with
    ⟨-, hdead⟩ | ⟨-, -, hback⟩ | ⟨k', sa, start, -, hin⟩
  · exact ⟨.inl hdead.terminated, hdead.resumptions⟩
  · exact ⟨hback.sound hframes, hback.resumptions⟩
  refine ⟨hin.sound (hin.holds ?_ hmask) hframes, hin.resumptions⟩
  rw [restarts_eq, hnr, hrip]
  change _ = ite _ _ _
  cases restartable sa s.u.rax s.u.rip ret mem with
  | false => exact hresumed.symm
  | true =>
    rw [restarted_resumed, ← hresumed, hnr]
    rfl

theorem sound_interrupt (hsettled : Settled s.k.t) (hframes : ∀ d ∈ s.pushed, Holds d)
    (halive : s.k.t.terminated = false) (mask : MaskOp) :
    Sound (s.next (.interrupt mask)) ∧ (s.next (.interrupt mask)).resumptions = s.resumptions := by
  obtain ⟨_, _, _, hterm, hgprs⟩ := apply_same s.k.t mask
  have hmask := frameMask_apply hsettled mask
  unfold Machine.next
  rcases leaveInterrupt_cases s { s.k with t := s.k.t.apply mask } (s.k.t.maskAfter mask)
    (hterm.trans halive) (apply_one hsettled mask) (hgprs.trans hsettled.sigreturnRestoreGprs) with
    ⟨-, hdead⟩ | ⟨-, hback⟩ | ⟨k', sa, start, -, hin⟩
  · exact ⟨.inl hdead.terminated, hdead.resumptions⟩
  · exact ⟨hback.sound hframes, hback.resumptions⟩
  · exact ⟨hin.sound (hin.holds rfl hmask) hframes, hin.resumptions⟩

/-! ## The return of a handler -/

theorem resumed_rax_iff (sc : Regs) (ret : Word) :
    { sc with rax := ret }.resumed = sc.resumed ↔ ret = sc.rax := by
  constructor
  · exact fun h => congrArg Regs.rax h
  · rintro rfl
    rfl

theorem resumed_restart_ne (sc : Regs) (nr : Word) :
    { sc with rax := nr, rip := sc.rip - 2 }.resumed ≠ sc.resumed := by
  intro h
  have hrip : sc.rip - 2 = sc.rip := congrArg Regs.rip h
  bv_omega

theorem next_sigreturn (sc : BitVec 32) (hd : s.pushed[i]? = some d)
    (heq : rtSigreturn (syscallEntry64 s.k.t s.u) s.k.mem = some (t, rax)) :
    let s1 : Machine := { s with pushed := s.pushed.eraseIdx i }
    let after := s1.leave { s.k with t := t } (syscallSanitizeUserRet sc rax)
      (fun _ => d.ctx) d.mask
    s.next (.sigreturn i sc) = if after.k.t.terminated then after
      else { after with resumptions := ⟨(d.ctx, d.mask), s1.resumed after⟩ :: s.resumptions } := by
  unfold Machine.next
  dsimp only
  rw [heq]
  rw [hd]
  rfl

theorem Back.resumed_eq (h : Back s s' t u) : s.resumed s' = (u, t.frameMask) := by
  unfold Machine.resumed
  rw [h.pushed, if_neg (Nat.lt_irrefl _), h.u, h.mask]

theorem InHandler.resumed_eq (h : InHandler s s' t stored d) :
    s.resumed s' = (stored.resumed, t.frameMask) := by
  obtain ⟨bytes, huc, hbytes⟩ := h.stored
  have hlt : s.pushed.length < (d :: s.pushed).length := Nat.lt_succ_self _
  unfold Machine.resumed frameContext
  rw [h.pushed, if_pos hlt]
  dsimp only [head?_cons, map_some, getD_some]
  rw [← h.uc, huc, getD_some, hbytes]

theorem Resumes.congr (hs : Resumes s) (h : s'.resumptions = s.resumptions) : Resumes s' :=
    fun r hr => hs r (h ▸ hr)

/-- A resumption that is added is right if and only if all are. -/
theorem resumes_cons {r : Resumption} (hs : Resumes s) (h : s'.resumptions = r :: s.resumptions) :
    Resumes s' ↔ r.actual = r.expected := by
  unfold Resumes
  rw [h, forall_mem_cons]
  exact and_iff_left hs

/-- **A handler's return resumes what was interrupted, if and only if it is undisturbed.** -/
theorem sigreturn_iff (hsettled : Settled s.k.t) (hframes : ∀ d ∈ s.pushed, Holds d)
    (halive : s.k.t.terminated = false) (hgood : Resumes s) (hvalid : Valid s (.sigreturn i sc)) :
    (Resumes (s.step (.sigreturn i sc)) ↔ Undisturbed s (.sigreturn i sc))
      ∧ (Undisturbed s (.sigreturn i sc) → Sound (s.step (.sigreturn i sc))) := by
  obtain ⟨hnr, d, hd, hrsp, hmem⟩ := hvalid
  obtain ⟨hlo, hhi, bytes, c, huc, hbytes, hctx⟩ := hframes d (mem_of_getElem? hd)
  have hreturn : rtSigreturn (syscallEntry64 s.k.t s.u) s.k.mem
      = some ((syscallEntry64 s.k.t s.u).returned c d.mask, c.rax) :=
    rtSigreturn_eq hlo hhi hrsp (hmem.trans huc) hbytes
  have hmask := frameMask_returned (t := syscallEntry64 s.k.t s.u) c d.mask hsettled.1 hsettled.2
  have hframes1 : ∀ d' ∈ s.pushed.eraseIdx i, Holds d' :=
    fun d' hd' => hframes d' (mem_of_mem_eraseIdx hd')
  have hstep := (step_of_alive halive).trans (next_sigreturn sc hd hreturn)
  have huser := retToUser_resumes (synced_returned (syscallEntry64 s.k.t s.u) c d.mask)
    (syscallSanitizeUserRet sc c.rax)
  have hrax : c.rax = d.ctx.rax := by rw [← hctx]; rfl
  have hpair : (({ c with rax := syscallSanitizeUserRet sc c.rax }.resumed, d.mask) : Regs × Word)
      = (d.ctx, d.mask) ↔ Survives sc d.ctx.rax := by
    rw [Prod.mk.injEq, ← hctx, resumed_rax_iff, and_iff_left rfl]
    exact sanitize_eq_iff sc c.rax
  have hexit : Kernel.syscallExit { s.k with t := (syscallEntry64 s.k.t s.u).returned c d.mask }
      (s.pushed.eraseIdx i) = s.returnExit i (d.ctx, d.mask) := by
    unfold Machine.returnExit
    rw [← hctx]
    rfl
  -- what the condition says of this frame
  have hcond : Undisturbed s (.sigreturn i sc) ↔
      (fate s.k.t.pendingSignals d.mask s.k.actions ≠ .killed → Survives sc d.ctx.rax ∧ ∀ sa,
      (s.returnExit i (d.ctx, d.mask)).Pushes sa →
        restartable sa SYS_rt_sigreturn d.ctx.rip d.ctx.rax s.k.mem = false) := by
    constructor
    · exact fun h => h halive d hd
    · intro h _ d' hd'
      obtain rfl := some.inj (hd.symm.trans hd')
      exact h
  rcases leave_cases { s with pushed := s.pushed.eraseIdx i }
    { s.k with t := (syscallEntry64 s.k.t s.u).returned c d.mask } (syscallSanitizeUserRet sc c.rax)
    (fun _ => d.ctx) d.mask halive (.inl hsettled.1) with
    ⟨hkill, hdead⟩ | ⟨hkill, hnot, hback⟩ | ⟨k', sa, start, hpush, hin⟩
  · rw [if_pos hdead.terminated] at hstep
    refine ⟨iff_of_true ?_ (hcond.mpr fun h => absurd hkill h), fun _ => .inl ?_⟩
    · rw [hstep]
      exact hgood.congr hdead.resumptions
    · rw [hstep]
      exact hdead.terminated
  · rw [if_neg (by rw [hback.terminated.trans halive]; decide), hback.resumed_eq,
      huser, hmask] at hstep
    replace hkill : fate s.k.t.pendingSignals d.mask s.k.actions ≠ .killed := hkill
    refine ⟨?_, fun _ => ?_⟩
    · rw [resumes_cons hgood (by rw [hstep]), hcond, forall_prop_of_true hkill]
      exact hpair.trans (iff_self_and.mpr fun _ sa hpush => absurd (hexit ▸ hpush) (hnot sa))
    · rw [hstep]
      exact hback.sound hframes1
  · rw [if_neg (by rw [hin.terminated.trans halive]; decide), hin.resumed_eq, hmask] at hstep
    rw [hexit] at hpush
    have hkill : fate s.k.t.pendingSignals d.mask s.k.actions ≠ .killed := hpush.not_killed
    rw [forall_prop_of_true hkill] at hcond
    have hrestart : Survives sc d.ctx.rax →
        restarts { s.k with t := (syscallEntry64 s.k.t s.u).returned c d.mask } sa
          (syscallSanitizeUserRet sc c.rax)
          = restartable sa SYS_rt_sigreturn d.ctx.rip d.ctx.rax s.k.mem := by
      intro hsurvives
      rw [hrax, (sanitize_eq_iff sc d.ctx.rax).mpr hsurvives, restarts_eq, ← hnr, ← hctx]
      rfl
    cases hr : restarts { s.k with t := (syscallEntry64 s.k.t s.u).returned c d.mask } sa
        (syscallSanitizeUserRet sc c.rax) with
    | true =>
      rw [hr] at hstep hrestart
      have hnot : ¬ Undisturbed s (.sigreturn i sc) := by
        intro hu
        obtain ⟨hsurvives, hno⟩ := hcond.mp hu
        exact Bool.noConfusion ((hrestart hsurvives).trans (hno sa hpush))
      refine ⟨iff_of_false ?_ hnot, fun hu => absurd hu hnot⟩
      rw [resumes_cons hgood (by rw [hstep])]
      intro hsame
      exact resumed_restart_ne c _ ((congrArg Prod.fst hsame).trans hctx.symm)
    | false =>
      rw [hr] at hstep hrestart hin
      have hiff : Undisturbed s (.sigreturn i sc) ↔ Survives sc d.ctx.rax := by
        rw [hcond]
        refine and_iff_left_of_imp fun hsurvives sa' hpush' => ?_
        rw [hpush.unique hpush', ← hrestart hsurvives]
      refine ⟨?_, fun hu => ?_⟩
      · rw [resumes_cons hgood (by rw [hstep]), hiff]
        exact hpair
      · rw [hstep]
        refine hin.sound (hin.holds ?_ hmask) hframes1
        exact congrArg Prod.fst (hpair.mpr (hiff.mp hu))

/-- **A step keeps what is resumed right if and only if it is undisturbed.** -/
theorem step_resumes_iff (op : Op) (hs : Sound s) (hgood : Resumes s) (hvalid : Valid s op) :
    (Resumes (s.step op) ↔ Undisturbed s op) ∧ (Undisturbed s op → Sound (s.step op)) := by
  cases halive : s.k.t.terminated with
  | true =>
    rw [step_of_dead halive]
    refine ⟨iff_of_true hgood ?_, fun _ => hs⟩
    cases op with
    | sigreturn i sc => exact fun h => by rw [halive] at h; cases h
    | _ => trivial
  | false =>
    obtain hdead | ⟨hsettled, hframes⟩ := hs
    · rw [halive] at hdead
      cases hdead
    cases op with
    | sigreturn i sc => exact sigreturn_iff hsettled hframes halive hgood hvalid
    | call mask ret mem =>
      obtain ⟨hsound, hres⟩ := sound_call hsettled hframes halive mask ret mem
      rw [step_of_alive halive]
      exact ⟨iff_of_true (hgood.congr hres) trivial, fun _ => hsound⟩
    | interrupt mask =>
      obtain ⟨hsound, hres⟩ := sound_interrupt hsettled hframes halive mask
      rw [step_of_alive halive]
      exact ⟨iff_of_true (hgood.congr hres) trivial, fun _ => hsound⟩
    | _ =>
      rw [step_of_alive halive]
      exact ⟨iff_of_true hgood trivial,
        fun _ => .inr ⟨⟨hsettled.1, hsettled.2, hsettled.3⟩, hframes⟩⟩

/-- **Handlers resume what they interrupted, if and only if all their returns are undisturbed**:
over all runs in which handlers return with their frames unmodified. -/
theorem sigreturn_resumes_iff (s : Machine) (ops : List Op) (hs : Sound s) (hgood : Resumes s)
    (hvalid : RunMeets Machine.step Valid s ops) :
    (∀ pre post, ops = pre ++ post → Resumes (s.exec pre)) ↔
    RunMeets Machine.step Undisturbed s ops :=
  run_good_iff (fun _ op hs hgood hvalid => step_resumes_iff op hs hgood hvalid) hs hgood hvalid

/-! ## A handler that returns -/

/-- User code with a value in `rax`. -/
def running (rax : Word) : Regs :=
  ⟨0, 0, 0, 0, 0, 0, 0, 0, 0, 0, 0, 0, 0, rax, 0, 0x50000000, 0x401000, 0x202⟩

/-- A handler without flags. -/
def handled : SigAction := { handler := 0x402000, restorer := 0x403000, flags := 0, mask := 0 }

/-- Signal 10 is pending. -/
def waiting : Thread :=
  { terminated := false, pendingSignals := 0x200, savedSigMask := 0, sas := ⟨0, 0, 2⟩,
    suspendActive := false, suspendOldMask := 0, restoreSigmask := false, savedSigmaskOrig := 0,
    saved := ⟨0, 0, 0, 0, 0, 0, 0, 0, 0, 0, 0, 0, 0, 0, 0, 0⟩,
    sigreturnRestoreGprs := false, sigreturnRcx := 0, sigreturnR11 := 0, frame := fun _ => 0 }

def signalled (rax : Word) : Machine :=
  ⟨⟨waiting, fun _ => handled, fun _ => some 0⟩, running rax, [], []⟩

/-- The place of the frame. -/
def frameAt : Nat := 0x4FFFFDB8

/-- The handler returns to the restorer. -/
def handlerReturns (rax : Word) : Op :=
  .run { running 15 with rsp := BitVec.ofNat 64 (frameAt + RT_SIGFRAME_UC_OFF) }
    ((signalled rax).step (.interrupt .keep)).k.mem

/-- An interrupt, in which the signal is delivered, and the return of the handler. -/
def oneSignal (rax : Word) : List Op := [.interrupt .keep, handlerReturns rax, .sigreturn 0 15]

/-- The machine when the handler has returned to the restorer. -/
def atRestorer : Machine := ((signalled 0).step (.interrupt .keep)).step (handlerReturns 0)

/-- The frame is unmodified, its `rax` is no error, and no signal is pending. -/
theorem atRestorer_facts : (atRestorer.u.rax = SYS_rt_sigreturn
        ∧ ∃ d ∈ atRestorer.pushed[0]?, atRestorer.u.rsp
          = BitVec.ofNat 64 (d.start + RT_SIGFRAME_UC_OFF)
          ∧ readBytes atRestorer.k.mem (d.start + RT_SIGFRAME_UC_OFF) UCONTEXT_SIZE = d.uc)
      ∧ (∀ d ∈ atRestorer.pushed[0]?, d.ctx.rax = 0) ∧ atRestorer.k.t.pendingSignals = 0 := by
  decide +kernel

theorem fate_of_none (mask : Word) (actions : Nat → SigAction) : fate 0 mask actions = .spared := by
  have hnext : nextSignal 0 mask actions = none := by simp [nextSignal]
  rw [fate, hnext]

/-- Code with 0 in `rax` is resumed as it was. -/
theorem resumes_oneSignal : Resumes ((signalled 0).exec (oneSignal 0)) := by
  obtain ⟨hreturns, hrax, hpending⟩ := atRestorer_facts
  have hvalid : Valid atRestorer (.sigreturn 0 15) := hreturns
  have hundisturbed : Undisturbed atRestorer (.sigreturn 0 15) := by
    refine fun _ d hd _ => ⟨.inl ?_, fun sa hpush => ?_⟩
    · rw [hrax d hd]
      decide
    · obtain ⟨sig, hfate⟩ := hpush.caught
      rw [Machine.returnExit, hpending, fate_of_none] at hfate
      cases hfate
  refine (sigreturn_resumes_iff (signalled 0) (oneSignal 0) (.inr ⟨⟨rfl, rfl, rfl⟩, nofun⟩) nofun
    ?_).mpr ?_ _ [] (append_nil _).symm
  all_goals
    unfold oneSignal
    rw [runMeets_cons, runMeets_cons, runMeets_cons]
  · exact ⟨trivial, trivial, hvalid, runMeets_nil _⟩
  · exact ⟨trivial, trivial, hundisturbed, runMeets_nil _⟩

/-- Code with -1 in `rax` is resumed with -2. -/
theorem minus_one_resumed_as_minus_two : ∃ r ∈ ((signalled (-1)).exec (oneSignal (-1))).resumptions,
      r.expected.1.rax = -1 ∧ r.actual.1.rax = -2 := by
  decide +kernel

end AxonOS.Signal

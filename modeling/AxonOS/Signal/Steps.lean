import AxonOS.Signal.Deliver

/-! # What leaving the kernel can do

Both ways out of the kernel go through one loop, which takes signals without a handler away until it
finds nothing to deliver, a signal that kills the thread, or a handler. Which of them is decided by
the pending signals, the mask and the actions before (`fate`). So there are three ways out, and in
the last of them, if there is a place for it (`Exit.Pushes`), a frame with the interrupted context
is on a user stack (`Entered`).
-/

namespace AxonOS.Signal

open Arch Lib List Option Nat Bool
open Function (update)

/-! ## Which signal is delivered -/

/-- A signal that is thrown away: it is ignored, or it has no handler and kills nobody, or its
handler is implausible. -/
def discarded (sig : Nat) (sa : SigAction) : Bool :=
  handlerOf sig sa = 1 || (handlerOf sig sa = 0 && !signalDefaultFatal sig)
    || !sighandlerUserPlausible (handlerOf sig sa)

inductive Fate where
  | spared
  | killed
  | caught (sig : Nat) (sa : SigAction)

/-- The lowest signal that is pending, not blocked, and not thrown away. -/
def nextSignal (pending mask : Word) (actions : Nat → SigAction) : Option Nat :=
  ((List.range 64).map (· + 1)).find? fun sig =>
    (pending &&& ~~~ (mask &&& ~~~ (sigBit SIGKILL ||| sigBit SIGSTOP))).getLsbD (sig - 1)
      && !discarded sig (actions sig)

/-- What this signal does to the thread. -/
def fate (pending mask : Word) (actions : Nat → SigAction) : Fate :=
  match nextSignal pending mask actions with
  | none => .spared
  | some sig =>
    if handlerOf sig (actions sig) = 0 then .killed
    else if (actions sig).restorer = 0 then .spared
    else .caught sig (actions sig)

theorem fate_caught {pending mask : Word} {actions : Nat → SigAction} {sig : Nat} {sa : SigAction}
    (h : fate pending mask actions = .caught sig sa) : sa = actions sig := by
  unfold fate at h
  split at h
  · cases h
  · split_ifs at h
    cases h
    rfl

def Kernel.fate (k : Kernel) : Fate := Signal.fate k.t.pendingSignals k.t.savedSigMask k.actions

/-! ## The loop -/

def Thread.withPending (t : Thread) (p : Word) : Thread := { t with pendingSignals := p }

variable {sig start : Nat} {t t' : Thread} {m : PMem} {sa : SigAction} {k : Kernel} {sc : Regs}

theorem firstSignal_mem {set : Word} (h : firstSignal set = some sig) :
    1 ≤ sig ∧ sig ≤ 64 ∧ set.getLsbD (sig - 1) = true := by
  have hmem := mem_of_find?_eq_some h
  have hbit := find?_some h
  obtain ⟨i, hi, rfl⟩ := mem_map.mp hmem
  have := mem_range.mp hi
  exact ⟨by omega, by omega, hbit⟩

theorem nextSignal_of_first {actions : Nat → SigAction} (h : firstSignal t.deliverable = some sig)
    (hkept : discarded sig (actions sig) = false) :
    nextSignal t.pendingSignals t.savedSigMask actions = some sig := by
  obtain ⟨hbit, pre, post, hl, hpre⟩ := find?_eq_some_iff_append.mp h
  refine find?_eq_some_iff_append.mpr ⟨?_, pre, post, hl, fun x hx => ?_⟩
  · rw [hkept]
    exact (Bool.and_true _).trans hbit
  · have hnot := hpre x hx
    rw [not_eq_true'] at hnot ⊢
    exact and_eq_false_imp.mpr fun hbit => by rw [Thread.deliverable] at hnot; simp [hnot] at hbit

/-- A signal that is thrown away does not matter. -/
theorem fate_consume {actions actions' : Nat → SigAction} (h : firstSignal t.deliverable = some sig)
    (hgone : discarded sig (actions sig) = true) (hothers : ∀ x, x ≠ sig → actions' x = actions x) :
    fate (t.consume sig).pendingSignals t.savedSigMask actions'
      = fate t.pendingSignals t.savedSigMask actions := by
  obtain ⟨h1, h64, -⟩ := firstSignal_mem h
  have hnext : nextSignal (t.consume sig).pendingSignals t.savedSigMask actions'
      = nextSignal t.pendingSignals t.savedSigMask actions := by
    refine find?_congr fun x hx => ?_
    obtain ⟨i, hi, rfl⟩ := mem_map.mp hx
    have := mem_range.mp hi
    by_cases heq : i + 1 = sig
    · subst heq
      simp [hgone, Thread.consume, sigBit, this]
    · have hbit : (sigBit sig)[i] = false := by
        simp only [sigBit, BitVec.getElem_shiftLeft, BitVec.getElem_one]
        grind
      simp [hothers _ heq, Thread.consume, hbit, this]
  unfold fate
  rw [hnext]
  cases hsig : nextSignal t.pendingSignals t.savedSigMask actions with
  | none => rfl
  | some x =>
    have hkept := find?_some hsig
    have hx : x ≠ sig := by
      rintro rfl
      simp [hgone] at hkept
    dsimp only
    rw [hothers x hx]

/-- The handler of a signal that is caught is an address in user code. -/
theorem handler_plausible {h : Word} (hp : sighandlerUserPlausible h = true)
    (h0 : h ≠ 0) (h1 : h ≠ 1) :
    0x10000 ≤ h.toNat := by
  unfold sighandlerUserPlausible at hp
  rw [if_neg (by simp only [or_eq_true, decide_eq_true_eq]; tauto), and_eq_true,
    decide_eq_true_eq] at hp
  exact hp.1

theorem handlerOf_eq (h : handlerOf sig sa ≠ 0) : handlerOf sig sa = sa.handler := by
  unfold handlerOf at h ⊢
  dsimp only at h ⊢
  split_ifs at h ⊢ <;> simp_all

/-- What one round of the loop does, and what that says about the fate of the thread. -/
theorem signalPrepareNext_cases (t : Thread) (actions : Nat → SigAction) :
    (signalPrepareNext t actions = (.nothing, t, actions)
        ∧ (t.terminated = false → fate t.pendingSignals t.savedSigMask actions = .spared))
      ∨ (∃ sig sa, signalPrepareNext t actions = (.handler sig sa, t, actions)
        ∧ fate t.pendingSignals t.savedSigMask actions = .caught sig sa
        ∧ 0x10000 ≤ sa.handler.toNat)
      ∨ (∃ sig actions', firstSignal t.deliverable = some sig
          ∧ signalPrepareNext t actions = (.retry, t.consume sig, actions')
          ∧ fate (t.consume sig).pendingSignals t.savedSigMask actions'
            = fate t.pendingSignals t.savedSigMask actions)
      ∨ (signalPrepareNext t actions
        = (.fatal, { t.withPending 0 with terminated := true }, actions)
        ∧ fate t.pendingSignals t.savedSigMask actions = .killed) := by
  unfold signalPrepareNext
  split
  next hterm => exact .inl ⟨rfl, fun halive => by simp [halive] at hterm⟩
  split
  next hnone =>
    refine .inl ⟨rfl, fun _ => ?_⟩
    have hnext : nextSignal t.pendingSignals t.savedSigMask actions = none := by
      refine find?_eq_none.mpr fun x hx hbit => ?_
      rw [and_eq_true] at hbit
      exact find?_eq_none.mp hnone x hx hbit.1
    rw [fate, hnext]
  next sig hsig =>
  have hfate : discarded sig (actions sig) = false → fate t.pendingSignals t.savedSigMask actions =
      if handlerOf sig (actions sig) = 0 then .killed
      else if (actions sig).restorer = 0 then .spared else .caught sig (actions sig) := by
    intro hkept
    rw [fate, nextSignal_of_first hsig hkept]
  dsimp only
  split_ifs with hplausible hone hzero hfatal hrestorer
  · exact .inr (.inr (.inl ⟨sig, _, hsig, rfl, fate_consume hsig (by simp_all [discarded])
      fun x hx => Function.update_of_ne hx _ _⟩))
  · exact .inr
      (.inr (.inl ⟨sig, _, hsig, rfl, fate_consume hsig (by simp_all [discarded]) fun _ _ => rfl⟩))
  · refine .inr (.inr (.inr ⟨rfl, ?_⟩))
    rw [hfate (by simp_all [discarded]), if_pos hzero]
  · exact .inr
      (.inr (.inl ⟨sig, _, hsig, rfl, fate_consume hsig (by simp_all [discarded]) fun _ _ => rfl⟩))
  · refine .inl ⟨rfl, fun _ => ?_⟩
    rw [hfate (by simp_all [discarded]), if_neg hzero, if_pos hrestorer]
  · refine .inr (.inl ⟨sig, _, rfl, ?_, ?_⟩)
    · rw [hfate (by simp_all [discarded]), if_neg hzero, if_neg hrestorer]
    · rw [← handlerOf_eq hzero]
      exact handler_plausible (by simpa using hplausible) hzero hone

section Loop

variable {α : Type} {a : α} {deliver : Kernel → Nat → SigAction → Kernel × α × Outcome}

variable {fuel : Nat} {k : Kernel}

/-- The three ways out of the loop. Before that, only the pending signals and the actions have
changed. -/
theorem deliverLoop_cases {r : Kernel × α × Outcome} (h : deliverLoop a deliver fuel k = some r) :
      ∃ p actions,
      (r = (⟨sigwaitRestoreSavedMask (k.t.withPending p), actions, k.mem⟩, a, .resume)
          ∧ (k.t.terminated = false → k.fate = .spared))
        ∨ (r = (⟨sigwaitRestoreSavedMask { k.t.withPending p with terminated := true }, actions,
            k.mem⟩, a, .dead) ∧ k.fate = .killed)
        ∨ ∃ sig sa, r = deliver ⟨k.t.withPending p, actions, k.mem⟩ sig sa ∧ k.fate = .caught sig sa
          ∧ 0x10000 ≤ sa.handler.toNat := by
  induction fuel generalizing k with
  | zero => cases h
  | succ fuel ih =>
    rw [deliverLoop] at h
    rcases signalPrepareNext_cases k.t k.actions with ⟨heq, hfate⟩ | ⟨sig, sa, heq, hfate⟩
      | ⟨sig, actions, _, heq, hfate⟩ | ⟨heq, hfate⟩
    · rw [heq] at h
      exact ⟨k.t.pendingSignals, k.actions, .inl ⟨(some.inj h).symm, hfate⟩⟩
    · rw [heq] at h
      exact ⟨k.t.pendingSignals, k.actions, .inr (.inr ⟨sig, sa, (some.inj h).symm, hfate⟩)⟩
    · rw [heq] at h
      have hcases := ih (k := ⟨k.t.consume sig, actions, k.mem⟩) h
      rw [Kernel.fate] at hcases
      dsimp only at hcases
      rwa [show (k.t.consume sig).savedSigMask = k.t.savedSigMask from rfl, hfate] at hcases
    · rw [heq] at h
      exact ⟨0, k.actions, .inr (.inl ⟨(some.inj h).symm, hfate⟩)⟩

/-- The signals of a set. -/
def signalsOf (set : Word) : Finset Nat := (Finset.range 64).filter fun i => set.getLsbD i = true

theorem card_signalsOf_le (set : Word) : (signalsOf set).card ≤ 64 := by
  calc (signalsOf set).card ≤ (Finset.range 64).card := Finset.card_filter_le _ _
    _ = 64 := Finset.card_range 64

theorem card_consume_lt (h : firstSignal t.deliverable = some sig) :
    (signalsOf (t.consume sig).pendingSignals).card < (signalsOf t.pendingSignals).card := by
  obtain ⟨h1, h64, hbit⟩ := firstSignal_mem h
  have hpending : t.pendingSignals.getLsbD (sig - 1) = true := by
    unfold Thread.deliverable at hbit
    rw [BitVec.getLsbD_and, and_eq_true] at hbit
    exact hbit.1
  have hcleared : (t.consume sig).pendingSignals.getLsbD (sig - 1) = false := by
    have hlt : sig - 1 < 64 := by omega
    simp [Thread.consume, sigBit, hlt]
  apply Finset.card_lt_card
  refine Finset.ssubset_iff_subset_ne.mpr ⟨fun i hi => ?_, fun heq => ?_⟩
  · obtain ⟨hmem, hset⟩ := Finset.mem_filter.mp hi
    refine Finset.mem_filter.mpr ⟨hmem, ?_⟩
    rw [Thread.consume, BitVec.getLsbD_and, and_eq_true] at hset
    exact hset.1
  · have hin : sig - 1 ∈ signalsOf t.pendingSignals :=
      Finset.mem_filter.mpr ⟨Finset.mem_range.mpr (by omega), hpending⟩
    rw [← heq] at hin
    rw [(Finset.mem_filter.mp hin).2] at hcleared
    cases hcleared

/-- **The loop ends**: a round for every pending signal, and one more. -/
theorem deliverLoop_isSome (h : (signalsOf k.t.pendingSignals).card < fuel) :
    ∃ r, deliverLoop a deliver fuel k = some r := by
  induction fuel generalizing k with
  | zero => omega
  | succ fuel ih =>
    rw [deliverLoop]
    rcases signalPrepareNext_cases k.t k.actions with ⟨heq, -⟩ | ⟨sig, sa, heq, -⟩
      | ⟨sig, actions, hsig, heq, -⟩ | ⟨heq, -⟩
    · rw [heq]
      exact ⟨_, rfl⟩
    · rw [heq]
      exact ⟨_, rfl⟩
    · rw [heq]
      have := card_consume_lt hsig
      exact ih (by dsimp only; omega)
    · rw [heq]
      exact ⟨_, rfl⟩

end Loop

/-! ## Masks -/

/-- A thread in user mode: no temporary mask, and no registers of an `rt_sigreturn` left to
restore. -/
structure Settled (t : Thread) : Prop where
  suspendActive : t.suspendActive = false
  restoreSigmask : t.restoreSigmask = false
  sigreturnRestoreGprs : t.sigreturnRestoreGprs = false

/-- `sigwait_restore_saved_mask` changes the mask only. -/
theorem sigwaitRestoreSavedMask_eq (t : Thread) : sigwaitRestoreSavedMask t =
      { t with savedSigMask := (sigwaitRestoreSavedMask t).savedSigMask
               suspendActive := false, restoreSigmask := false } := by
  obtain ⟨_, _, _, _, active, _, restore, _, _, _, _, _, _⟩ := t
  cases active <;> cases restore <;> rfl

theorem sigwaitRestoreSavedMask_mask (h : t.suspendActive = false ∨ t.restoreSigmask = false) :
    (sigwaitRestoreSavedMask t).savedSigMask = t.frameMask := by
  unfold sigwaitRestoreSavedMask Thread.frameMask
  rcases h with h | h
  · cases hr : t.restoreSigmask <;> simp [h, hr]
  · cases t.suspendActive <;> simp [h]

/-- **The mask of a frame is the one before the temporary mask.** -/
theorem frameMask_apply (h : Settled t) (op : MaskOp) :
    (t.apply op).frameMask = t.maskAfter op := by
  cases op <;>
    simp [Thread.apply, Thread.frameMask, Thread.maskAfter, sigwaitBeginSet, h.suspendActive,
      h.restoreSigmask]

theorem apply_one (h : Settled t) (op : MaskOp) :
    (t.apply op).suspendActive = false ∨ (t.apply op).restoreSigmask = false := by
  cases op with
  | keep | set mask => exact .inl h.suspendActive
  | suspend mask => exact .inr h.restoreSigmask
  | wait mask =>
    left
    simp [Thread.apply, sigwaitBeginSet, h.suspendActive, h.restoreSigmask]

/-- A call's effect on the mask leaves the rest of the thread alone. -/
theorem apply_same (t : Thread) (op : MaskOp) :
    (t.apply op).frame = t.frame ∧ (t.apply op).saved = t.saved ∧ (t.apply op).sas = t.sas
      ∧ (t.apply op).terminated = t.terminated
      ∧ (t.apply op).sigreturnRestoreGprs = t.sigreturnRestoreGprs := by
  cases op with
  | wait mask =>
    unfold Thread.apply sigwaitBeginSet
    cases t.restoreSigmask <;> exact ⟨rfl, rfl, rfl, rfl, rfl⟩
  | _ => exact ⟨rfl, rfl, rfl, rfl, rfl⟩

/-- The mask while the call waits, a temporary one included. -/
def Thread.inForce (t : Thread) : MaskOp → Word
  | .keep => t.savedSigMask
  | .set mask | .suspend mask | .wait mask => mask

theorem apply_inForce (t : Thread) (op : MaskOp) :
    (t.apply op).savedSigMask = t.inForce op ∧ (t.apply op).pendingSignals = t.pendingSignals := by
  cases op with
  | wait mask =>
    unfold Thread.apply sigwaitBeginSet
    cases t.restoreSigmask <;> exact ⟨rfl, rfl⟩
  | _ => exact ⟨rfl, rfl⟩

/-! ## Frames with the interrupted context -/

/-- The kernel is left with a handler of `sa`: the frame at `start` holds `ctx` and the mask. -/
structure Entered (k k' : Kernel) (ctx : Regs) (sa : SigAction) (start : Nat) : Prop where
  placed : rtFrameStart (signalPickHandlerRsp k.t.sas sa ctx.rsp) = some start
  inside : start + RT_SIGFRAME_SIZE ≤ USER_STACK_TOP + 64 * PAGE_SIZE_2M
  stored : ∃ bytes, readBytes k'.mem (start + RT_SIGFRAME_UC_OFF) UCONTEXT_SIZE = some bytes
    ∧ ucontextOf bytes = (ctx, k.t.frameMask)
  suspendActive : k'.t.suspendActive = false
  restoreSigmask : k'.t.restoreSigmask = false
  sas : k'.t.sas = k.t.sas
  terminated : k'.t.terminated = k.t.terminated

theorem signalWriteRtFrame_spec {m' : PMem} {rsp : Word}
    (h : signalWriteRtFrame m t sig sa rsp sc = (m', some start)) :
    rtFrameStart rsp = some start
      ∧ start + RT_SIGFRAME_SIZE ≤ USER_STACK_TOP + 64 * PAGE_SIZE_2M
      ∧ ∃ bytes, readBytes m' (start + RT_SIGFRAME_UC_OFF) UCONTEXT_SIZE = some bytes
          ∧ ucontextOf bytes = (sc, t.frameMask) := by
  unfold signalWriteRtFrame at h
  split at h
  · cases h
  next start' hstart =>
  dsimp only at h
  split at h
  · cases h
  · next m'' hwrite =>
      obtain ⟨rfl, heq⟩ := Prod.mk.inj h
      obtain rfl := some.inj heq
      obtain ⟨hinside, hread⟩ := writeFrame_spec (rtFrameStart_lt hstart) hwrite
      exact ⟨hstart, hinside, _, hread, ucontextOf_encode _⟩

theorem signalWriteRtFrame_iff (m : PMem) (t : Thread) (sig : Nat) (sa : SigAction)
    (rsp : Word) (sc : Regs) :
    (signalWriteRtFrame m t sig sa rsp sc).2.isSome = true ↔ ∃ start, rtFrameStart rsp = some start
    ∧ Accessible m start := by
  unfold signalWriteRtFrame
  cases hstart : rtFrameStart rsp with
  | none => exact iff_of_false (by simp) fun ⟨_, h, _⟩ => by cases h
  | some start =>
    have hlt := rtFrameStart_lt hstart
    have hlo := rtFrameStart_ge hstart
    dsimp only
    rw [show (∃ start', some start = some start' ∧ Accessible m start') ↔
      Accessible m start by simp, ← writeFrame_iff (by omega) hlt]
    split
    next hwrite => rw [hwrite]; simp
    next hwrite => rw [hwrite]; simp

theorem enterHandler_same (t : Thread) (sig : Nat) (sa : SigAction) (start : Nat) :
    (enterHandler t sig sa start).frame 15 = BitVec.ofNat 64 start
      ∧ (enterHandler t sig sa start).sas = t.sas
      ∧ (enterHandler t sig sa start).terminated = t.terminated := by
  unfold enterHandler
  dsimp only
  refine ⟨Function.update_self _ _ _, ?_, ?_⟩ <;> split <;> rfl

/-- Which signals are pending does not matter. -/
theorem Entered.withPending {k' : Kernel} {ctx : Regs} {p : Word} {actions : Nat → SigAction}
    (h : Entered ⟨k.t.withPending p, actions, k.mem⟩ k' ctx sa start) : Entered k k' ctx sa start :=
  { h with }

/-- What a way out of the kernel starts from: the pending signals, the mask in force, the actions,
the alternate stack, user memory, the interrupted stack pointer, whether the interrupted instruction
is one that a signal may interrupt, and the frames that have not been returned to. -/
structure Exit where
  pending : Word
  mask : Word
  actions : Nat → SigAction
  sas : AltStack
  mem : PMem
  rsp : Word
  code : Bool
  frames : List Pushed

/-- A frame for the action is pushed: its signal is the one that is caught, and there is a place for
the frame. -/
structure Exit.Pushes (e : Exit) (sa : SigAction) : Prop where
  caught : ∃ sig, fate e.pending e.mask e.actions = .caught sig sa
  code : e.code = true
  rsp : e.rsp ≠ 0
  place : ∃ start, rtFrameStart (signalPickHandlerRsp e.sas sa e.rsp) = some start
      ∧ Accessible e.mem start

def Kernel.exit (k : Kernel) (rsp : Word) (code : Bool) (frames : List Pushed) : Exit :=
  ⟨k.t.pendingSignals, k.t.savedSigMask, k.actions, k.t.sas, k.mem, rsp, code, frames⟩

/-- There is a place for a frame. -/
def Kernel.HasPlace (k : Kernel) (rsp : Word) (code : Bool) (sa : SigAction) : Prop :=
  code = true ∧ rsp ≠ 0
    ∧ ∃ start, rtFrameStart (signalPickHandlerRsp k.t.sas sa rsp) = some start
    ∧ Accessible k.mem start

/-- At the return of a system call a handler has been entered. -/
def SyscallEntered (ret : Word) (k : Kernel) (sa : SigAction) (r : Kernel × Unit × Outcome) :
    Prop :=
  ∃ start, r.2.2 = .handler sa start
    ∧ Entered k r.1 (syscallContext k.t ret (restarts k sa ret)) sa start
    ∧ r.1.t.frame 15 = BitVec.ofNat 64 start

theorem deliverAtSyscall_cases (ret : Word) (k : Kernel) (sig : Nat)
    (hsa : 0x10000 ≤ sa.handler.toNat) :
    (¬ k.HasPlace k.t.saved.rsp (k.t.saved.rip ≠ 0) sa
        ∧ ∃ m, deliverAtSyscall ret k sig sa = giveUp { k with mem := m } ())
      ∨ (k.HasPlace k.t.saved.rsp (k.t.saved.rip ≠ 0) sa
        ∧ SyscallEntered ret k sa (deliverAtSyscall ret k sig sa)) := by
  unfold deliverAtSyscall
  split
  next hzero =>
    refine .inl ⟨fun ⟨hcode, hrsp, _⟩ => ?_, k.mem, rfl⟩
    simp_all
  next hzero =>
  have hnonzero : k.t.saved.rsp ≠ 0 ∧ k.t.saved.rip ≠ 0 := by simpa using hzero
  have hwrites :=
    signalWriteRtFrame_iff k.mem k.t sig sa (signalPickHandlerRsp k.t.sas sa k.t.saved.rsp)
    (syscallContext k.t ret (restarts k sa ret))
  dsimp only
  rw [if_neg (by omega)]
  split
  next m hwrite =>
    refine .inl ⟨fun ⟨_, _, hplace⟩ => ?_, m, rfl⟩
    have := hwrites.mpr hplace
    rw [hwrite] at this
    cases this
  next m start hwrite =>
    obtain ⟨hplaced, hinside, hstored⟩ := signalWriteRtFrame_spec hwrite
    obtain ⟨hframe, hsas, hterm⟩ := enterHandler_same k.t sig sa start
    refine .inr ⟨⟨by simpa using hnonzero.2, hnonzero.1, hwrites.mp (by rw [hwrite]; rfl)⟩, start,
      rfl, ?_, hframe⟩
    exact ⟨hplaced, hinside, hstored, rfl, rfl, hsas, hterm⟩

/-- At the return of an interrupt a handler has been entered. -/
def InterruptEntered (regs : Regs) (k : Kernel) (sa : SigAction) (r : Kernel × Regs × Outcome) :
    Prop :=
  ∃ start, r.2.2 = .handler sa start ∧ Entered k r.1 regs sa start
    ∧ r.2.1.rsp = BitVec.ofNat 64 start
    ∧ r.1.t.sigreturnRestoreGprs = k.t.sigreturnRestoreGprs

theorem deliverAtInterrupt_cases (regs : Regs) (k : Kernel) (sig : Nat)
    (hsa : 0x10000 ≤ sa.handler.toNat) :
    (¬ k.HasPlace regs.rsp (0x10000 ≤ regs.rip.toNat) sa
        ∧ ∃ m, deliverAtInterrupt regs k sig sa = giveUp { k with mem := m } regs)
      ∨ (k.HasPlace regs.rsp (0x10000 ≤ regs.rip.toNat) sa
        ∧ InterruptEntered regs k sa (deliverAtInterrupt regs k sig sa)) := by
  unfold deliverAtInterrupt
  rw [if_neg (by omega)]
  split
  next hzero =>
    refine .inl ⟨fun ⟨hcode, hrsp, _⟩ => ?_, k.mem, rfl⟩
    simp_all
  next hzero =>
  split
  next hrip =>
    refine .inl ⟨fun ⟨hcode, _⟩ => ?_, k.mem, rfl⟩
    rw [decide_eq_true_eq] at hcode
    omega
  next hrip =>
  have hwrites :=
    signalWriteRtFrame_iff k.mem k.t sig sa (signalPickHandlerRsp k.t.sas sa regs.rsp) regs
  split
  next m hwrite =>
    refine .inl ⟨fun ⟨_, _, hplace⟩ => ?_, m, rfl⟩
    have := hwrites.mpr hplace
    rw [hwrite] at this
    cases this
  next m start hwrite =>
    obtain ⟨hplaced, hinside, hstored⟩ := signalWriteRtFrame_spec hwrite
    refine .inr
      ⟨⟨by rw [decide_eq_true_eq]; omega, by simp_all, hwrites.mp (by rw [hwrite]; rfl)⟩, start,
      rfl, ?_⟩
    exact ⟨⟨hplaced, hinside, hstored, rfl, rfl, rfl, rfl⟩, rfl, rfl⟩

/-- Both delivery functions end in one of three ways, where `P` is what `deliver` does if there is a
place for the frame. -/
theorem deliverLoop_ways {α : Type} {a : α} {rsp : Word} {code : Bool} (frames : List Pushed)
    {deliver : Kernel → Nat → SigAction → Kernel × α × Outcome}
    {P : Kernel → SigAction → Kernel × α × Outcome → Prop} (k : Kernel)
    (halive : k.t.terminated = false) (hdeliver : ∀ p actions sig sa, 0x10000 ≤ sa.handler.toNat →
      (¬ k.HasPlace rsp code sa ∧ ∃ m, deliver ⟨k.t.withPending p, actions, k.mem⟩ sig sa
          = giveUp ⟨k.t.withPending p, actions, m⟩ a)
        ∨ (k.HasPlace rsp code sa
          ∧ P k sa (deliver ⟨k.t.withPending p, actions, k.mem⟩ sig sa))) :
    ∃ k' x outcome, deliverLoop a deliver 65 k = some (k', x, outcome)
      ∧ ((outcome = .resume ∧ x = a ∧ (∃ p, k'.t = sigwaitRestoreSavedMask (k.t.withPending p))
          ∧ k.fate ≠ .killed ∧ ∀ sa, ¬ (k.exit rsp code frames).Pushes sa)
        ∨ (outcome = .dead ∧ k'.t.terminated = true ∧ k.fate = .killed)
        ∨ ∃ sa, (k.exit rsp code frames).Pushes sa ∧ P k sa (k', x, outcome)) := by
  obtain ⟨⟨k', x, outcome⟩, h⟩ : ∃ r, deliverLoop a deliver 65 k = some r :=
    deliverLoop_isSome (lt_succ_of_le (card_signalsOf_le k.t.pendingSignals))
  refine ⟨k', x, outcome, h, ?_⟩
  obtain ⟨p, actions, ⟨heq, hfate⟩ | ⟨heq, hfate⟩ | ⟨sig, sa, heq, hfate, hsa⟩⟩ :=
    deliverLoop_cases h
  · cases heq
    refine .inl ⟨rfl, rfl, ⟨p, rfl⟩, by rw [hfate halive]; nofun, fun sa hpush => ?_⟩
    obtain ⟨sig, hcaught⟩ := hpush.caught
    cases (hfate halive).symm.trans hcaught
  · cases heq
    refine .inr (.inl ⟨rfl, ?_, hfate⟩)
    rw [sigwaitRestoreSavedMask_eq]
  · rcases hdeliver p actions sig sa hsa with ⟨hnot, m, hgive⟩ | ⟨hplace, hP⟩
    · cases heq.trans hgive
      refine .inl ⟨rfl, rfl, ⟨p, rfl⟩, by rw [hfate]; nofun, fun sa hpush => ?_⟩
      obtain ⟨⟨sig, hcaught⟩, hcode, hrsp, hplace⟩ := hpush
      cases hfate.symm.trans hcaught
      exact hnot ⟨hcode, hrsp, hplace⟩
    · exact .inr (.inr ⟨sa, ⟨⟨sig, hfate⟩, hplace.1, hplace.2.1, hplace.2.2⟩, heq ▸ hP⟩)

/-! ## The way out of a system call -/

/-- The live frame and the saved registers are the same. -/
structure Synced (t : Thread) : Prop where
  frame : (rebuildSyscallFrame t).frame = t.frame
  rip : t.saved.rip = t.saved.rcx

theorem Synced.congr (h : Synced t) (hframe : t'.frame = t.frame) (hsaved : t'.saved = t.saved) :
    Synced t' := by
  refine ⟨?_, by rw [hsaved, h.rip]⟩
  have hsame : (rebuildSyscallFrame t').frame = (rebuildSyscallFrame t).frame := by
    unfold rebuildSyscallFrame
    rw [hframe, hsaved]
  rw [hsame, h.frame, hframe]

theorem synced_entry (t : Thread) (u : Regs) : Synced (syscallEntry64 t u) := by
  refine ⟨funext fun i => ?_, rfl⟩
  unfold rebuildSyscallFrame Saved.slot
  dsimp only
  split <;> rfl

/-- **What delivery saves is what a return would restore.** -/
theorem retToUser_resumes (h : Synced t) (ret : Word) :
    (retToUser t ret).2 = (syscallContext t ret false).resumed := by
  have hrip := h.rip
  calc (retToUser t ret).2
      = (retToUser { t with frame := (rebuildSyscallFrame t).frame } ret).2 := by rw [h.frame]
    _ = (syscallContext t ret false).resumed := by
        obtain ⟨_, _, _, _, _, _, _, _, saved, restore, _, _, _⟩ := t
        cases restore
        · exact Regs.ext rfl rfl rfl rfl rfl rfl rfl rfl rfl rfl rfl rfl rfl rfl rfl
            rfl hrip.symm rfl
        · exact Regs.ext rfl rfl rfl rfl rfl rfl rfl rfl rfl rfl rfl rfl rfl rfl rfl
            rfl hrip.symm rfl

theorem retToUser_same (t : Thread) (ret : Word) : (retToUser t ret).1.sigreturnRestoreGprs = false
      ∧ (retToUser t ret).1.suspendActive = t.suspendActive
      ∧ (retToUser t ret).1.restoreSigmask = t.restoreSigmask
      ∧ (retToUser t ret).1.savedSigMask = t.savedSigMask ∧ (retToUser t ret).1.sas = t.sas
      ∧ (retToUser t ret).1.terminated = t.terminated ∧ (retToUser t ret).2.rsp = t.frame 15 := by
  obtain ⟨_, _, _, _, _, _, _, _, saved, restore, _, _, _⟩ := t
  cases restore <;> exact ⟨rfl, rfl, rfl, rfl, rfl, rfl, rfl⟩

/-- The registers depend on the frame and on what is to be restored only. -/
theorem retToUser_regs (ret : Word) (hframe : t'.frame = t.frame) (hsaved : t'.saved = t.saved)
    (hrestore : t'.sigreturnRestoreGprs = t.sigreturnRestoreGprs)
    (hrcx : t'.sigreturnRcx = t.sigreturnRcx) (hr11 : t'.sigreturnR11 = t.sigreturnR11) :
    (retToUser t' ret).2 = (retToUser t ret).2 := by
  obtain ⟨_, _, _, _, _, _, _, _, saved, restore, _, _, frame⟩ := t
  subst hframe hsaved hrestore hrcx hr11
  cases h : t'.sigreturnRestoreGprs <;> simp [retToUser, syscallPrepareIretFrame, h]

/-- The way out of the kernel from a system call. -/
def Kernel.syscallExit (k : Kernel) (frames : List Pushed) : Exit :=
  k.exit k.t.saved.rsp (k.t.saved.rip ≠ 0) frames

theorem maybeDeliverPendingSignal_cases (k : Kernel) (ret : Word) (frames : List Pushed)
    (halive : k.t.terminated = false) :
    ∃ k' x outcome, maybeDeliverPendingSignal k ret = some (k', x, outcome)
      ∧ ((outcome = .resume ∧ x = () ∧ (∃ p, k'.t = sigwaitRestoreSavedMask (k.t.withPending p))
          ∧ k.fate ≠ .killed ∧ ∀ sa, ¬ (k.syscallExit frames).Pushes sa)
        ∨ (outcome = .dead ∧ k'.t.terminated = true ∧ k.fate = .killed)
        ∨ ∃ sa, (k.syscallExit frames).Pushes sa ∧ SyscallEntered ret k sa (k', x, outcome)) := by
  refine deliverLoop_ways (P := SyscallEntered ret) frames k halive ?_
  intro p actions sig sa hsa
  refine (deliverAtSyscall_cases ret ⟨k.t.withPending p, actions, k.mem⟩ sig hsa).imp_right ?_
  rintro ⟨hplace, start, hr, hentered, hframe⟩
  exact ⟨hplace, start, hr, hentered.withPending, hframe⟩

/-- The way out of the kernel from an interrupt. -/
def Kernel.interruptExit (k : Kernel) (regs : Regs) (frames : List Pushed) : Exit :=
  k.exit regs.rsp (0x10000 ≤ regs.rip.toNat) frames

theorem maybeDeliverPendingSignalIretq_cases (k : Kernel) (regs : Regs) (frames : List Pushed)
    (halive : k.t.terminated = false) :
    ∃ k' u outcome, maybeDeliverPendingSignalIretq k regs = some (k', u, outcome)
      ∧ ((outcome = .resume ∧ u = regs ∧ (∃ p, k'.t = sigwaitRestoreSavedMask (k.t.withPending p))
          ∧ k.fate ≠ .killed ∧ ∀ sa, ¬ (k.interruptExit regs frames).Pushes sa)
        ∨ (outcome = .dead ∧ k'.t.terminated = true ∧ k.fate = .killed)
        ∨ ∃ sa, (k.interruptExit regs frames).Pushes sa
          ∧ InterruptEntered regs k sa (k', u, outcome)) := by
  rw [maybeDeliverPendingSignalIretq, if_neg (by simp [halive])]
  refine deliverLoop_ways (P := InterruptEntered regs) frames k halive ?_
  intro p actions sig sa hsa
  refine (deliverAtInterrupt_cases regs ⟨k.t.withPending p, actions, k.mem⟩ sig hsa).imp_right ?_
  rintro ⟨hplace, start, hr, hentered, hrest⟩
  exact ⟨hplace, start, hr, hentered.withPending, hrest⟩

/-! ## The machine back in user mode -/

/-- The thread never comes back. -/
structure Dead (s s' : Machine) : Prop where
  terminated : s'.k.t.terminated = true
  pushed : s'.pushed = s.pushed
  resumptions : s'.resumptions = s.resumptions

/-- Back in user mode with the registers `u`, from the thread `t` in the kernel. -/
structure Back (s s' : Machine) (t : Thread) (u : Regs) : Prop where
  pushed : s'.pushed = s.pushed
  resumptions : s'.resumptions = s.resumptions
  u : s'.u = u
  mask : s'.k.t.savedSigMask = t.frameMask
  settled : Settled s'.k.t
  sas : s'.k.t.sas = t.sas
  terminated : s'.k.t.terminated = t.terminated

/-- In a handler, with the context `stored` in the frame `d`, from the thread `t` in the kernel. -/
structure InHandler (s s' : Machine) (t : Thread) (stored : Regs) (d : Pushed) : Prop where
  pushed : s'.pushed = d :: s.pushed
  resumptions : s'.resumptions = s.resumptions
  armed : d.sas = t.sas
  placed : rtFrameStart (signalPickHandlerRsp t.sas d.sa stored.rsp) = some d.start
  inside : d.start + RT_SIGFRAME_SIZE ≤ USER_STACK_TOP + 64 * PAGE_SIZE_2M
  uc : d.uc = readBytes s'.k.mem (d.start + RT_SIGFRAME_UC_OFF) UCONTEXT_SIZE
  stored : ∃ bytes, d.uc = some bytes ∧ ucontextOf bytes = (stored, t.frameMask)
  rsp : s'.u.rsp = BitVec.ofNat 64 d.start
  settled : Settled s'.k.t
  sas : s'.k.t.sas = t.sas
  terminated : s'.k.t.terminated = t.terminated

theorem settled_retToUser (ret : Word) (hactive : t.suspendActive = false)
    (hrestore : t.restoreSigmask = false) : Settled (retToUser t ret).1 := by
  obtain ⟨hgprs, hsuspend, hsigmask, _⟩ := retToUser_same t ret
  exact ⟨hsuspend.trans hactive, hsigmask.trans hrestore, hgprs⟩

theorem leave_cases (s : Machine) (k : Kernel) (ret : Word) (ctx : SigAction → Regs) (mask : Word)
    (halive : k.t.terminated = false)
    (hone : k.t.suspendActive = false ∨ k.t.restoreSigmask = false) :
    (k.fate = .killed ∧ Dead s (s.leave k ret ctx mask))
      ∨ (k.fate ≠ .killed ∧ (∀ sa, ¬ (k.syscallExit s.pushed).Pushes sa)
          ∧ Back s (s.leave k ret ctx mask) k.t (retToUser k.t ret).2)
      ∨ ∃ k' sa start, (k.syscallExit s.pushed).Pushes sa
          ∧ InHandler s (s.leave k ret ctx mask) k.t (syscallContext k.t ret (restarts k sa ret))
              (.of k' sa start (ctx sa) mask) := by
  obtain ⟨k', _, outcome, heq, hways⟩ := maybeDeliverPendingSignal_cases k ret s.pushed halive
  obtain ⟨_, _, _, hmask, hsas, hterm, hrsp⟩ := retToUser_same k'.t ret
  unfold Machine.leave
  rw [heq]
  rcases hways with ⟨rfl, -, ⟨p, hk'⟩, hkill, hnot⟩ | ⟨rfl, hdead, hkill⟩
    | ⟨sa, hpush, start, hout, hentered, hframe⟩
  · right; left
    have hrestored := sigwaitRestoreSavedMask_eq (k.t.withPending p)
    refine ⟨hkill, hnot, rfl, rfl, ?_, ?_, ?_, ?_, ?_⟩
    all_goals dsimp only
    · rw [hk', hrestored]
      exact retToUser_regs _ rfl rfl rfl rfl rfl
    · rw [hmask, hk', sigwaitRestoreSavedMask_mask (t := k.t.withPending p) hone]
      rfl
    · refine settled_retToUser ret ?_ ?_
      · rw [hk', hrestored]
      · rw [hk', hrestored]
    · rw [hsas, hk', hrestored]
      rfl
    · rw [hterm, hk', hrestored]
      rfl
  · exact .inl ⟨hkill, hterm.trans hdead, rfl, rfl⟩
  · obtain rfl : outcome = .handler sa start := hout
    exact .inr
      (.inr ⟨k', sa, start, hpush, rfl, rfl, hentered.sas, hentered.placed, hentered.inside, rfl,
      hentered.stored, hrsp.trans hframe,
      settled_retToUser ret hentered.suspendActive hentered.restoreSigmask, hsas.trans hentered.sas,
      hterm.trans hentered.terminated⟩)

theorem leaveInterrupt_cases (s : Machine) (k : Kernel) (mask : Word)
    (halive : k.t.terminated = false)
    (hone : k.t.suspendActive = false ∨ k.t.restoreSigmask = false)
    (hgprs : k.t.sigreturnRestoreGprs = false) :
    (k.fate = .killed ∧ Dead s (s.leaveInterrupt k mask))
      ∨ ((∀ sa, ¬ (k.interruptExit s.u s.pushed).Pushes sa)
      ∧ Back s (s.leaveInterrupt k mask) k.t s.u)
      ∨ ∃ k' sa start, (k.interruptExit s.u s.pushed).Pushes sa
        ∧ InHandler s (s.leaveInterrupt k mask) k.t s.u (.of k' sa start s.u.resumed mask) := by
  obtain ⟨k', u, outcome, heq, hways⟩ := maybeDeliverPendingSignalIretq_cases k s.u s.pushed halive
  unfold Machine.leaveInterrupt
  rw [heq]
  rcases hways with ⟨rfl, rfl, ⟨p, hk'⟩, -, hnot⟩ | ⟨rfl, hdead, hkill⟩
    | ⟨sa, hpush, start, hout, hentered, hrsp, hgprs'⟩
  · right; left
    have hrestored := sigwaitRestoreSavedMask_eq (k.t.withPending p)
    refine ⟨hnot, rfl, rfl, rfl, ?_, ⟨?_, ?_, ?_⟩, ?_, ?_⟩
    all_goals dsimp only
    · rw [hk', sigwaitRestoreSavedMask_mask (t := k.t.withPending p) hone]
      rfl
    · rw [hk', hrestored]
    · rw [hk', hrestored]
    · rw [hk', hrestored]
      exact hgprs
    · rw [hk', hrestored]
      rfl
    · rw [hk', hrestored]
      rfl
  · exact .inl ⟨hkill, hdead, rfl, rfl⟩
  · obtain rfl : outcome = .handler sa start := hout
    exact .inr
      (.inr ⟨k', sa, start, hpush, rfl, rfl, hentered.sas, hentered.placed, hentered.inside, rfl,
      hentered.stored, hrsp, ⟨hentered.suspendActive, hentered.restoreSigmask, hgprs'.trans hgprs⟩,
      hentered.sas, hentered.terminated⟩)

/-! ## `rt_sigreturn` -/

/-- The thread after `rt_sigreturn`. -/
def Thread.returned (t : Thread) (sc : Regs) (mask : Word) : Thread :=
  rebuildSyscallFrame (t.restoreContext sc mask)

theorem synced_returned (t : Thread) (sc : Regs) (mask : Word) : Synced (t.returned sc mask) := by
  refine ⟨funext fun i => ?_, rfl⟩
  unfold Thread.returned rebuildSyscallFrame
  dsimp only
  cases (t.restoreContext sc mask).saved.slot i <;> rfl

theorem frameMask_returned (sc : Regs) (mask : Word) (hactive : t.suspendActive = false)
    (hrestore : t.restoreSigmask = false) : (t.returned sc mask).frameMask = mask := by
  change (if t.suspendActive then t.suspendOldMask
    else if t.restoreSigmask then t.savedSigmaskOrig else mask) = mask
  rw [hactive, hrestore]
  rfl

theorem rtSigreturn_eq {bytes : List Nat} {mask : Word} (hlo : 0x200000 ≤ start)
    (hhi : start + RT_SIGFRAME_SIZE ≤ USER_STACK_TOP + 64 * PAGE_SIZE_2M)
    (hrsp : t.saved.rsp = BitVec.ofNat 64 (start + RT_SIGFRAME_UC_OFF))
    (hread : readBytes m (start + RT_SIGFRAME_UC_OFF) UCONTEXT_SIZE = some bytes)
    (hbytes : ucontextOf bytes = (sc, mask)) :
    rtSigreturn t m = some (t.returned sc mask, sc.rax) := by
  have hlimit := user_limit
  have hlayout := frame_layout
  have hidentity : MMIO_IDENTITY_LIMIT = 0x100000000 := rfl
  have hptr : t.saved.rsp.toNat = start + RT_SIGFRAME_UC_OFF := by
    rw [hrsp, BitVec.toNat_ofNat, mod_eq_of_lt (by omega)]
  have hcopy : copyFromUserRaw m t.saved.rsp.toNat UCONTEXT_SIZE = some bytes := by
    unfold copyFromUserRaw
    rw [hptr, if_pos (userRangeOk_of_bounds (by omega) (by omega)), hread]
  have hok : ¬ (decide (t.saved.rsp.toNat < 0x200000)
      || decide (MMIO_IDENTITY_LIMIT < t.saved.rsp.toNat + UCONTEXT_SIZE)) = true := by
    rw [or_eq_true, decide_eq_true_eq, decide_eq_true_eq]
    omega
  unfold rtSigreturn
  rw [if_neg hok, hcopy]
  dsimp only
  rw [hbytes]
  rfl

end AxonOS.Signal

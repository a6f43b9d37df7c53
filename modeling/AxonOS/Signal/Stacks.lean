import AxonOS.Signal.RoundTrip

/-! # The stacks of handlers

A frame goes below the red zone of the stack pointer, or on top of the alternate stack if the action
asks for it. `signal_pick_handler_rsp` does not ask whether the thread is on the alternate stack
already: a second frame on its top is at the place of the first. Nor does it ask whether the
alternate stack has room for a frame below the stack pointer.

A frame is `Clear` if it overwrites nothing that is in use. Frames are clear if and only if, before
each delivery, the alternate stack is free if the frame goes on top of it, and has room below the
stack pointer if the frame goes there (`Fits`).
-/

namespace AxonOS.Signal

open Arch Lib List Nat

/-! ## Stacks -/

/-- The addresses from `lo` up to `hi`. -/
structure Stack where
  lo : Nat
  hi : Nat
  deriving DecidableEq, Repr

def Stack.Apart (a b : Stack) : Prop := a.hi ≤ b.lo ∨ b.hi ≤ a.lo

def Stack.Within (a b : Stack) : Prop := b.lo ≤ a.lo ∧ a.hi ≤ b.hi

theorem Stack.Apart.symm {a b : Stack} (h : a.Apart b) : b.Apart a := Or.symm h

theorem Stack.Apart.within {a b a' b' : Stack} (h : a.Apart b) (ha : a'.Within a)
    (hb : b'.Within b) :
    a'.Apart b' := by
  unfold Stack.Apart Stack.Within at *
  omega

/-- `[ss_sp, ss_sp + ss_size)`. -/
def AltStack.stack (a : AltStack) : Stack := ⟨a.sp.toNat, a.top.toNat⟩

/-- `[frame_start, frame_start + RT_SIGFRAME_SIZE)`. -/
def Pushed.bytes (d : Pushed) : Stack := ⟨d.start, d.start + RT_SIGFRAME_SIZE⟩

/-- A frame for the action goes on top of the alternate stack. -/
def switches (sas : AltStack) (sa : SigAction) : Bool := sa.flags &&& SA_ONSTACK ≠ 0 && sas.armed

def Pushed.switches (d : Pushed) : Bool := Signal.switches d.sas d.sa

/-- The stack that the newest of the handlers runs on; without one, the main stack of the thread. -/
def stackOf (main : Stack) : List Pushed → Stack
  | [] => main
  | d :: ds => if d.switches then d.sas.stack else stackOf main ds

def onAlternate (ds : List Pushed) : Bool := ds.any Pushed.switches

/-- **The frame overwrites nothing in use**: it is apart from the red zone of the interrupted stack
pointer and everything above it on that stack, and from all earlier frames; on an alternate stack,
it lies inside. -/
structure Clear (main : Stack) (d : Pushed) (ds : List Pushed) : Prop where
  live : d.bytes.Apart ⟨d.ctx.rsp.toNat - X86_REDZONE, (stackOf main ds).hi⟩
  frames : ∀ d' ∈ ds, d.bytes.Apart d'.bytes
  inside : onAlternate (d :: ds) = true → d.bytes.Within (stackOf main (d :: ds))

/-- All frames that have not been returned to were clear when they were pushed. -/
def FramesClear (main : Stack) (all : List Pushed) : Prop :=
  ∀ newer d ds, all = newer ++ d :: ds → Clear main d ds

/-- There is room from `lo` on for a frame below the stack pointer: for the red zone and the frame,
aligned, and the 8 bytes by which a frame is off the alignment. -/
def Room (lo : Nat) (rsp : Word) : Prop :=
  lo + 8 ≤ (rsp.toNat - (X86_REDZONE + RT_SIGFRAME_SIZE)) / 16 * 16

/-- Before a frame for the action is pushed: the alternate stack is free if the frame is put on top
of it; else, if the stack that is running is an alternate one, it has room below the stack
pointer. -/
def Fits (main : Stack) (sas : AltStack) (sa : SigAction) (rsp : Word) (ds : List Pushed) : Prop :=
  if switches sas sa then ∀ d' ∈ ds, d'.switches = true → d'.sas.stack ≠ sas.stack
  else onAlternate ds = true → Room (stackOf main ds).lo rsp

/-! ## The invariant -/

/-- User code runs on its stack, and a handler below its frame, or above the restorer's address when
it returns. -/
def Below (main : Stack) (ds : List Pushed) (rsp : Word) : Prop :=
  (stackOf main ds).lo ≤ rsp.toNat ∧
    match ds with
    | [] => rsp.toNat ≤ main.hi
    | d :: _ => rsp.toNat ≤ d.start + RT_SIGFRAME_UC_OFF

/-- An alternate stack has nothing in common with the main stack and other alternate stacks in
use. -/
def Separate (main : Stack) (sas : AltStack) (ds : List Pushed) : Prop :=
  sas.armed = true → sas.stack.Apart main
    ∧ ∀ d ∈ ds, d.switches = true → d.sas.stack = sas.stack ∨ d.sas.stack.Apart sas.stack

/-- What is known of a frame whether it is clear or not. -/
structure Placed (main : Stack) (d : Pushed) (ds : List Pushed) : Prop where
  place : rtFrameStart (if d.switches then d.sas.top else d.ctx.rsp) = some d.start
  limit : d.start + RT_SIGFRAME_SIZE ≤ USER_STACK_TOP + 64 * PAGE_SIZE_2M
  stored : ∃ bytes sc mask, d.uc = some bytes ∧ ucontextOf bytes = (sc, mask) ∧ sc.rsp = d.ctx.rsp
  below : Below main ds d.ctx.rsp
  separate : Separate main d.sas ds
  room : onAlternate (d :: ds) = false → Room main.lo d.ctx.rsp

def Stacked (main : Stack) : List Pushed → Prop
  | [] => True
  | d :: ds => Placed main d ds ∧ Fits main d.sas d.sa d.ctx.rsp ds ∧ Stacked main ds

variable {main : Stack} {d : Pushed} {ds : List Pushed} {rsp : Word}

/-! ## Where frames are -/

theorem stackOf_cases (main : Stack) (ds : List Pushed) :
      (stackOf main ds = main ∧ onAlternate ds = false)
      ∨ (onAlternate ds = true ∧ ∃ d ∈ ds, d.switches = true ∧ stackOf main ds = d.sas.stack) := by
  induction ds with
  | nil => exact .inl ⟨rfl, rfl⟩
  | cons d ds ih =>
    unfold stackOf onAlternate
    rw [any_cons]
    cases hd : d.switches with
    | true => exact .inr ⟨rfl, d, mem_cons_self, hd, rfl⟩
    | false =>
      rcases ih with ⟨hmain, halt⟩ | ⟨halt, e, he, hsw, heq⟩
      · exact .inl ⟨hmain, halt⟩
      · exact .inr ⟨halt, e, mem_cons_of_mem _ he, hsw, heq⟩

/-- The top of an armed alternate stack does not wrap. -/
theorem armed_size {a : AltStack} (h : a.armed = true) :
    a.sp.toNat + MINSIGSTKSZ_AXON ≤ a.top.toNat := by
  unfold AltStack.armed at h
  simp only [Bool.and_eq_true, decide_eq_true_eq] at h
  obtain ⟨⟨⟨_, hsize⟩, hlt⟩, _⟩ := h
  unfold AltStack.top at hlt ⊢
  rw [BitVec.toNat_add] at hlt ⊢
  omega

theorem armed_of_switches (h : d.switches = true) : d.sas.armed = true := by
  exact (Bool.and_eq_true _ _ ▸ h).2

theorem Placed.lo (h : Placed main d ds) : 0x200000 ≤ d.start :=
  (rtFrameStart_bounds h.place (frame_inside h.limit)).1

theorem Placed.bounds (h : Placed main d ds) : d.start + RT_SIGFRAME_SIZE + 8 + X86_REDZONE
        ≤ (if d.switches then d.sas.top else d.ctx.rsp).toNat
      ∧ (if d.switches then d.sas.top else d.ctx.rsp).toNat ≤ d.start + RT_SIGFRAME_SIZE + 23
      + X86_REDZONE :=
  (rtFrameStart_bounds h.place (frame_inside h.limit)).2

/-- Below the stack pointer, room is what keeps the frame at or above `lo`. -/
theorem Placed.room_iff (h : Placed main d ds) (hd : d.switches = false) (lo : Nat) :
    Room lo d.ctx.rsp ↔ lo ≤ d.start := by
  have hplace := h.place
  rw [hd, if_neg (by decide)] at hplace
  have heq := (rtFrameStart_eq hplace (frame_inside h.limit)).2
  unfold Room
  rw [← heq]
  exact Nat.add_le_add_iff_right

theorem within_of (hp : Placed main d ds) (hf : Fits main d.sas d.sa d.ctx.rsp ds)
    (hhi : d.ctx.rsp.toNat ≤ (stackOf main ds).hi) : d.bytes.Within (stackOf main (d :: ds)) := by
  have hsizes : RT_SIGFRAME_SIZE = 448 ∧ X86_REDZONE = 128 ∧ MINSIGSTKSZ_AXON = 2048 :=
    ⟨rfl, rfl, rfl⟩
  obtain ⟨hlow, hhigh⟩ := hp.bounds
  have hroom := hp.room
  unfold onAlternate at hroom
  rw [any_cons] at hroom
  replace hf : if d.switches then _ else _ := hf
  unfold stackOf Pushed.bytes Stack.Within
  cases hd : d.switches with
  | true =>
    have harmed := armed_size (armed_of_switches hd)
    rw [hd, if_pos rfl] at hlow hhigh
    rw [if_pos rfl]
    unfold AltStack.stack
    dsimp only
    omega
  | false =>
    rw [hd] at hlow hf hroom
    rw [if_neg (by decide)] at hlow hf
    rw [if_neg (by decide)]
    refine ⟨?_, by dsimp only; omega⟩
    rcases stackOf_cases main ds with ⟨hmain, halt⟩ | ⟨halt, _⟩
    · rw [hmain]
      exact (hp.room_iff hd _).mp (hroom halt)
    · exact (hp.room_iff hd _).mp (hf halt)

theorem Below.le_hi (h : Below main ds rsp) (hs : Stacked main ds) :
    rsp.toNat ≤ (stackOf main ds).hi := by
  have hsizes : RT_SIGFRAME_SIZE = 448 ∧ RT_SIGFRAME_UC_OFF = 8 := ⟨rfl, rfl⟩
  induction ds generalizing rsp with
  | nil => exact h.2
  | cons d ds ih =>
    obtain ⟨hp, hf, hds⟩ := hs
    have hwithin := (within_of hp hf (ih hp.below hds)).2
    have hrsp : rsp.toNat ≤ d.start + RT_SIGFRAME_UC_OFF := h.2
    unfold Pushed.bytes at hwithin
    dsimp only at hwithin
    omega

/-- **A frame lies on the stack of its handler.** -/
theorem within_stackOf (h : Stacked main (d :: ds)) : d.bytes.Within (stackOf main (d :: ds)) :=
  within_of h.1 h.2.1 (h.1.below.le_hi h.2.2)

variable {d' : Pushed} {sas : AltStack} {ds' : List Pushed}

/-- Every frame lies on the main stack or on an alternate stack in use. -/
theorem exists_stack (h : Stacked main ds) (hd' : d' ∈ ds) :
    ∃ a, d'.bytes.Within a ∧ (a = main ∨ ∃ e ∈ ds, e.switches = true ∧ a = e.sas.stack) := by
  induction ds with
  | nil => cases hd'
  | cons d ds ih =>
    rcases mem_cons.mp hd' with rfl | hmem
    · refine ⟨_, within_stackOf h, ?_⟩
      rcases stackOf_cases main (d' :: ds) with ⟨hmain, _⟩ | ⟨_, e, he, hsw, heq⟩
      · exact .inl hmain
      · exact .inr ⟨e, he, hsw, heq⟩
    · obtain ⟨a, hwithin, hmain | ⟨e, he, hsw, heq⟩⟩ := ih h.2.2 hmem
      · exact ⟨a, hwithin, .inl hmain⟩
      · exact ⟨a, hwithin, .inr ⟨e, mem_cons_of_mem _ he, hsw, heq⟩⟩

/-- Frames are apart from an alternate stack that is free. -/
theorem apart_of_free (h : Stacked main ds) (harmed : sas.armed = true)
    (hsep : Separate main sas ds) (hfree : ∀ e ∈ ds, e.switches = true → e.sas.stack ≠ sas.stack)
    (hd' : d' ∈ ds) : d'.bytes.Apart sas.stack := by
  obtain ⟨hmain, hothers⟩ := hsep harmed
  have hself : sas.stack.Within sas.stack := ⟨le_refl _, le_refl _⟩
  obtain ⟨a, hwithin, rfl | ⟨e, he, hsw, rfl⟩⟩ := exists_stack h hd'
  · exact hmain.symm.within hwithin hself
  · rcases hothers e he hsw with hsame | hapart
    · exact absurd hsame (hfree e he hsw)
    · exact hapart.within hwithin hself

/-- The frames on the stack that is running are above the stack pointer; the others lie
elsewhere. -/
theorem Below.frames (h : Below main ds rsp) (hs : Stacked main ds) (hd' : d' ∈ ds) :
    rsp.toNat ≤ d'.start + RT_SIGFRAME_UC_OFF ∨ d'.bytes.Apart (stackOf main ds) := by
  have hsizes : RT_SIGFRAME_SIZE = 448 ∧ RT_SIGFRAME_UC_OFF = 8 ∧ X86_REDZONE = 128 :=
    ⟨rfl, rfl, rfl⟩
  induction ds generalizing rsp with
  | nil => cases hd'
  | cons d ds ih =>
    obtain ⟨hp, hf, hds⟩ := hs
    have hrsp : rsp.toNat ≤ d.start + RT_SIGFRAME_UC_OFF := h.2
    rcases mem_cons.mp hd' with rfl | hmem
    · exact .inl hrsp
    have hlow := hp.bounds.1
    replace hf : if d.switches then _ else _ := hf
    unfold stackOf
    cases hd : d.switches with
    | true =>
      rw [hd] at hf
      exact .inr (apart_of_free hds (armed_of_switches hd) hp.separate hf hmem)
    | false =>
      rw [hd, if_neg (by decide)] at hlow
      rcases ih hp.below hds hmem with habove | hapart
      · exact .inl (by omega)
      · exact .inr hapart

theorem placed_of_mem (h : Stacked main ds) (hd' : d' ∈ ds) : ∃ ds', Placed main d' ds' := by
  induction ds with
  | nil => cases hd'
  | cons d ds ih =>
    rcases mem_cons.mp hd' with rfl | hmem
    · exact ⟨ds, h.1⟩
    · exact ih h.2.2 hmem

/-- Frames on top of the same stack are at the same place. -/
theorem same_start (h : Placed main d ds) (h' : Placed main d' ds') (hd : d.switches = true)
    (hd' : d'.switches = true) (hsame : d'.sas.stack = d.sas.stack) : d'.start = d.start := by
  have htop : d'.sas.top = d.sas.top := BitVec.eq_of_toNat_eq (congrArg Stack.hi hsame)
  have hplace := h.place
  have hplace' := h'.place
  rw [hd, if_pos rfl] at hplace
  rw [hd', if_pos rfl, htop, hplace] at hplace'
  exact (Option.some.inj hplace').symm

/-- The stack that is running is apart from an alternate stack that is free. -/
theorem stackOf_apart (harmed : sas.armed = true) (hsep : Separate main sas ds)
    (hfree : ∀ e ∈ ds, e.switches = true → e.sas.stack ≠ sas.stack) :
    (stackOf main ds).Apart sas.stack := by
  obtain ⟨hmain, hothers⟩ := hsep harmed
  rcases stackOf_cases main ds with ⟨heq, _⟩ | ⟨_, e, he, hsw, heq⟩
  · rw [heq]
    exact hmain.symm
  · rw [heq]
    exact (hothers e he hsw).resolve_left (hfree e he hsw)

section

variable (hp : Placed main d ds) (hs : Stacked main ds)

include hp hs

/-- A frame on top of an alternate stack that is free. -/
theorem clear_of_free (hd : d.switches = true) (hf : Fits main d.sas d.sa d.ctx.rsp ds) :
    Clear main d ds := by
  have harmed := armed_of_switches hd
  have hwithin := within_of hp hf (hp.below.le_hi hs)
  have hfree : ∀ e ∈ ds, e.switches = true → e.sas.stack ≠ d.sas.stack := (if_pos hd).mp hf
  have hstack : stackOf main (d :: ds) = d.sas.stack := if_pos hd
  rw [hstack] at hwithin
  refine ⟨?_, fun d' hd' => ?_, fun _ => hstack ▸ hwithin⟩
  · have hapart := stackOf_apart harmed hp.separate hfree
    have hlow := hp.bounds.1
    have hrsp := hp.below.1
    rw [if_pos hd] at hlow
    -- the frame keeps a red zone free below the top, so it is apart from that of the interrupted
    -- code too
    unfold Stack.Apart Stack.Within Pushed.bytes AltStack.stack at *
    dsimp only at *
    omega
  · have hself : d'.bytes.Within d'.bytes := ⟨le_refl _, le_refl _⟩
    exact (apart_of_free hs harmed hp.separate hfree hd').symm.within hwithin hself

theorem clear_of_room (hnot : ¬ d.switches = true) (hf : Fits main d.sas d.sa d.ctx.rsp ds) :
    Clear main d ds := by
  have hsizes : RT_SIGFRAME_SIZE = 448 ∧ RT_SIGFRAME_UC_OFF = 8 ∧ X86_REDZONE = 128 :=
    ⟨rfl, rfl, rfl⟩
  have hwithin := within_of hp hf (hp.below.le_hi hs)
  have hstack : stackOf main (d :: ds) = stackOf main ds := if_neg hnot
  have hlow := hp.bounds.1
  rw [if_neg hnot] at hlow
  refine ⟨?_, fun d' hd' => ?_, fun _ => hwithin⟩
  · unfold Stack.Apart Pushed.bytes
    dsimp only
    omega
  rcases hp.below.frames hs hd' with habove | hapart
  · unfold Stack.Apart Pushed.bytes
    dsimp only
    omega
  · rw [hstack] at hwithin
    exact (hapart.within ⟨le_refl _, le_refl _⟩ hwithin).symm

/-- **A frame is clear if and only if it fits.** -/
theorem clear_iff : Clear main d ds ↔ Fits main d.sas d.sa d.ctx.rsp ds := by
  have hsize : RT_SIGFRAME_SIZE = 448 := rfl
  by_cases hd : d.switches = true
  · refine ⟨fun hclear => (if_pos hd).mpr fun d' hd' hsw hsame => ?_, clear_of_free hp hs hd⟩
    obtain ⟨ds', hp'⟩ := placed_of_mem hs hd'
    have hstart := same_start hp hp' hd hsw hsame
    have hapart := hclear.frames d' hd'
    unfold Stack.Apart Pushed.bytes at hapart
    dsimp only at hapart
    omega
  · refine ⟨fun hclear => (if_neg hd).mpr fun halt => ?_, clear_of_room hp hs hd⟩
    have hinside := hclear.inside (by unfold onAlternate at *; rw [any_cons, halt, Bool.or_true])
    unfold stackOf at hinside
    rw [if_neg hd] at hinside
    exact (hp.room_iff (by simpa using hd) _).mpr hinside.1

end

theorem framesClear_cons : FramesClear main (d :: ds) ↔ Clear main d ds ∧ FramesClear main ds := by
  constructor
  · intro h
    exact ⟨h [] d ds rfl, fun newer e es heq => h (d :: newer) e es (by rw [heq]; rfl)⟩
  rintro ⟨hd, hds⟩ newer e es heq
  cases newer with
  | nil =>
    obtain ⟨rfl, rfl⟩ := List.cons.inj heq
    exact hd
  | cons _ newer => exact hds newer e es (List.cons.inj heq).2

theorem Stacked.framesClear (h : Stacked main ds) : FramesClear main ds := by
  induction ds with
  | nil =>
    intro newer d ds heq
    cases newer <;> cases heq
  | cons d ds ih => exact framesClear_cons.mpr ⟨(clear_iff h.1 h.2.2).mpr h.2.1, ih h.2.2⟩

/-! ## Steps -/

/-- The frames are stacked and, while the thread lives, user code runs on its stack. -/
structure Runs (main : Stack) (s : Machine) : Prop where
  stacked : Stacked main s.pushed
  user : s.k.t.terminated = true
    ∨ (Settled s.k.t ∧ Below main s.pushed s.u.rsp ∧ Separate main s.k.t.sas s.pushed)

/-- What the step leaves the kernel from, if it enters it: from a return, with the context in the
frame. -/
def Machine.exit (s : Machine) : Op → Option Exit
  | .call mask _ mem =>
    some ⟨s.k.t.pendingSignals, s.k.t.inForce mask, s.k.actions, s.k.t.sas, mem, s.u.rsp,
    s.u.rip ≠ 0, s.pushed⟩
  | .interrupt mask =>
    some ⟨s.k.t.pendingSignals, s.k.t.inForce mask, s.k.actions, s.k.t.sas, s.k.mem, s.u.rsp,
    0x10000 ≤ s.u.rip.toNat, s.pushed⟩
  | .sigreturn i _ => s.pushed[i]?.map fun d => s.returnExit i (frameContext s.k.mem d.start)
  | _ => none

/-- Handlers run on their stacks and return in order with their frames unmodified, alternate stacks
are separate, and there is room on the main stack for the frames that are pushed there. -/
def OnStacks (main : Stack) (s : Machine) (op : Op) : Prop :=
  Valid s op ∧ (∀ e sa, s.exit op = some e → e.Pushes sa → switches e.sas sa = false →
      onAlternate e.frames = false → Room main.lo e.rsp)
    ∧ match op with
      | .run u _ => Below main s.pushed u.rsp
      | .sigaltstack sas => Separate main sas s.pushed
      | .sigreturn i _ => i = 0
      | _ => True

def AllClear (main : Stack) (s : Machine) : Prop := FramesClear main s.pushed

/-- If a frame is pushed, it fits. -/
def Spares (main : Stack) (s : Machine) (op : Op) : Prop :=
  s.k.t.terminated = false → ∀ e sa, s.exit op = some e → e.Pushes sa →
    Fits main e.sas sa e.rsp e.frames

variable {s s' : Machine} {t : Thread} {stored : Regs}

theorem signalPickHandlerRsp_eq (d : Pushed) (rsp : Word) :
    signalPickHandlerRsp d.sas d.sa rsp = if d.switches then d.sas.top else rsp := by
  unfold signalPickHandlerRsp Pushed.switches switches
  by_cases hflag : d.sa.flags &&& SA_ONSTACK = 0
  · rw [if_pos hflag, decide_eq_false (not_not.mpr hflag)]
    rfl
  · rw [if_neg hflag, decide_eq_true hflag, Bool.true_and]

/-- Back to user mode in one of three ways. -/
def Leaves (e : Exit) (s s' : Machine) : Prop :=
  (Dead s s' ∧ ∀ sa, ¬ e.Pushes sa)
    ∨ (∃ t u, Back s s' t u ∧ u.rsp = e.rsp ∧ t.sas = e.sas ∧ ∀ sa, ¬ e.Pushes sa)
    ∨ ∃ t stored d, InHandler s s' t stored d ∧ stored.rsp = e.rsp
      ∧ d.ctx.rsp = e.rsp ∧ t.sas = e.sas
      ∧ e.Pushes d.sa

theorem InHandler.placed_main (h : InHandler s s' t stored d) (hrsp : stored.rsp = d.ctx.rsp)
    (hbelow : Below main s.pushed d.ctx.rsp) (hsep : Separate main t.sas s.pushed)
    (hroom : onAlternate (d :: s.pushed) = false → Room main.lo d.ctx.rsp) :
    Placed main d s.pushed := by
  obtain ⟨bytes, huc, hbytes⟩ := h.stored
  refine ⟨?_, h.inside, ⟨bytes, stored, _, huc, hbytes, hrsp⟩, hbelow, h.armed ▸ hsep, hroom⟩
  rw [← h.placed, ← h.armed, hrsp, signalPickHandlerRsp_eq]

/-- In the handler, right below its frame. -/
theorem InHandler.runs (h : InHandler s s' t stored d) (hsep : Separate main t.sas s.pushed)
    (hst : Stacked main (d :: s.pushed)) : Runs main s' := by
  have hlimit := user_limit
  have hinside := h.inside
  have hrsp : s'.u.rsp.toNat = d.start := by
    rw [h.rsp, BitVec.toNat_ofNat, mod_eq_of_lt (by omega)]
  refine ⟨h.pushed ▸ hst, .inr ⟨h.settled, ?_, ?_⟩⟩
  · rw [h.pushed]
    have hlo := (within_stackOf hst).1
    refine ⟨?_, ?_⟩
    · rw [hrsp]
      exact hlo
    · omega
  · rw [h.pushed, h.sas]
    intro harmed
    obtain ⟨hmain, hothers⟩ := hsep harmed
    refine ⟨hmain, fun e he hsw => ?_⟩
    rcases mem_cons.mp he with rfl | hmem
    · exact .inl (by rw [h.armed])
    · exact hothers e hmem hsw

/-- **Every way back to user mode leaves all frames clear, if and only if the frame it pushes
fits.** -/
theorem leaves_iff {e : Exit} (hleaves : Leaves e s s') (hst : Stacked main s.pushed)
    (hbelow : Below main s.pushed e.rsp) (hsep : Separate main e.sas s.pushed)
    (hframes : e.frames = s.pushed) (hroom : ∀ sa, e.Pushes sa → switches e.sas sa = false →
    onAlternate e.frames = false → Room main.lo e.rsp) :
    (FramesClear main s'.pushed ↔ ∀ sa, e.Pushes sa → Fits main e.sas sa e.rsp e.frames)
      ∧ ((∀ sa, e.Pushes sa → Fits main e.sas sa e.rsp e.frames) → Runs main s') := by
  rcases hleaves with ⟨hdead, hnot⟩ | ⟨t, u, hback, hrsp, hsas, hnot⟩ |
    ⟨t, stored, d, hin, hrsp, hctx, hsas, hpush⟩
  · rw [hdead.pushed]
    exact ⟨iff_of_true hst.framesClear fun sa hpush => absurd hpush (hnot sa),
      fun _ => ⟨hdead.pushed ▸ hst, .inl hdead.terminated⟩⟩
  · rw [hback.pushed]
    refine ⟨iff_of_true hst.framesClear fun sa hpush => absurd hpush (hnot sa),
      fun _ => ⟨hback.pushed ▸ hst, .inr ?_⟩⟩
    rw [hback.pushed, hback.u, hback.sas, hrsp, hsas]
    exact ⟨hback.settled, hbelow, hsep⟩
  · have hroom' : onAlternate (d :: s.pushed) = false → Room main.lo d.ctx.rsp := by
      intro halt
      unfold onAlternate at halt
      rw [any_cons, Bool.or_eq_false_iff, Pushed.switches, hin.armed, hsas, ← hframes] at halt
      rw [hctx]
      exact hroom d.sa hpush halt.1 halt.2
    have hp := hin.placed_main (hrsp.trans hctx.symm) (hctx ▸ hbelow) (hsas ▸ hsep) hroom'
    have hiff : (∀ sa, e.Pushes sa → Fits main e.sas sa e.rsp e.frames)
        ↔ Fits main d.sas d.sa d.ctx.rsp s.pushed := by
      rw [hin.armed, hsas, hctx, ← hframes]
      constructor
      · exact fun h => h d.sa hpush
      · intro h sa hpush'
        rw [hpush.unique hpush']
        exact h
    rw [hiff]
    refine ⟨?_, fun hfits => hin.runs (hsas ▸ hsep) ⟨hp, hfits, hst⟩⟩
    rw [hin.pushed, framesClear_cons, and_iff_left hst.framesClear]
    exact clear_iff hp hst

theorem leaves_call (hsettled : Settled s.k.t) (halive : s.k.t.terminated = false) (mask : MaskOp)
    (ret : Word) (mem : PMem) : ∃ e, s.exit (.call mask ret mem) = some e ∧ e.rsp = s.u.rsp
    ∧ e.sas = s.k.t.sas
      ∧ e.frames = s.pushed ∧ Leaves e s (s.next (.call mask ret mem)) := by
  have hentry : Settled (syscallEntry64 s.k.t s.u) := ⟨hsettled.1, hsettled.2, hsettled.3⟩
  obtain ⟨hframe, hsaved, hsas, hterm, _⟩ := apply_same (syscallEntry64 s.k.t s.u) mask
  obtain ⟨hmask, hpending⟩ := apply_inForce (syscallEntry64 s.k.t s.u) mask
  have hregs : (retToUser ((syscallEntry64 s.k.t s.u).apply mask) ret).2.rsp = s.u.rsp :=
    (retToUser_same _ ret).2.2.2.2.2.2.trans (congrFun hframe 15)
  have hstored : ((syscallEntry64 s.k.t s.u).apply mask).saved.rsp = s.u.rsp :=
    congrArg Saved.rsp hsaved
  refine ⟨_, rfl, rfl, rfl, rfl, ?_⟩
  have hexit :
      Kernel.syscallExit
      { s.k with t := (syscallEntry64 s.k.t s.u).apply mask, mem := mem } s.pushed
      = ⟨s.k.t.pendingSignals, s.k.t.inForce mask, s.k.actions, s.k.t.sas, mem, s.u.rsp,
      s.u.rip ≠ 0, s.pushed⟩ := by
    unfold Kernel.syscallExit Kernel.exit
    dsimp only
    rw [hmask, hpending, hsas, hsaved]
    cases mask <;> rfl
  rw [← hexit]
  unfold Machine.next
  rcases leave_cases s { s.k with t := (syscallEntry64 s.k.t s.u).apply mask, mem := mem } ret _ _
    (hterm.trans halive) (apply_one hentry mask) with
    ⟨hkill, hdead⟩ | ⟨-, hnot, hback⟩ | ⟨k', sa, start, hpush, hin⟩
  · exact .inl ⟨hdead, fun sa hpush => hpush.not_killed hkill⟩
  · exact .inr (.inl ⟨_, _, hback, hregs.trans hstored.symm, rfl, hnot⟩)
  · refine .inr (.inr ⟨_, _, _, hin, rfl, ?_, rfl, hpush⟩)
    refine Eq.trans ?_ (hregs.trans hstored.symm)
    change (ite _ _ _ : Regs).rsp = _
    split <;> rfl

theorem leaves_interrupt (hsettled : Settled s.k.t) (halive : s.k.t.terminated = false)
    (mask : MaskOp) :
    ∃ e, s.exit (.interrupt mask) = some e ∧ e.rsp = s.u.rsp ∧ e.sas = s.k.t.sas
      ∧ e.frames = s.pushed
      ∧ Leaves e s (s.next (.interrupt mask)) := by
  obtain ⟨_, _, hsas, hterm, hgprs⟩ := apply_same s.k.t mask
  obtain ⟨hmask, hpending⟩ := apply_inForce s.k.t mask
  refine ⟨_, rfl, rfl, rfl, rfl, ?_⟩
  have hexit : Kernel.interruptExit { s.k with t := s.k.t.apply mask } s.u s.pushed
      = ⟨s.k.t.pendingSignals, s.k.t.inForce mask, s.k.actions, s.k.t.sas, s.k.mem, s.u.rsp,
        0x10000 ≤ s.u.rip.toNat, s.pushed⟩ := by
    unfold Kernel.interruptExit Kernel.exit
    dsimp only
    rw [hmask, hpending, hsas]
  rw [← hexit]
  unfold Machine.next
  rcases leaveInterrupt_cases s { s.k with t := s.k.t.apply mask } (s.k.t.maskAfter mask)
    (hterm.trans halive) (apply_one hsettled mask) (hgprs.trans hsettled.sigreturnRestoreGprs) with
    ⟨hkill, hdead⟩ | ⟨hnot, hback⟩ | ⟨k', sa, start, hpush, hin⟩
  · exact .inl ⟨hdead, fun sa hpush => hpush.not_killed hkill⟩
  · exact .inr (.inl ⟨_, _, hback, rfl, rfl, hnot⟩)
  · exact .inr (.inr ⟨_, _, _, hin, rfl, rfl, rfl, hpush⟩)

theorem leaves_sigreturn {sc : BitVec 32} (hsettled : Settled s.k.t)
    (halive : s.k.t.terminated = false) (hpushed : s.pushed = d :: ds) (hp : Placed main d ds)
    (hvalid : Valid s (.sigreturn 0 sc)) :
    ∃ e after, s.exit (.sigreturn 0 sc) = some e ∧ e.rsp = d.ctx.rsp
      ∧ e.sas = s.k.t.sas ∧ e.frames = ds
      ∧ Leaves e { s with pushed := ds } after ∧ (s.next (.sigreturn 0 sc)).k = after.k
      ∧ (s.next (.sigreturn 0 sc)).u = after.u ∧ (s.next (.sigreturn 0 sc)).pushed
      = after.pushed := by
  obtain ⟨_, d', hd, hrsp, hmem⟩ := hvalid
  rw [hpushed] at hd
  obtain rfl : d = d' := Option.some.inj hd
  obtain ⟨bytes, c, mask, huc, hbytes, hc⟩ := hp.stored
  have hreturn : rtSigreturn (syscallEntry64 s.k.t s.u) s.k.mem
      = some ((syscallEntry64 s.k.t s.u).returned c mask, c.rax) :=
    rtSigreturn_eq hp.lo hp.limit hrsp (hmem.trans huc) hbytes
  have hcontext : frameContext s.k.mem d.start = (c.resumed, mask) := by
    unfold frameContext
    rw [hmem.trans huc, Option.getD_some, hbytes]
  have hregs :
      (retToUser ((syscallEntry64 s.k.t s.u).returned c mask)
      (syscallSanitizeUserRet sc c.rax)).2.rsp
      = c.rsp :=
    (retToUser_same _ _).2.2.2.2.2.2
  have hnext := next_sigreturn sc (i := 0) (by rw [hpushed]; rfl) hreturn
  rw [hpushed] at hnext
  have hexit : s.returnExit 0 (frameContext s.k.mem d.start)
      = Kernel.syscallExit { s.k with t := (syscallEntry64 s.k.t s.u).returned c mask } ds := by
    unfold Machine.returnExit
    rw [hcontext, hpushed]
    rfl
  refine ⟨s.returnExit 0 (frameContext s.k.mem d.start), Machine.leave { s with pushed := ds }
    { s.k with t := (syscallEntry64 s.k.t s.u).returned c mask } (syscallSanitizeUserRet sc c.rax)
    (fun _ => d.ctx) d.mask, ?_, ?_, rfl, ?_, ?_, ?_⟩
  · rw [Machine.exit, hpushed]
    rfl
  · rw [hexit]
    exact hc
  · rw [hexit]
    rfl
  · rw [hexit]
    rcases leave_cases { s with pushed := ds }
      { s.k with t := (syscallEntry64 s.k.t s.u).returned c mask } (syscallSanitizeUserRet sc c.rax)
      (fun _ => d.ctx) d.mask halive (.inl hsettled.1) with
      ⟨hkill, hdead⟩ | ⟨-, hnot, hback⟩ | ⟨k', sa, start, hpush, hin⟩
    · exact .inl ⟨hdead, fun sa hpush => hpush.not_killed hkill⟩
    · exact .inr (.inl ⟨_, _, hback, hregs, rfl, hnot⟩)
    · exact .inr (.inr ⟨_, _, _, hin, rfl, hc.symm, rfl, hpush⟩)
  · rw [hnext]
    split <;> exact ⟨rfl, rfl, rfl⟩

/-- **A step leaves all frames clear if and only if the frame it pushes fits.** -/
theorem step_clear_iff (op : Op) (hs : Runs main s) (hvalid : OnStacks main s op) :
    (AllClear main (s.step op) ↔ Spares main s op)
    ∧ (Spares main s op → Runs main (s.step op)) := by
  obtain ⟨hst, huser⟩ := hs
  obtain ⟨hop, hroom, hstacks⟩ := hvalid
  unfold AllClear Spares
  cases halive : s.k.t.terminated with
  | true =>
    rw [step_of_dead halive]
    exact ⟨iff_of_true hst.framesClear nofun, fun _ => ⟨hst, .inl halive⟩⟩
  | false =>
    obtain hdead | ⟨hsettled, hbelow, hsep⟩ := huser
    · rw [halive] at hdead
      cases hdead
    rw [step_of_alive halive, forall_prop_of_true rfl]
    -- a step that does not enter the kernel
    have hsame : FramesClear main s.pushed ↔ ∀ (e : Exit) sa, none = some e → e.Pushes sa →
        Fits main e.sas sa e.rsp e.frames := iff_of_true hst.framesClear nofun
    -- one that does, with what it leaves the kernel from
    have hone : ∀ {e : Exit}, s.exit op = some e → ((∀ e' sa, s.exit op = some e' → e'.Pushes sa →
        Fits main e'.sas sa e'.rsp e'.frames) ↔ ∀ sa, e.Pushes sa →
        Fits main e.sas sa e.rsp e.frames) := by
      intro e he
      refine ⟨fun h sa => h e sa he, fun h e' sa he' => ?_⟩
      obtain rfl := Option.some.inj (he.symm.trans he')
      exact h sa
    cases op with
    | run u mem => exact ⟨hsame, fun _ => ⟨hst, .inr ⟨hsettled, hstacks, hsep⟩⟩⟩
    | signals pending =>
      exact ⟨hsame, fun _ => ⟨hst, .inr ⟨⟨hsettled.1, hsettled.2, hsettled.3⟩, hbelow, hsep⟩⟩⟩
    | sigaction actions => exact ⟨hsame, fun _ => ⟨hst, .inr ⟨hsettled, hbelow, hsep⟩⟩⟩
    | sigaltstack sas =>
      exact ⟨hsame, fun _ => ⟨hst, .inr ⟨⟨hsettled.1, hsettled.2, hsettled.3⟩, hbelow, hstacks⟩⟩⟩
    | call mask ret mem =>
      obtain ⟨e, he, hrsp, hsas, hframes, hleaves⟩ := leaves_call hsettled halive mask ret mem
      rw [hone he]
      exact leaves_iff hleaves hst (hrsp ▸ hbelow) (hsas ▸ hsep) hframes fun sa => hroom e sa he
    | interrupt mask =>
      obtain ⟨e, he, hrsp, hsas, hframes, hleaves⟩ := leaves_interrupt hsettled halive mask
      rw [hone he]
      exact leaves_iff hleaves hst (hrsp ▸ hbelow) (hsas ▸ hsep) hframes fun sa => hroom e sa he
    | sigreturn i sc =>
      obtain rfl : i = 0 := hstacks
      obtain ⟨d, ds, hpushed⟩ : ∃ d ds, s.pushed = d :: ds := by
        obtain ⟨_, d, hd, _⟩ := hop
        exact List.exists_cons_of_ne_nil
          (List.ne_nil_of_length_pos (List.getElem?_eq_some_iff.mp hd).1)
      rw [hpushed] at hst hsep
      obtain ⟨hp, _, hds⟩ := hst
      obtain ⟨e, after, he, hrsp, hsas, hframes, hleaves, hk, hu, hafter⟩ :=
        leaves_sigreturn hsettled halive hpushed hp hop
      have hsep' : Separate main s.k.t.sas ds := fun harmed =>
        ⟨(hsep harmed).1, fun e he => (hsep harmed).2 e (mem_cons_of_mem _ he)⟩
      obtain ⟨hiff, hruns⟩ := leaves_iff hleaves hds (hrsp ▸ hp.below) (hsas ▸ hsep') hframes
        fun sa => hroom e sa he
      rw [hafter, hone he]
      refine ⟨hiff, fun hspares => ?_⟩
      obtain ⟨hstacked, huser'⟩ := hruns hspares
      exact ⟨hafter ▸ hstacked, by rw [hk, hu, hafter]; exact huser'⟩

/-- **Frames are clear in all states of a run, if and only if all that are pushed fit.** -/
theorem frames_clear_iff (main : Stack) (s : Machine) (ops : List Op) (hs : Runs main s)
    (hvalid : RunMeets Machine.step (OnStacks main) s ops) :
    (∀ pre post, ops = pre ++ post → AllClear main (s.exec pre)) ↔
      RunMeets Machine.step (Spares main) s ops :=
  run_good_iff (fun _ op hs _ hvalid => step_clear_iff op hs hvalid) hs
    hs.stacked.framesClear hvalid

/-! ## A handler on the alternate stack -/

theorem not_allClear_of_same (hpushed : s.pushed = d :: d' :: ds) (hsame : d.start = d'.start) :
    ¬ AllClear main s := by
  have hsize : RT_SIGFRAME_SIZE = 448 := rfl
  intro hclear
  have hapart := (hclear [] d (d' :: ds) hpushed).frames d' mem_cons_self
  unfold Stack.Apart Pushed.bytes at hapart
  dsimp only at hapart
  omega

/-- A handler on the alternate stack. -/
def onStack : SigAction := { handled with flags := SA_ONSTACK }

/-- The alternate stack is above the main stack; signal 10 is pending. -/
def armed : Machine :=
  ⟨⟨{ waiting with sas := ⟨0x50010000, 0x4000, 0⟩ }, fun _ => onStack, fun _ => some 0⟩,
    running 0, [], []⟩

def mainStack : Stack := ⟨0x4FF00000, 0x50000000⟩

/-- The place below the top of the alternate stack. -/
def altFrameAt : Nat := 0x50013DB8

theorem runs_armed : Runs mainStack armed := by
  refine ⟨trivial, .inr ⟨⟨rfl, rfl, rfl⟩, ⟨by decide, ?_⟩, fun _ => ⟨?_, nofun⟩⟩⟩
  · change (running 0).rsp.toNat ≤ mainStack.hi
    decide
  · exact .inr (by decide)

theorem armed_meets : RunMeets Machine.step (OnStacks mainStack) armed [.interrupt .keep]
      ∧ RunMeets Machine.step (Spares mainStack) armed [.interrupt .keep] := by
  -- a frame that is pushed goes on top of the alternate stack
  have hswitches : ∀ e sa, armed.exit (.interrupt .keep) = some e → e.Pushes sa →
      switches e.sas sa = true ∧ e.frames = [] := by
    rintro e sa ⟨⟩ hpush
    obtain ⟨sig, hfate⟩ := hpush.caught
    obtain rfl : sa = onStack := fate_caught hfate
    exact ⟨by decide, rfl⟩
  rw [runMeets_cons, runMeets_cons]
  refine ⟨⟨⟨trivial, fun e sa he hpush hnot => ?_, trivial⟩, runMeets_nil _⟩,
    fun _ e sa he hpush => ?_, runMeets_nil _⟩
  · rw [(hswitches e sa he hpush).1] at hnot
    cases hnot
  · obtain ⟨hsw, hnil⟩ := hswitches e sa he hpush
    rw [Fits, if_pos hsw, hnil]
    exact nofun

/-- The first frame on the alternate stack is clear. -/
theorem clear_firstFrame : AllClear mainStack (armed.exec [.interrupt .keep]) :=
  (frames_clear_iff mainStack armed [.interrupt .keep] runs_armed armed_meets.1).mpr armed_meets.2
    _ [] (append_nil _).symm

/-- Signal 12 arrives while the handler of signal 10 runs. -/
def nested : List Op :=
  [ .interrupt .keep, .run { running 0 with rsp := 0x50013D00 } fun _ => some 0,
    .signals (sigBit 12), .interrupt .keep ]

/-- The frame of a signal in the handler overwrites the frame of the handler. -/
theorem nested_overwrites : ¬ AllClear mainStack (armed.exec nested) := by
  have hstarts : (armed.exec nested).pushed.map (·.start) = [altFrameAt, altFrameAt] := by
    decide +kernel
  obtain ⟨d, ds, hpushed, hd, hds⟩ := map_eq_cons_iff.mp hstarts
  obtain ⟨d', ds', rfl, hd', -⟩ := map_eq_cons_iff.mp hds
  exact not_allClear_of_same hpushed (hd.trans hd'.symm)

end AxonOS.Signal

import AxonOS.Arch.Addr
import AxonOS.Lib.Record

/-! # Signal frames

The frame that `signal_write_rt_frame` puts on the user stack before a handler runs, and what
`rt_sigreturn` reads from it. A frame is the address of the restorer, a `k_ucontext_t` and a
`k_siginfo_t`, packed. User memory is partial, and an address in it without a byte is one that
cannot be accessed.
-/

namespace AxonOS.Signal

open Arch Lib

abbrev Word := BitVec 64

/-! ## Constants -/

def MINSIGSTKSZ_AXON : Nat := 2048
def X86_REDZONE : Nat := 128

def SA_SIGINFO : Word := 0x4
def SA_ONSTACK : Word := 0x08000000
def SA_RESTART : Word := 0x10000000
def SA_NODEFER : Word := 0x40000000
def SS_DISABLE : BitVec 32 := 2

def SIGKILL : Nat := 9
def SIGSTOP : Nat := 19

def sigBit (sig : Nat) : Word := 1#64 <<< (sig - 1)

def RT_SIGFRAME_UC_OFF : Nat := 8
/-- `sizeof(k_ucontext_t)`; see `length_encode_ucontext`. -/
def UCONTEXT_SIZE : Nat := 312
def RT_SIGFRAME_INFO_OFF : Nat := 8 + UCONTEXT_SIZE
/-- `sizeof(k_siginfo_t)`; see `length_encode_siginfo`. -/
def SIGINFO_SIZE : Nat := 128
def RT_SIGFRAME_SIZE : Nat := RT_SIGFRAME_INFO_OFF + SIGINFO_SIZE

/-! ## Registers and contexts -/

/-- The registers of a user context, in the order of `k_sigcontext_t`. -/
@[ext]
structure Regs where
  r8 : Word
  r9 : Word
  r10 : Word
  r11 : Word
  r12 : Word
  r13 : Word
  r14 : Word
  r15 : Word
  rdi : Word
  rsi : Word
  rbp : Word
  rbx : Word
  rdx : Word
  rax : Word
  rcx : Word
  rsp : Word
  rip : Word
  eflags : Word
  deriving DecidableEq, Repr

def IF : Word := 0x200

/-- The context as it is resumed: with interrupts enabled. -/
def Regs.resumed (r : Regs) : Regs := { r with eflags := r.eflags ||| IF }

/-- What the kernel fills in of a `k_ucontext_t`; the rest is zero, or the same in every frame. -/
structure KUcontext where
  ssSp : Word
  ssFlags : BitVec 32
  ssSize : Word
  mcontext : Regs
  sigmask : Word

/-- The fields of `k_ucontext_t`, each with its width. -/
def KUcontext.fields (uc : KUcontext) : List (Nat × Nat) :=
  let sc := uc.mcontext
  [ (8, 0), (8, 0),                                           -- uc_flags, uc_link
    (8, uc.ssSp.toNat), (4, uc.ssFlags.toNat), (4, 0), (8, uc.ssSize.toNat),
    (8, sc.r8.toNat), (8, sc.r9.toNat), (8, sc.r10.toNat), (8, sc.r11.toNat),
    (8, sc.r12.toNat), (8, sc.r13.toNat), (8, sc.r14.toNat), (8, sc.r15.toNat),
    (8, sc.rdi.toNat), (8, sc.rsi.toNat), (8, sc.rbp.toNat), (8, sc.rbx.toNat),
    (8, sc.rdx.toNat), (8, sc.rax.toNat), (8, sc.rcx.toNat),
    (8, sc.rsp.toNat), (8, sc.rip.toNat), (8, sc.eflags.toNat),
    (2, 0x1B), (2, 0), (2, 0), (2, 0x23),                     -- cs, gs, fs, ss
    (8, 0), (8, 0), (8, 0), (8, 0), (8, 0),                   -- err, trapno, oldmask, cr2, fpstate
    (64, 0),                                                  -- reserved1
    (8, uc.sigmask.toNat), (8, 0) ]

/-- The widths of the fields of `k_ucontext_t`. -/
def ucontextWidths : List Nat :=
  [8, 8, 8, 4, 4, 8, 8, 8, 8, 8, 8, 8, 8, 8, 8, 8, 8, 8, 8, 8, 8, 8, 8, 8, 2, 2, 2, 2, 8, 8,
    8, 8, 8, 64, 8, 8]

/-- What `rt_sigreturn` reads from the bytes of a `k_ucontext_t`. -/
def ucontextOf (bytes : List Nat) : Regs × Word :=
  let field (i : Nat) : Word := BitVec.ofNat 64 ((decode ucontextWidths bytes).getD i 0)
  ({ r8 := field 6, r9 := field 7, r10 := field 8, r11 := field 9,
     r12 := field 10, r13 := field 11, r14 := field 12, r15 := field 13,
     rdi := field 14, rsi := field 15, rbp := field 16, rbx := field 17,
     rdx := field 18, rax := field 19, rcx := field 20,
     rsp := field 21, rip := field 22, eflags := field 23 }, field 34)

/-- The fields of `k_siginfo_t`: number, errno, code, padding, address, tail. -/
def siginfoFields (sig : Nat) : List (Nat × Nat) :=
  [(4, sig), (4, 0), (4, 2 ^ 32 - 6), (4, 0), (8, 0), (104, 0)]

theorem map_fst_fields (uc : KUcontext) : uc.fields.map Prod.fst = ucontextWidths := rfl

theorem length_encode_ucontext (uc : KUcontext) : (encode uc.fields).length = UCONTEXT_SIZE := by
  rw [length_encode, map_fst_fields]
  decide

theorem length_encode_siginfo (sig : Nat) : (encode (siginfoFields sig)).length = SIGINFO_SIZE := by
  rfl

theorem word_of_field (w : Word) : BitVec.ofNat 64 (w.toNat % 256 ^ 8) = w := by
  have hlt : w.toNat < 256 ^ 8 := w.isLt
  rw [Nat.mod_eq_of_lt hlt, BitVec.ofNat_toNat, BitVec.setWidth_eq]

/-- **A context is read from a frame as it was written.** -/
theorem ucontextOf_encode (uc : KUcontext) :
    ucontextOf (encode uc.fields) = (uc.mcontext, uc.sigmask) := by
  have hdecode : decode ucontextWidths (encode uc.fields) = uc.fields.map fun f =>
      f.2 % 256 ^ f.1 := by
    rw [← map_fst_fields uc, decode_encode]
  unfold ucontextOf
  rw [hdecode]
  refine Prod.ext (Regs.ext ?_ ?_ ?_ ?_ ?_ ?_ ?_ ?_ ?_ ?_ ?_ ?_ ?_ ?_ ?_ ?_ ?_ ?_) ?_
  all_goals exact word_of_field _

/-! ## User memory -/

def userRangeOk (start n : Nat) : Bool :=
  if start = 0 then false
  else if n = 0 then true
  else if 2 ^ 64 ≤ start + n then false
  else if start < 0x10000 then false
  else if USER_STACK_TOP + 64 * PAGE_SIZE_2M < start + n then false
  else decide (start + n ≤ MMIO_IDENTITY_LIMIT)

def copyToUserSafe (m : PMem) (uptr : Nat) (bytes : List Nat) : PMem × Bool :=
  if userRangeOk uptr bytes.length then writeBytes m uptr bytes else (m, false)

def copyFromUserRaw (m : PMem) (usrc n : Nat) : Option (List Nat) :=
  if userRangeOk usrc n then readBytes m usrc n else none

/-! ## Where a frame goes -/

/-- `user_sigaction_t`. -/
structure SigAction where
  handler : Word
  restorer : Word
  flags : Word
  mask : Word
  deriving DecidableEq

/-- The fields of `sigaltstack`. -/
structure AltStack where
  sp : Word
  size : Word
  flags : BitVec 32

def AltStack.top (a : AltStack) : Word := a.sp + a.size

/-- The tests of `signal_pick_handler_rsp` on the alternate stack itself. -/
def AltStack.armed (a : AltStack) : Bool :=
  a.flags &&& SS_DISABLE = 0 && a.sp ≠ 0 && MINSIGSTKSZ_AXON ≤ a.size.toNat
    && a.sp.toNat < a.top.toNat && a.top.toNat ≤ MMIO_IDENTITY_LIMIT

def signalPickHandlerRsp (a : AltStack) (sa : SigAction) (normalRsp : Word) : Word :=
  if sa.flags &&& SA_ONSTACK = 0 then normalRsp
  else if a.armed then a.top
  else normalRsp

/-- The address of the frame below `oldRsp`, in `signal_write_rt_frame`. -/
def rtFrameStart (oldRsp : Word) : Option Nat :=
  if oldRsp = 0 then none
  else
    let sp := if X86_REDZONE < oldRsp.toNat then oldRsp.toNat - X86_REDZONE else oldRsp.toNat
    if sp < RT_SIGFRAME_SIZE + 8 then none
    else
      -- `((sp - RT_SIGFRAME_SIZE) & ~15ULL) - 8ULL`, which may wrap
      let frameStart := ((sp - RT_SIGFRAME_SIZE) / 16 * 16 + (2 ^ 64 - 8)) % 2 ^ 64
      if frameStart < 0x200000 then none else some frameStart

/-- The three copies of `signal_write_rt_frame`: context, `siginfo`, and the address of the
restorer. -/
def writeFrame (m : PMem) (start : Nat) (uc : KUcontext) (sig : Nat) (restorer : Word) :
    PMem × Bool :=
  match copyToUserSafe m ((start + RT_SIGFRAME_UC_OFF) % 2 ^ 64) (encode uc.fields) with
  | (m, false) => (m, false)
  | (m, true) =>
    match copyToUserSafe m ((start + RT_SIGFRAME_INFO_OFF) % 2 ^ 64)
        (encode (siginfoFields sig)) with
    | (m, false) => (m, false)
    | (m, true) => copyToUserSafe m start (bytesLE 8 restorer.toNat)

variable {p start n : Nat} {m : PMem} {bytes : List Nat} {rsp : Word}

theorem userRangeOk_bounds (hn : n ≠ 0) (h : userRangeOk start n = true) :
    0x10000 ≤ start ∧ start + n ≤ USER_STACK_TOP + 64 * PAGE_SIZE_2M := by
  unfold userRangeOk at h
  split_ifs at h
  omega

theorem user_limit : USER_STACK_TOP + 64 * PAGE_SIZE_2M = 0x68000000 := rfl

theorem userRangeOk_of_bounds (hlo : 0x10000 ≤ start)
    (hhi : start + n ≤ USER_STACK_TOP + 64 * PAGE_SIZE_2M) :
    userRangeOk start n = true := by
  have hlimit := user_limit
  have hidentity : MMIO_IDENTITY_LIMIT = 0x100000000 := rfl
  unfold userRangeOk
  rw [if_neg (by omega)]
  split
  · rfl
  · rw [if_neg (by omega), if_neg (by omega), if_neg (by omega), decide_eq_true (by omega)]

theorem copyToUserSafe_eq (h : (copyToUserSafe m p bytes).2 = true) :
    userRangeOk p bytes.length = true ∧ copyToUserSafe m p bytes = writeBytes m p bytes := by
  unfold copyToUserSafe at h ⊢
  by_cases hok : userRangeOk p bytes.length = true
  · rw [if_pos hok]
    exact ⟨hok, rfl⟩
  · rw [if_neg hok] at h
    cases h

theorem copyToUserSafe_iff : (copyToUserSafe m p bytes).2 = true ↔ userRangeOk p bytes.length = true
    ∧ ∀ x, p ≤ x → x < p + bytes.length → (m x).isSome = true := by
  unfold copyToUserSafe
  split
  next hok => rw [writeBytes_iff, and_iff_right hok]
  next hok => exact iff_of_false (by simp) fun h => hok h.1

/-- After a copy, another one is complete if it would have been before. -/
theorem copyToUserSafe_after {m' : PMem} {ok : Bool} {q : Nat} {bytes' : List Nat}
    (h : copyToUserSafe m p bytes = (m', ok)) :
    (copyToUserSafe m' q bytes').2 = true ↔ (copyToUserSafe m q bytes').2 = true := by
  have hsame : ∀ x, (m' x).isSome = (m x).isSome := by
    intro x
    have hm : (copyToUserSafe m p bytes).1 = m' := congrArg Prod.fst h
    rw [← hm, copyToUserSafe]
    split
    · exact writeBytes_isSome x
    · rfl
  simp only [copyToUserSafe_iff, hsame]

theorem copyToUserSafe_outside {x : Nat} (h : x < p ∨ p + bytes.length ≤ x) :
    (copyToUserSafe m p bytes).1 x = m x := by
  unfold copyToUserSafe
  split
  · exact writeBytes_outside h
  · rfl

theorem readBytes_copyToUserSafe (h : (copyToUserSafe m p bytes).2 = true) :
    readBytes (copyToUserSafe m p bytes).1 p bytes.length = some bytes := by
  obtain ⟨_, heq⟩ := copyToUserSafe_eq h
  rw [heq] at h ⊢
  exact readBytes_writeBytes h

/-- **Where a frame is**: below the red zone of the stack pointer, aligned. -/
theorem rtFrameStart_eq (h : rtFrameStart rsp = some start)
    (hwrap : start + RT_SIGFRAME_UC_OFF < 2 ^ 64) :
    0x200000 ≤ start ∧ start + 8 = (rsp.toNat - (X86_REDZONE + RT_SIGFRAME_SIZE)) / 16 * 16 := by
  unfold rtFrameStart RT_SIGFRAME_UC_OFF at *
  unfold RT_SIGFRAME_SIZE RT_SIGFRAME_INFO_OFF UCONTEXT_SIZE SIGINFO_SIZE X86_REDZONE at *
  dsimp only at h
  split_ifs at h
  · have := Option.some.inj h
    omega
  · omega

/-- It is at most 23 bytes lower than needed. -/
theorem rtFrameStart_bounds (h : rtFrameStart rsp = some start)
    (hwrap : start + RT_SIGFRAME_UC_OFF < 2 ^ 64) :
    0x200000 ≤ start ∧ start + RT_SIGFRAME_SIZE + 8 + X86_REDZONE ≤ rsp.toNat
      ∧ rsp.toNat ≤ start + RT_SIGFRAME_SIZE + 23 + X86_REDZONE := by
  obtain ⟨hlo, heq⟩ := rtFrameStart_eq h hwrap
  omega

theorem frame_layout : RT_SIGFRAME_UC_OFF = 8 ∧ UCONTEXT_SIZE = 312 ∧ RT_SIGFRAME_INFO_OFF = 320
    ∧ SIGINFO_SIZE = 128 ∧ RT_SIGFRAME_SIZE = 448 := ⟨rfl, rfl, rfl, rfl, rfl⟩

/-- A frame in user memory does not wrap. -/
theorem frame_inside (h : start + RT_SIGFRAME_SIZE ≤ USER_STACK_TOP + 64 * PAGE_SIZE_2M) :
    start + RT_SIGFRAME_UC_OFF < 2 ^ 64 := by
  have hlimit := user_limit
  have hlayout := frame_layout
  omega

theorem rtFrameStart_lt (h : rtFrameStart rsp = some start) : start < 2 ^ 64 := by
  unfold rtFrameStart at h
  dsimp only at h
  split_ifs at h <;> exact Option.some.inj h ▸ Nat.mod_lt _ (by decide)

theorem rtFrameStart_ge (h : rtFrameStart rsp = some start) : 0x200000 ≤ start := by
  unfold rtFrameStart at h
  dsimp only at h
  split_ifs at h
  all_goals have hstart := Option.some.inj h; omega

/-- **What a frame that has been written is**: all of it lies in user memory, and it holds the
context. -/
theorem writeFrame_spec {m' : PMem} {sig : Nat} {uc : KUcontext} {restorer : Word}
    (hstart : start < 2 ^ 64) (h : writeFrame m start uc sig restorer = (m', true)) :
    start + RT_SIGFRAME_SIZE ≤ USER_STACK_TOP + 64 * PAGE_SIZE_2M
      ∧ readBytes m' (start + RT_SIGFRAME_UC_OFF) UCONTEXT_SIZE = some (encode uc.fields) := by
  obtain ⟨huc, hucsize, hinfo, hinfosize, hsize⟩ := frame_layout
  have hlen1 := length_encode_ucontext uc
  have hlen2 := length_encode_siginfo sig
  have hlen3 := length_bytesLE 8 restorer.toNat
  unfold writeFrame at h
  split at h
  · cases h
  next m1 h1 =>
  split at h
  · cases h
  next m2 h2 =>
  -- the three copies, and that none of their addresses wraps
  obtain ⟨hr1, _⟩ := copyToUserSafe_eq (congrArg Prod.snd h1)
  obtain ⟨hr2, _⟩ := copyToUserSafe_eq (congrArg Prod.snd h2)
  have hb1 := userRangeOk_bounds (by omega) hr1
  have hb2 := userRangeOk_bounds (by omega) hr2
  have hp1 : (start + RT_SIGFRAME_UC_OFF) % 2 ^ 64 = start + RT_SIGFRAME_UC_OFF := by omega
  have hp2 : (start + RT_SIGFRAME_INFO_OFF) % 2 ^ 64 = start + RT_SIGFRAME_INFO_OFF := by omega
  rw [hp1] at h1 hb1
  have hm1 := congrArg Prod.fst h1
  have hm2 := congrArg Prod.fst h2
  have hm3 := congrArg Prod.fst h
  dsimp only at hm1 hm2 hm3
  refine ⟨by omega, ?_⟩
  have hread := readBytes_copyToUserSafe (congrArg Prod.snd h1)
  rw [hm1, hlen1] at hread
  rw [← hread]
  refine readBytes_congr fun x hlo hhi => ?_
  rw [← hm3, copyToUserSafe_outside (by omega), ← hm2, copyToUserSafe_outside (by omega)]

/-- All of the frame is user memory that can be accessed. -/
def Accessible (m : PMem) (start : Nat) : Prop :=
  start + RT_SIGFRAME_SIZE ≤ USER_STACK_TOP + 64 * PAGE_SIZE_2M
    ∧ ∀ x, start ≤ x → x < start + RT_SIGFRAME_SIZE → (m x).isSome = true

/-- The three copies of a frame are complete if each is. -/
theorem writeFrame_copies {sig : Nat} {uc : KUcontext} {restorer : Word} :
    (writeFrame m start uc sig restorer).2 = true
      ↔ (copyToUserSafe m ((start + RT_SIGFRAME_UC_OFF) % 2 ^ 64) (encode uc.fields)).2 = true
        ∧ (copyToUserSafe m ((start + RT_SIGFRAME_INFO_OFF) % 2 ^ 64)
        (encode (siginfoFields sig))).2 = true
        ∧ (copyToUserSafe m start (bytesLE 8 restorer.toNat)).2 = true := by
  unfold writeFrame
  split
  next m1 h1 =>
    rw [h1]
    exact iff_of_false (by simp) fun h => Bool.noConfusion h.1
  next m1 h1 =>
    rw [h1, and_iff_right rfl, ← copyToUserSafe_after h1, ← copyToUserSafe_after h1 (q := start)]
    split
    next m2 h2 =>
      rw [h2]
      exact iff_of_false (by simp) fun h => Bool.noConfusion h.1
    next m2 h2 => rw [h2, and_iff_right rfl, copyToUserSafe_after h2]

/-- **A frame can be written if and only if it is accessible.** -/
theorem writeFrame_iff {sig : Nat} {uc : KUcontext} {restorer : Word} (hlo : 0x10000 ≤ start)
    (hstart : start < 2 ^ 64) : (writeFrame m start uc sig restorer).2 = true ↔
    Accessible m start := by
  obtain ⟨huc, hucsize, hinfo, hinfosize, hsize⟩ := frame_layout
  have hlimit := user_limit
  have hlen1 := length_encode_ucontext uc
  have hlen2 := length_encode_siginfo sig
  have hlen3 := length_bytesLE 8 restorer.toNat
  have hinside : start + RT_SIGFRAME_SIZE ≤ USER_STACK_TOP + 64 * PAGE_SIZE_2M →
      (start + RT_SIGFRAME_UC_OFF) % 2 ^ 64 = start + RT_SIGFRAME_UC_OFF
        ∧ (start + RT_SIGFRAME_INFO_OFF) % 2 ^ 64 = start + RT_SIGFRAME_INFO_OFF := by omega
  constructor
  · intro h
    have hend := (writeFrame_spec hstart (Prod.ext rfl h)).1
    obtain ⟨h1, h2, h3⟩ := writeFrame_copies.mp h
    rw [(hinside hend).1] at h1
    rw [(hinside hend).2] at h2
    refine ⟨hend, fun x hx hx' => ?_⟩
    -- in which of the three parts it is
    by_cases hx1 : x < start + RT_SIGFRAME_UC_OFF
    · exact (copyToUserSafe_iff.mp h3).2 x hx (by omega)
    · by_cases hx2 : x < start + RT_SIGFRAME_INFO_OFF
      · exact (copyToUserSafe_iff.mp h1).2 x (by omega) (by omega)
      · exact (copyToUserSafe_iff.mp h2).2 x (by omega) (by omega)
  · rintro ⟨hend, hmapped⟩
    have hcopy : ∀ (p : Nat) (bytes : List Nat), start ≤ p →
        p + bytes.length ≤ start + RT_SIGFRAME_SIZE → (copyToUserSafe m p bytes).2 = true := by
      intro p bytes hp hend'
      exact copyToUserSafe_iff.mpr ⟨userRangeOk_of_bounds (by omega) (by omega),
        fun x h1 h2 => hmapped x (by omega) (by omega)⟩
    rw [writeFrame_copies, (hinside hend).1, (hinside hend).2]
    exact ⟨hcopy _ _ (by omega) (by omega), hcopy _ _ (by omega) (by omega),
      hcopy _ _ le_rfl (by omega)⟩

end AxonOS.Signal

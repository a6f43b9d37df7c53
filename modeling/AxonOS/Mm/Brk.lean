import AxonOS.Arch.Addr
import AxonOS.Lib.SlotTable

/-! # The program break

`user_syscall_brk` keeps the break of a process in the address space and, once more, in every
thread. On entry it takes the lowest base and the highest break of all copies; a successful call
writes the address space and the calling thread, and raises the other threads.

`entryBrk` is what a call finds on entry, the break the process has. The main result says for which
calls the break does what it should: the address space keeps it when the call fails, and every
thread reads the requested one when the call succeeds.
-/

namespace AxonOS.Mm

open Arch Lib List Option

abbrev MmId := Nat

/-! ## The state -/

/-- The fields of `thread_t` that are read and written here. -/
structure BrkThread where
  ring : Nat
  mm : Option MmId
  brkBase : Nat
  brkCur : Nat
  deriving DecidableEq, Repr

/-- The thread table, `brk_base` and `brk_current` of every address space, and the pair of globals
that is used without a thread. -/
structure BrkState where
  threads : List (Option BrkThread)
  mmBrk : MmId → Nat × Nat
  globalBrk : Nat × Nat

/-- Where `p_base` and `p_cur` point. -/
inductive BrkLoc where
  | mm (m : MmId)
  | thread (i : Nat)
  | global
  deriving DecidableEq, Repr

def BrkState.threadAt (s : BrkState) (i : Nat) : Option BrkThread := (s.threads[i]?).join

/-- The thread in slot `i` with a new copy of the break. -/
def BrkState.setThread (s : BrkState) (i : Nat) (b : Nat × Nat) : BrkState :=
  match s.threadAt i with
  | none => s
  | some t => { s with threads := s.threads.set i (some { t with brkBase := b.1, brkCur := b.2 }) }

def BrkState.get (s : BrkState) : BrkLoc → Nat × Nat
  | .mm m => s.mmBrk m
  | .thread i => ((s.threadAt i).map fun t => (t.brkBase, t.brkCur)).getD (0, 0)
  | .global => s.globalBrk

def BrkState.set (s : BrkState) (b : Nat × Nat) : BrkLoc → BrkState
  | .mm m => { s with mmBrk := fun k => if k = m then b else s.mmBrk k }
  | .thread i => s.setThread i b
  | .global => { s with globalBrk := b }

def BrkThread.uses (m : MmId) (t : BrkThread) : Bool := t.ring == 3 && t.mm == some m

/-- The threads that the loops over the thread table do not skip. -/
def BrkState.sharers (s : BrkState) (m : MmId) : List BrkThread :=
  s.threads.filterMap fun o => o.filter (BrkThread.uses m)

/-- The address space of the calling thread. -/
def BrkState.mmOf (s : BrkState) (tcur : Option Nat) : Option MmId :=
  (tcur.bind s.threadAt).bind (·.mm)

def maxCur (l : List BrkThread) (fallback : Nat) : Nat :=
  l.foldl (fun v t => if t.brkCur > v then t.brkCur else v) fallback

def pickBase (l : List BrkThread) (fallback : Nat) : Nat :=
  l.foldl (fun v t => if t.brkBase > 0 ∧ (v = 0 ∨ t.brkBase < v) then t.brkBase else v) fallback

def userAsSharedMaxBrkCur (s : BrkState) (tcur : Option Nat) (fallback : Nat) : Nat :=
  match s.mmOf tcur with
  | none => fallback
  | some m => maxCur (s.sharers m) fallback

def userAsSharedPickBrkBase (s : BrkState) (tcur : Option Nat) (fallback : Nat) : Nat :=
  match s.mmOf tcur with
  | none => fallback
  | some m => pickBase (s.sharers m) fallback

/-- A thread of the process takes over a published break: the base if it has none, the break if it
is higher than its own. -/
def BrkThread.takeOver (base cur : Nat) (t : BrkThread) : BrkThread :=
  { t with
    brkBase := if t.brkBase = 0 then base else t.brkBase
    brkCur := if t.brkCur < cur then cur else t.brkCur }

def userAsSharedPublishBrk (s : BrkState) (tcur : Option Nat) (base cur : Nat) : BrkState :=
  match s.mmOf tcur with
  | none => s
  | some m =>
    { s with
      threads := s.threads.map fun o =>
        o.map fun t => if t.uses m then t.takeOver base cur else t }

/-! ## The call -/

def USER_STACK_SIZE : Nat := 8 * 1024 * 1024
def USER_TLS_SIZE : Nat := 2 * 1024 * 1024
def USER_TLS_BASE : Nat := USER_STACK_TOP - USER_STACK_SIZE - USER_TLS_SIZE

/-- The break of a process that has none yet. -/
def DEFAULT_BRK : Nat := 8 * 1024 * 1024

/-- What a call learns from the rest of the kernel: where the kernel heap starts (`heap_base_addr`),
the lowest mapping above the base (`user_vma_min_mmap_like_for_thread`), the user stack pointer,
whether the growth hits the user stack, the kernel heap or a mapping, and the result of
`user_brk_ensure_range`. -/
structure BrkEnv where
  heapBase : Nat
  minMmap : Nat → Nat
  rsp : Nat
  hitsStack : Nat → Nat → Bool
  hitsKernelHeap : Nat → Nat → Bool
  hitsVma : Nat → Nat → Bool
  ensureRange : Nat → Nat → Int

/-- The cap below the kernel heap, which `brk` applies twice. -/
def heapCap (heapBase top : Nat) : Nat :=
  if heapBase > 0x200000 ∧ heapBase < MMIO_IDENTITY_LIMIT then
    let cap := if heapBase > 0x20000 then heapBase - 0x20000 else heapBase
    if cap < top then cap else top
  else top

def userAsMmapBrkTopLimit (env : BrkEnv) : Nat :=
  heapCap env.heapBase (if USER_TLS_BASE > USER_STACK_TOP then USER_STACK_TOP else USER_TLS_BASE)

/-- The limit of the break: below the kernel heap, the lowest mapping and the stack pointer. -/
def brkTopLimit (env : BrkEnv) (base : Nat) : Nat :=
  let top := heapCap env.heapBase (userAsMmapBrkTopLimit env)
  let mmapLo := env.minMmap base
  let top := if mmapLo < MMIO_IDENTITY_LIMIT ∧ mmapLo > base ∧ mmapLo < top then mmapLo else top
  if env.rsp ≥ 0x200000 ∧ env.rsp < top then
    let cap := if env.rsp > 0x40000 then env.rsp - 0x40000 else 0x200000
    if cap < top then cap else top
  else top

/-- One of the checks before the break grows fails. -/
def growRefused (env : BrkEnv) (hasThread : Bool) (cur req : Nat) : Bool :=
  (hasThread && env.hitsStack cur (req - cur)) || env.hitsKernelHeap cur (req - cur)
    || (hasThread && env.hitsVma cur (req - cur)) || env.ensureRange cur req != 0

/-- `user_mm_align_up(req, 16)`. -/
def alignUp16 (req : Nat) : Nat := (req + 15) % 2 ^ 64 / 16 * 16

def BrkState.loc (s : BrkState) (tcur : Option Nat) : BrkLoc :=
  match s.mmOf tcur with
  | some m => .mm m
  | none =>
    match tcur with
    | some i => .thread i
    | none => .global

/-- The entry of `user_syscall_brk`: take over what the threads of the process say, and the default
if there is nothing. -/
def brkEntry (s : BrkState) (tcur : Option Nat) : BrkState :=
  let b := s.get (s.loc tcur)
  let b :=
    if tcur.isSome then
      let sharedBase := userAsSharedPickBrkBase s tcur b.1
      let sharedCur := userAsSharedMaxBrkCur s tcur b.2
      (if sharedBase ≠ 0 ∧ (b.1 = 0 ∨ b.1 > sharedBase) then sharedBase else b.1,
        if sharedCur > b.2 then sharedCur else b.2)
    else b
  s.set (if b.1 = 0 then (DEFAULT_BRK, DEFAULT_BRK) else b) (s.loc tcur)

def userSyscallBrk (env : BrkEnv) (s : BrkState) (tcur : Option Nat) (req : Nat) : Nat × BrkState :=
  let s1 := brkEntry s tcur
  let loc := s.loc tcur
  let base := (s1.get loc).1
  let cur := (s1.get loc).2
  if req = 0 then (cur, s1)
  else
    let req := alignUp16 req
    if MMIO_IDENTITY_LIMIT ≤ req ∨ MMIO_IDENTITY_LIMIT ≤ cur ∨ MMIO_IDENTITY_LIMIT ≤ base then
      (DEFAULT_BRK, s1.set (DEFAULT_BRK, DEFAULT_BRK) loc)
    else if req < base ∨ brkTopLimit env base ≤ req then (cur, s1)
    else if cur < req ∧ growRefused env tcur.isSome cur req then (cur, s1)
    else
      let s2 := s1.set (base, req) loc
      let s3 :=
        match tcur with
        | none => s2
        | some i => s2.setThread i (base, req)
      (req, userAsSharedPublishBrk s3 tcur base req)

/-! ## The copies of the threads -/

section Copies

theorem maxCur_spec (l : List BrkThread) (v : Nat) :
      v ≤ maxCur l v ∧ (∀ t ∈ l, t.brkCur ≤ maxCur l v)
      ∧ (maxCur l v = v ∨ ∃ t ∈ l, t.brkCur = maxCur l v) := by
  have h := foldl_best (f := fun v t => if t.brkCur > v then t.brkCur else v) (p := fun _ => True)
    (g := BrkThread.brkCur) (R := fun a b => b ≤ a) Nat.le_refl (fun _ _ _ h h' => h'.trans h)
    (fun v t => by split <;> grind) l v
  simpa [maxCur] using h

/-- The result is the lowest of the bases that are not `0`, and `0` only if all are. -/
theorem pickBase_spec (l : List BrkThread) (v : Nat) : (v ≠ 0 → pickBase l v ≠ 0 ∧ pickBase l v ≤ v)
      ∧ (∀ t ∈ l, t.brkBase ≠ 0 → pickBase l v ≠ 0 ∧ pickBase l v ≤ t.brkBase)
      ∧ (pickBase l v = v ∨ ∃ t ∈ l, t.brkBase = pickBase l v) := by
  have h :=
    foldl_best (f := fun v t => if t.brkBase > 0 ∧ (v = 0 ∨ t.brkBase < v) then t.brkBase else v)
    (p := fun _ => True) (g := BrkThread.brkBase) (R := fun a b => b ≠ 0 → a ≠ 0 ∧ a ≤ b)
    (fun _ h => ⟨h, le_rfl⟩) (fun _ _ _ h h' h0 => by have := h' h0; have := h this.1; omega)
    (fun v t => by split <;> grind) l v
  simpa [pickBase] using h

theorem maxCur_eq {l : List BrkThread} {v : Nat} (h : ∀ t ∈ l, t.brkCur ≤ v) : maxCur l v = v := by
  obtain ⟨h1, -, h3 | ⟨t, ht, h3⟩⟩ := maxCur_spec l v
  · exact h3
  · have := h t ht
    omega

theorem pickBase_eq {l : List BrkThread} {v : Nat} (hv : v ≠ 0)
    (h : ∀ t ∈ l, t.brkBase ≠ 0 → v ≤ t.brkBase) : pickBase l v = v := by
  obtain ⟨h1, -, h3 | ⟨t, ht, h3⟩⟩ := pickBase_spec l v
  · exact h3
  · have := h t ht (by have := (h1 hv).1; omega)
    omega

end Copies

/-! ## The break of a process -/

/-- What a call by a thread of the process finds on entry. -/
def entryBrk (s : BrkState) (m : MmId) : Nat × Nat :=
  let base := pickBase (s.sharers m) (s.mmBrk m).1
  if base = 0 then (DEFAULT_BRK, DEFAULT_BRK) else (base, maxCur (s.sharers m) (s.mmBrk m).2)

/-- Slot `i` holds a user thread of the process. -/
structure MemberAt (s : BrkState) (m : MmId) (i : Nat) (t : BrkThread) : Prop where
  slot : s.threads[i]? = some (some t)
  ring : t.ring = 3
  space : t.mm = some m

theorem mem_sharers {s : BrkState} {m : MmId} {t : BrkThread} :
    t ∈ s.sharers m ↔ ∃ i, MemberAt s m i t := by
  simp only [BrkState.sharers, mem_filterMap, filter_eq_some_iff, BrkThread.uses,
    Bool.and_eq_true, beq_iff_eq]
  constructor
  · rintro ⟨o, ho, rfl, hring, hmm⟩
    obtain ⟨i, hi⟩ := mem_iff_getElem?.mp ho
    exact ⟨i, hi, hring, hmm⟩
  · rintro ⟨i, hi, hring, hmm⟩
    exact ⟨some t, mem_of_getElem? hi, rfl, hring, hmm⟩

section Entry

variable {s : BrkState} {m : MmId} {i : Nat} {t : BrkThread}

theorem MemberAt.threadAt (h : MemberAt s m i t) : s.threadAt i = some t := by
  unfold BrkState.threadAt
  rw [h.slot]
  rfl

theorem MemberAt.mmOf (h : MemberAt s m i t) : s.mmOf (some i) = some m := by
  unfold BrkState.mmOf
  rw [bind_some, h.threadAt]
  exact h.space

theorem MemberAt.loc (h : MemberAt s m i t) : s.loc (some i) = .mm m := by
  unfold BrkState.loc
  rw [h.mmOf]

/-- The address space with another break. -/
def BrkState.withMm (s : BrkState) (m : MmId) (b : Nat × Nat) : BrkState :=
  { s with mmBrk := fun k => if k = m then b else s.mmBrk k }

@[simp] theorem withMm_mmBrk (b : Nat × Nat) : (s.withMm m b).mmBrk m = b := if_pos rfl

@[simp] theorem withMm_withMm (b c : Nat × Nat) : (s.withMm m b).withMm m c = s.withMm m c := by
  unfold BrkState.withMm
  congr 1
  funext k
  by_cases hk : k = m <;> simp [hk]

/-- **On entry the address space takes the break of the process.** -/
theorem brkEntry_eq (h : MemberAt s m i t) : brkEntry s (some i) = s.withMm m (entryBrk s m) := by
  have hb := pickBase_spec (s.sharers m) (s.mmBrk m).1
  have hc := (maxCur_spec (s.sharers m) (s.mmBrk m).2).1
  unfold brkEntry entryBrk
  simp only [h.loc, userAsSharedPickBrkBase, userAsSharedMaxBrkCur, h.mmOf, BrkState.get,
    BrkState.set, isSome_some, if_true]
  generalize pickBase (s.sharers m) (s.mmBrk m).1 = base at hb ⊢
  generalize maxCur (s.sharers m) (s.mmBrk m).2 = cur at hc ⊢
  -- the lowest base replaces any other, and the highest break does
  have hbase : (if base ≠ 0 ∧ ((s.mmBrk m).1 = 0 ∨ (s.mmBrk m).1 > base) then base
      else (s.mmBrk m).1) = base := by
    split
    · rfl
    · by_cases h0 : (s.mmBrk m).1 = 0
      · omega
      · have := hb.1 h0
        omega
  have hcur : (if cur > (s.mmBrk m).2 then cur else (s.mmBrk m).2) = cur := by
    split <;> omega
  rw [hbase, hcur]
  rfl

/-- The base is not `0` and below every base a thread of the process has. -/
theorem entryBrk_base (s : BrkState) (m : MmId) :
    (entryBrk s m).1 ≠ 0 ∧ ∀ t ∈ s.sharers m, t.brkBase ≠ 0 → (entryBrk s m).1 ≤ t.brkBase := by
  have hb := pickBase_spec (s.sharers m) (s.mmBrk m).1
  unfold entryBrk
  dsimp only
  split
  next h0 =>
    refine ⟨by decide, ?_⟩
    intro t ht hne
    exact absurd h0 (hb.2.1 t ht hne).1
  next h0 => exact ⟨h0, fun t ht hne => (hb.2.1 t ht hne).2⟩

/-- The break once the address space has a base: the highest of all. -/
theorem entryBrk_of_mm {b : Nat × Nat} (hmm : s.mmBrk m = b) (hb : b.1 ≠ 0) :
    entryBrk s m = (pickBase (s.sharers m) b.1, maxCur (s.sharers m) b.2) := by
  unfold entryBrk
  rw [hmm]
  exact if_neg ((pickBase_spec (s.sharers m) b.1).1 hb).1

theorem entryBrk_withMm {b : Nat × Nat} (hb : b.1 ≠ 0) :
    entryBrk (s.withMm m b) m = (pickBase (s.sharers m) b.1, maxCur (s.sharers m) b.2) :=
  entryBrk_of_mm (withMm_mmBrk b) hb

end Entry

/-- A break as processes have it: not below its base, below 4 GiB, and no thread has a higher
one. -/
structure Sound (s : BrkState) (m : MmId) : Prop where
  le : (entryBrk s m).1 ≤ (entryBrk s m).2
  lt : (entryBrk s m).2 < MMIO_IDENTITY_LIMIT
  threads : ∀ t ∈ s.sharers m, t.brkCur ≤ (entryBrk s m).2

section Calls

variable {s : BrkState} {m : MmId} {i : Nat} {t : BrkThread}

theorem Sound.entry_idem (h : Sound s m) :
    entryBrk (s.withMm m (entryBrk s m)) m = entryBrk s m := by
  obtain ⟨h0, hle⟩ := entryBrk_base s m
  rw [entryBrk_withMm h0, pickBase_eq h0 hle, maxCur_eq h.threads]

theorem Sound.entry (h : Sound s m) : Sound (s.withMm m (entryBrk s m)) m := by
  refine ⟨?_, ?_, ?_⟩
  · rw [h.entry_idem]
    exact h.le
  · rw [h.entry_idem]
    exact h.lt
  · rw [h.entry_idem]
    exact h.threads

/-- After a successful call: the state with the new break in the address space, in the caller and,
where it is higher, in the other threads. -/
def brkGranted (s : BrkState) (m : MmId) (i req : Nat) : BrkState :=
  userAsSharedPublishBrk ((s.withMm m ((entryBrk s m).1, req)).setThread i ((entryBrk s m).1, req))
    (some i) (entryBrk s m).1 req

/-- A request that is granted: in range, between the base and the limit, and with nothing in the way
if the break grows. -/
structure Grants (env : BrkEnv) (s : BrkState) (m : MmId) (req : Nat) : Prop where
  nonzero : req ≠ 0
  range : alignUp16 req < MMIO_IDENTITY_LIMIT
  base : (entryBrk s m).1 ≤ alignUp16 req
  top : alignUp16 req < brkTopLimit env (entryBrk s m).1
  grows : ¬ ((entryBrk s m).2 < alignUp16 req
      ∧ growRefused env true (entryBrk s m).2 (alignUp16 req))

/-- `req` rounded up to a multiple of 16. -/
def roundUp16 (req : Nat) : Nat := (req + 15) / 16 * 16

section

variable (h : MemberAt s m i t)

include h

/-- **The outcomes of a call by a thread of the process.** -/
theorem brk_cases (hs : Sound s m) (env : BrkEnv) (req : Nat) :
    (alignUp16 req < MMIO_IDENTITY_LIMIT ∧ ¬ Grants env s m req
        ∧ userSyscallBrk env s (some i) req = ((entryBrk s m).2, s.withMm m (entryBrk s m)))
      ∨ (MMIO_IDENTITY_LIMIT ≤ alignUp16 req ∧ userSyscallBrk env s (some i) req
          = (DEFAULT_BRK, s.withMm m (DEFAULT_BRK, DEFAULT_BRK)))
      ∨ (Grants env s m req
        ∧ userSyscallBrk env s (some i) req
        = (alignUp16 req, brkGranted s m i (alignUp16 req))) := by
  have hle := hs.le
  have hlt := hs.lt
  unfold userSyscallBrk
  rw [brkEntry_eq h, h.loc]
  simp only [BrkState.get, withMm_mmBrk, isSome_some]
  split
  next h0 =>
    refine .inl ⟨?_, fun hg => hg.nonzero h0, rfl⟩
    subst h0
    decide
  next h0 =>
  split
  next hout =>
    refine .inr (.inl ⟨by omega, ?_⟩)
    exact congrArg _ (withMm_withMm _ _)
  next hin =>
  have hreq : alignUp16 req < MMIO_IDENTITY_LIMIT := by omega
  split
  next hrange =>
    refine .inl ⟨hreq, fun hg => ?_, rfl⟩
    have := hg.base
    have := hg.top
    omega
  next hrange =>
  split
  next hgrow => exact .inl ⟨hreq, fun hg => hg.grows hgrow, rfl⟩
  next hgrow =>
    refine .inr (.inr ⟨⟨h0, hreq, by omega, by omega, hgrow⟩, ?_⟩)
    have hset : (s.withMm m (entryBrk s m)).set ((entryBrk s m).1, alignUp16 req) (.mm m)
        = s.withMm m ((entryBrk s m).1, alignUp16 req) := withMm_withMm _ _
    rw [hset]
    rfl

theorem setThread_eq (b : Nat × Nat) : s.setThread i b
      = { s with threads := s.threads.set i (some { t with brkBase := b.1, brkCur := b.2 }) } := by
  unfold BrkState.setThread
  rw [h.threadAt]

theorem memberAt_granted (req : Nat) {j : Nat} {u : BrkThread} :
      MemberAt (brkGranted s m i req) m j u
      ↔ (j = i ∧ u = { t with brkBase := (entryBrk s m).1, brkCur := req })
        ∨ (j ≠ i ∧ ∃ x, MemberAt s m j x ∧ u = x.takeOver (entryBrk s m).1 req) := by
  have hw : MemberAt (s.withMm m ((entryBrk s m).1, req)) m i t := { h with }
  have h' : MemberAt ((s.withMm m ((entryBrk s m).1, req)).setThread i ((entryBrk s m).1, req)) m i
      { t with brkBase := (entryBrk s m).1, brkCur := req } := by
    rw [setThread_eq hw]
    exact ⟨getElem?_set_eq h.slot _, h.ring, h.space⟩
  have hthreads : (brkGranted s m i req).threads
      = (s.threads.set i (some { t with brkBase := (entryBrk s m).1, brkCur := req })).map fun o =>
          o.map fun x => if x.uses m then x.takeOver (entryBrk s m).1 req else x := by
    unfold brkGranted userAsSharedPublishBrk
    rw [h'.mmOf, setThread_eq hw]
    rfl
  have hself : ({ t with brkBase := (entryBrk s m).1, brkCur := req } : BrkThread).takeOver
      (entryBrk s m).1 req = { t with brkBase := (entryBrk s m).1, brkCur := req } := by
    simp [BrkThread.takeOver, (entryBrk_base s m).1]
  have huses :
      ({ t with brkBase := (entryBrk s m).1, brkCur := req } : BrkThread).uses m = true := by
    simp [BrkThread.uses, h.ring, h.space]
  constructor
  · rintro ⟨hslot, hring, hspace⟩
    rw [hthreads, getElem?_map] at hslot
    by_cases hj : j = i
    · subst hj
      rw [getElem?_set_eq h.slot] at hslot
      simp only [map_some, huses, if_true, hself] at hslot
      injection hslot with hslot
      injection hslot with hslot
      exact .inl ⟨rfl, hslot.symm⟩
    · rw [getElem?_set_ne (Ne.symm hj)] at hslot
      cases hold : s.threads[j]? with
      | none => rw [hold] at hslot; cases hslot
      | some o =>
        cases o with
        | none => rw [hold] at hslot; cases hslot
        | some x =>
          simp only [hold, map_some] at hslot
          injection hslot with hslot
          injection hslot with hslot
          -- taking over changes neither the ring nor the address space
          have hkeep : x.ring = u.ring ∧ x.mm = u.mm := by
            rw [← hslot]
            split <;> exact ⟨rfl, rfl⟩
          have hux : x.uses m = true := by
            simp [BrkThread.uses, hkeep.1, hkeep.2, hring, hspace]
          rw [if_pos hux] at hslot
          exact .inr ⟨hj, x, ⟨hold, hkeep.1.trans hring, hkeep.2.trans hspace⟩, hslot.symm⟩
  · rintro (⟨rfl, rfl⟩ | ⟨hj, x, hx, rfl⟩)
    · refine ⟨?_, h.ring, h.space⟩
      rw [hthreads, getElem?_map, getElem?_set_eq h.slot]
      simp only [map_some, huses, if_true, hself]
    · refine ⟨?_, hx.ring, hx.space⟩
      rw [hthreads, getElem?_map, getElem?_set_ne (Ne.symm hj), hx.slot]
      simp [BrkThread.uses, hx.ring, hx.space]

/-- **The break after a successful call**: the base is the old one, the break is the requested one
unless another thread has a higher copy. -/
theorem entryBrk_granted (hs : Sound s m) {req : Nat} (hlt : req < MMIO_IDENTITY_LIMIT)
    {b : Nat × Nat} (hb : entryBrk (brkGranted s m i req) m = b) : b.1 = (entryBrk s m).1
    ∧ req ≤ b.2 ∧ b.2 < MMIO_IDENTITY_LIMIT
      ∧ (∀ u ∈ (brkGranted s m i req).sharers m, u.brkCur ≤ b.2)
      ∧ (b.2 = req ↔ ∀ j u, j ≠ i → MemberAt s m j u → u.brkCur ≤ req) := by
  subst hb
  obtain ⟨h0, hbase⟩ := entryBrk_base s m
  have hmm : (brkGranted s m i req).mmBrk m = ((entryBrk s m).1, req) := by
    have hw : MemberAt (s.withMm m ((entryBrk s m).1, req)) m i t := { h with }
    unfold brkGranted userAsSharedPublishBrk
    rw [setThread_eq hw]
    split
    · exact withMm_mmBrk _
    · exact withMm_mmBrk _
  have hpick : pickBase ((brkGranted s m i req).sharers m) (entryBrk s m).1 = (entryBrk s m).1 := by
    refine pickBase_eq h0 ?_
    intro u hu _
    obtain ⟨j, hj⟩ := mem_sharers.mp hu
    rcases (memberAt_granted h req).mp hj with ⟨-, rfl⟩ | ⟨-, x, hx, rfl⟩
    · exact Nat.le_refl _
    · unfold BrkThread.takeOver
      split
      · exact Nat.le_refl _
      next hne => exact hbase x (mem_sharers.mpr ⟨j, hx⟩) hne
  have hentry : entryBrk (brkGranted s m i req) m
      = ((entryBrk s m).1, maxCur ((brkGranted s m i req).sharers m) req) := by
    rw [entryBrk_of_mm hmm h0, hpick]
  rw [hentry]
  obtain ⟨hge, hmax, hone⟩ := maxCur_spec ((brkGranted s m i req).sharers m) req
  -- the copies are the requested break or what another thread had
  have hcopy : ∀ u ∈ (brkGranted s m i req).sharers m, u.brkCur = req
      ∨ ∃ j x, j ≠ i ∧ MemberAt s m j x ∧ u.brkCur = x.brkCur := by
    intro u hu
    obtain ⟨j, hj⟩ := mem_sharers.mp hu
    rcases (memberAt_granted h req).mp hj with ⟨-, rfl⟩ | ⟨hne, x, hx, rfl⟩
    · exact .inl rfl
    · unfold BrkThread.takeOver
      dsimp only
      split
      · exact .inl rfl
      · exact .inr ⟨j, x, hne, hx, rfl⟩
  refine ⟨rfl, hge, ?_, hmax, ?_⟩
  · rcases hone with heq | ⟨u, hu, heq⟩
    · omega
    · rcases hcopy u hu with hreq | ⟨j, x, -, hx, hxc⟩
      · omega
      · have := hs.threads x (mem_sharers.mpr ⟨j, hx⟩)
        have := hs.lt
        omega
  · constructor
    · intro heq j u hj hu
      have hu' : u.takeOver (entryBrk s m).1 req ∈ (brkGranted s m i req).sharers m :=
        mem_sharers.mpr ⟨j, (memberAt_granted h req).mpr (.inr ⟨hj, u, hu, rfl⟩)⟩
      have := hmax _ hu'
      unfold BrkThread.takeOver at this
      dsimp only at this
      split at this <;> omega
    · intro hothers
      refine maxCur_eq ?_
      intro u hu
      rcases hcopy u hu with hreq | ⟨j, x, hj, hx, hxc⟩
      · omega
      · rw [hxc]
        exact hothers j x hj hx

theorem Sound.granted (hs : Sound s m) {req : Nat} (hlt : req < MMIO_IDENTITY_LIMIT)
    (hle : (entryBrk s m).1 ≤ req) : Sound (brkGranted s m i req) m := by
  obtain ⟨h1, h2, h3, h4, -⟩ := entryBrk_granted h hs hlt rfl
  refine ⟨?_, h3, h4⟩
  rw [h1]
  exact hle.trans h2

end

/-- The default break takes effect where the threads have no lower base and no higher break. -/
theorem Sound.reset (hs : Sound s m) : Sound (s.withMm m (DEFAULT_BRK, DEFAULT_BRK)) m := by
  have hb := (pickBase_spec (s.sharers m) DEFAULT_BRK).1 (by decide)
  obtain ⟨hge, hmax, hone⟩ := maxCur_spec (s.sharers m) DEFAULT_BRK
  have hentry := entryBrk_withMm (s := s) (m := m) (b := (DEFAULT_BRK, DEFAULT_BRK)) (by decide)
  refine ⟨?_, ?_, ?_⟩
  · rw [hentry]
    exact hb.2.trans hge
  · rw [hentry]
    dsimp only
    rcases hone with heq | ⟨u, hu, heq⟩
    · rw [heq]
      decide
    · have := hs.threads u hu
      have := hs.lt
      omega
  · rw [hentry]
    exact hmax

theorem brk_zero (h : MemberAt s m i t) (env : BrkEnv) :
    (userSyscallBrk env s (some i) 0).1 = (entryBrk s m).2 := by
  unfold userSyscallBrk
  rw [brkEntry_eq h, h.loc]
  simp [BrkState.get]

end Calls

/-! ## Runs -/

/-- A call of thread `thread`. -/
structure BrkCall where
  thread : Nat
  env : BrkEnv
  req : Nat

def BrkCall.run (s : BrkState) (c : BrkCall) : Nat × BrkState :=
  userSyscallBrk c.env s (some c.thread) c.req

def BrkCall.By (s : BrkState) (m : MmId) (c : BrkCall) : Prop := ∃ t, MemberAt s m c.thread t

/-- **What a call of `brk` should do.** If it fails, the address space keeps the published base and
break; if it succeeds, every thread of the process reads the new break. -/
structure BrkExact (s : BrkState) (m : MmId) (c : BrkCall) : Prop where
  failed : (c.run s).1 ≠ roundUp16 c.req ∨ c.req = 0 → (c.run s).2.mmBrk m = s.mmBrk m
  succeeded : c.req ≠ 0 → (c.run s).1 = roundUp16 c.req → ∀ j u env, MemberAt (c.run s).2 m j u →
      (userSyscallBrk env (c.run s).2 (some j) 0).1 = roundUp16 c.req

/-- The calls that do so. A request out of range finds the default break. One that is refused, and
is not for the break the process has, finds the address space in step with the threads. One that is
granted finds no other thread with a higher break. -/
structure BrkSafe (s : BrkState) (m : MmId) (c : BrkCall) : Prop where
  outOfRange : MMIO_IDENTITY_LIMIT ≤ alignUp16 c.req → s.mmBrk m = (DEFAULT_BRK, DEFAULT_BRK)
  refused : alignUp16 c.req < MMIO_IDENTITY_LIMIT → ¬ Grants c.env s m c.req →
    (entryBrk s m).2 ≠ roundUp16 c.req ∨ c.req = 0 → s.mmBrk m = entryBrk s m
  granted : Grants c.env s m c.req → ∀ j u, j ≠ c.thread → MemberAt s m j u →
      u.brkCur ≤ roundUp16 c.req

theorem alignUp16_le (req : Nat) : alignUp16 req ≤ roundUp16 req := by
  unfold alignUp16 roundUp16
  omega

/-- A result that is not `0` has not wrapped. -/
theorem alignUp16_eq {req : Nat} (hreq : req < 2 ^ 64) (h : alignUp16 req ≠ 0) :
    alignUp16 req = roundUp16 req := by
  unfold alignUp16 roundUp16 at *
  omega

section Run

variable {s : BrkState} {m : MmId} {c : BrkCall}

theorem brkCall_sound (hs : Sound s m) (hby : c.By s m) : Sound (c.run s).2 m := by
  obtain ⟨t, ht⟩ := hby
  unfold BrkCall.run
  rcases brk_cases ht hs c.env c.req with ⟨-, -, he⟩ | ⟨-, he⟩ | ⟨hg, he⟩
  · rw [he]
    exact hs.entry
  · rw [he]
    exact hs.reset
  · rw [he]
    exact Sound.granted ht hs hg.range hg.base

/-- **One call is right exactly if it is safe.** -/
theorem brkCall_exact_iff (hs : Sound s m) (hby : c.By s m) (hreq : c.req < 2 ^ 64) :
    BrkExact s m c ↔ BrkSafe s m c := by
  obtain ⟨t, ht⟩ := hby
  rcases brk_cases ht hs c.env c.req with ⟨hin, hnot, he⟩ | ⟨hout, he⟩ | ⟨hg, he⟩
  · -- the threads are left alone; the request may be the break the process has
    have hrun : c.run s = ((entryBrk s m).2, s.withMm m (entryBrk s m)) := he
    constructor
    · intro h
      refine ⟨fun hge => by omega, fun _ _ hfail => ?_, fun hg => absurd hg hnot⟩
      have hkeep := h.failed (by rw [hrun]; exact hfail)
      rw [hrun] at hkeep
      exact hkeep.symm.trans (withMm_mmBrk _)
    · intro h
      refine ⟨fun hfail => ?_, fun _ heq j u env hu => ?_⟩
      · rw [hrun] at hfail ⊢
        exact (withMm_mmBrk _).trans (h.refused hin hnot hfail).symm
      · rw [brk_zero hu, ← heq, hrun]
        exact congrArg Prod.snd hs.entry_idem
  · have hrun : c.run s = (DEFAULT_BRK, s.withMm m (DEFAULT_BRK, DEFAULT_BRK)) := he
    have hne : (c.run s).1 ≠ roundUp16 c.req := by
      rw [hrun]
      have : DEFAULT_BRK < MMIO_IDENTITY_LIMIT := by decide
      have := alignUp16_le c.req
      omega
    constructor
    · intro h
      refine ⟨fun _ => ?_, fun hlt => by omega, fun hg => absurd hg.range (by omega)⟩
      have hkeep := h.failed (.inl hne)
      rw [hrun] at hkeep
      exact hkeep.symm.trans (withMm_mmBrk _)
    · intro h
      refine ⟨fun _ => ?_, fun _ heq => absurd heq hne⟩
      rw [hrun]
      exact (withMm_mmBrk _).trans (h.outOfRange hout).symm
  · have hrun : c.run s = (alignUp16 c.req, brkGranted s m c.thread (alignUp16 c.req)) := he
    have hround : alignUp16 c.req = roundUp16 c.req := by
      refine alignUp16_eq hreq ?_
      have := (entryBrk_base s m).1
      have := hg.base
      omega
    have hlt := hg.range
    rw [hround] at hrun hlt
    have hnew := (entryBrk_granted ht hs hlt rfl).2.2.2.2
    constructor
    · intro h
      refine ⟨fun hge => by omega, fun _ hnot => absurd hg hnot, fun _ => hnew.mp ?_⟩
      -- the caller is a thread that reads the break
      have hself := (memberAt_granted ht (roundUp16 c.req)).mpr (.inl ⟨rfl, rfl⟩)
      have hread := h.succeeded hg.nonzero (by rw [hrun]) c.thread _ c.env
        (by rw [hrun]; exact hself)
      rw [hrun] at hread
      rwa [brk_zero hself] at hread
    · intro h
      refine ⟨fun hfail => ?_, fun _ heq j u env hu => ?_⟩
      · rcases hfail with hne | hzero
        · rw [hrun] at hne
          exact absurd rfl hne
        · exact absurd hzero hg.nonzero
      · rw [hrun] at hu ⊢
        rw [brk_zero hu]
        exact hnew.mpr (h.granted hg)

end Run

def runBrk (calls : List BrkCall) (s : BrkState) : BrkState :=
  calls.foldl (fun s c => (c.run s).2) s

def CallsBy (m : MmId) : List BrkCall → BrkState → Prop
  | [], _ => True
  | c :: cs, s => c.By s m ∧ CallsBy m cs (c.run s).2

theorem runBrk_sound {m : MmId} {calls : List BrkCall} {s : BrkState} (hs : Sound s m)
    (hby : CallsBy m calls s) :
    Sound (runBrk calls s) m := by
  induction calls generalizing s with
  | nil => exact hs
  | cons c cs ih => exact ih (brkCall_sound hs hby.1) hby.2

/-- **After any calls of any threads, a call is right exactly if it is safe.** -/
theorem brk_exact_iff (m : MmId) (s : BrkState) (calls : List BrkCall) (c : BrkCall)
    (hstart : Sound s m) (hcalls : CallsBy m calls s) (hby : c.By (runBrk calls s) m)
    (hreq : c.req < 2 ^ 64) :
    BrkExact (runBrk calls s) m c ↔ BrkSafe (runBrk calls s) m c :=
  brkCall_exact_iff (runBrk_sound hstart hcalls) hby hreq

/-- Two threads in the address space `7`, with the base at 9 MiB and the break at 10 MiB. -/
def twoThreads : BrkState :=
  { threads := [some ⟨3, some 7, 0x900000, 0xA00000⟩, some ⟨3, some 7, 0x900000, 0xA00000⟩]
    mmBrk := fun _ => (0x900000, 0xA00000)
    globalBrk := (0, 0) }

/-- Nothing is in the way of the break. -/
def openEnv : BrkEnv :=
  { heapBase := 0
    minMmap := fun _ => MMIO_IDENTITY_LIMIT
    rsp := 0
    hitsStack := fun _ _ => false
    hitsKernelHeap := fun _ _ => false
    hitsVma := fun _ _ => false
    ensureRange := fun _ _ => 0 }

theorem twoThreads_sound : Sound twoThreads 7 := ⟨by decide, by decide, by decide⟩

/-- The first thread grows the break, then the second one does. -/
theorem brk_exact_grow :
    ((BrkCall.mk 1 openEnv 0xB00000).run (runBrk [⟨0, openEnv, 0xA80001⟩] twoThreads)).1 = 0xB00000
      ∧ BrkExact (runBrk [⟨0, openEnv, 0xA80001⟩] twoThreads) 7 ⟨1, openEnv, 0xB00000⟩ := by
  refine ⟨by decide, (brk_exact_iff 7 twoThreads [⟨0, openEnv, 0xA80001⟩] ⟨1, openEnv, 0xB00000⟩
    twoThreads_sound ⟨⟨_, rfl, rfl, rfl⟩, trivial⟩ ⟨⟨3, some 7, 0x900000, 0xA80010⟩, ?_, rfl, rfl⟩
    (by decide)).mpr ⟨fun hge => absurd hge (by decide), fun _ hnot => absurd ?_ hnot,
    fun _ j u hj hu => ?_⟩⟩
  · rfl
  · exact ⟨by decide, by decide, by decide, by decide, by decide⟩
  have hslot := hu.slot
  match j, hj with
  | 0, _ =>
    injection hslot with hslot
    injection hslot with hslot
    rw [← hslot]
    decide
  | j + 2, _ => cases hslot

/-- The first thread lowers the break to 9.5 MiB, which succeeds; the break then reads 10 MiB again.
And a request of 4 GiB, which fails, moves the published base and break to 8 MiB. -/
theorem brk_exact_fails :
        Sound twoThreads 7 ∧ (((BrkCall.mk 0 openEnv 0x980000).run twoThreads).1 = 0x980000
        ∧ (userSyscallBrk openEnv ((BrkCall.mk 0 openEnv 0x980000).run twoThreads).2 (some 0) 0).1
        = 0xA00000
        ∧ ¬ BrkExact twoThreads 7 ⟨0, openEnv, 0x980000⟩)
      ∧ (((BrkCall.mk 0 openEnv 0x100000000).run twoThreads).1 = 0x800000
        ∧ twoThreads.mmBrk 7 = (0x900000, 0xA00000)
        ∧ ((BrkCall.mk 0 openEnv 0x100000000).run twoThreads).2.mmBrk 7 = (0x800000, 0x800000)
        ∧ ¬ BrkExact twoThreads 7 ⟨0, openEnv, 0x100000000⟩) := by
  refine ⟨twoThreads_sound, ⟨by decide, by decide, ?_⟩, by decide, by decide, by decide, ?_⟩
  · intro h
    have hread := h.succeeded (by decide) (by decide) 1 ⟨3, some 7, 0x900000, 0xA00000⟩ openEnv
      ⟨by decide, rfl, rfl⟩
    exact absurd hread (by decide)
  · intro h
    exact absurd (h.failed (.inl (by decide))) (by decide)

end AxonOS.Mm

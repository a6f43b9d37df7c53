import AxonOS.Frame.Slots

/-! # Conservation of physical frames

A run of the frame allocator is a sequence of `frame_alloc`, `frame_retain` and
`frame_release` calls, with any addresses, between which the owners of frames write to their
pages. `Conserved` is what should hold in every state of a run: every slot is on one list,
every page of the pool is free or live and not both, and the count of a live frame is one plus
its retains minus its releases.

The invariant has two halves: `SlotInv` for the metadata table and `PoolInv` for the pages.
Both are kept by every call as long as no frame is retained whose count has reached its
largest value: the counter has 32 bits and `frame_retain` does not check it, so that the next
retain leaves a frame with count zero that is on no free list (`not_conserved_of_wrap`).
-/

namespace AxonOS.Frame

open Lib Arch List

/-! ## The pool -/

/-- The list of free pages, threaded through their first words. -/
def FrameState.poolNext (st : FrameState) (p : Nat) : Option Nat := ofPtr (st.mem p)

structure ArenaPage (p : Pmm) (pa : Nat) : Prop where
  ready : p.inited = true
  nonzero : pa ≠ 0
  lower : p.base ≤ pa
  upper : pa < p.fin
  bound : p.fin ≤ MMIO_IDENTITY_LIMIT
  aligned : pa % 4096 = 0

variable {p : Pmm} {r s pa page : Nat} {st st' : FrameState} {raw : Option Nat} {mem : Nat → Nat}

theorem ArenaPage.pgAddr_eq (h : ArenaPage p pa) : pgAddr pa = pa := by
  have h1 := h.upper
  have h2 := h.bound
  unfold MMIO_IDENTITY_LIMIT at h2
  exact pgAddr_of_page (by omega) h.aligned

theorem ArenaPage.of_same {p' : Pmm} (h : ArenaPage p pa) (hready : p'.inited = p.inited)
    (hbase : p'.base = p.base) (hfin : p'.fin = p.fin) : ArenaPage p' pa :=
  ⟨hready.trans h.ready, h.nonzero, hbase ▸ h.lower, hfin ▸ h.upper, hfin ▸ h.bound, h.aligned⟩

/-- The live frames whose page belongs to the pool. -/
def livePool (st : FrameState) : Nat :=
  (List.range st.frames.length).countP fun i =>
    (st.slot i).refs != 0 && (st.slot i).raw.isNone

/-- The page of a `kmalloc` frame lies inside its block of two pages. -/
structure RawPage (raw pa : Nat) : Prop where
  page : pa = alignUp4K raw
  bound : raw + 8192 ≤ 2 ^ 52

theorem RawPage.range {raw : Nat} (h : RawPage raw pa) :
    raw ≤ pa ∧ pa < raw + 8192 ∧ pgAddr pa = pa := by
  have hb := h.bound
  obtain ⟨h1, h2, h3⟩ := alignUp4K_spec (v := raw) (by omega)
  rw [h.page]
  exact ⟨h1, by omega, pgAddr_of_page (by omega) h3⟩

structure PoolInv (st : FrameState) : Prop where
  pages : ∃ l, Chain st.poolNext (ofPtr st.pmm.freeHead) l ∧ l.length = st.pmm.free
    ∧ (∀ p ∈ l, ArenaPage st.pmm p)
    ∧ ∀ p ∈ l, ∀ s, st.Live s → (st.slot s).pa ≠ p
  count : st.pmm.free + livePool st = st.pmm.total
  pool : st.pmm.inited = true → ∀ s, st.Live s → (st.slot s).raw = none
      ∧ ArenaPage st.pmm (st.slot s).pa
  raw : st.pmm.inited = false → ∀ s, st.Live s → ∃ r, (st.slot s).raw = some r
      ∧ RawPage r (st.slot s).pa

/-- The frames of `st'` are frames of `st`, with the same pages and blocks, in the same arena. -/
structure Survivors (st st' : FrameState) : Prop where
  ready : st'.pmm.inited = st.pmm.inited
  base : st'.pmm.base = st.pmm.base
  fin : st'.pmm.fin = st.pmm.fin
  live : ∀ k, st'.Live k → st.Live k
  pa : ∀ k, st'.Live k → (st'.slot k).pa = (st.slot k).pa
  raw : ∀ k, st'.Live k → (st'.slot k).raw = (st.slot k).raw

/-- Where no frame is new, only the free pages and the count are left to show. -/
theorem PoolInv.survive (h : PoolInv st) (hs : Survivors st st')
    (hpages : ∃ l, Chain st'.poolNext (ofPtr st'.pmm.freeHead) l ∧ l.length = st'.pmm.free
      ∧ (∀ p ∈ l, ArenaPage st'.pmm p) ∧ ∀ p ∈ l, ∀ s, st'.Live s → (st'.slot s).pa ≠ p)
    (hcount : st'.pmm.free + livePool st' = st'.pmm.total) : PoolInv st' := by
  refine ⟨hpages, hcount, fun hi k hk => ?_, fun hi k hk => ?_⟩
  · obtain ⟨h1, h2⟩ := h.pool (hs.ready ▸ hi) k (hs.live k hk)
    rw [hs.raw k hk, hs.pa k hk]
    exact ⟨h1, h2.of_same hs.ready hs.base hs.fin⟩
  · rw [hs.raw k hk, hs.pa k hk]
    exact h.raw (hs.ready ▸ hi) k (hs.live k hk)

theorem SlotInv.of_pool (h : SlotInv st) (pmm : Pmm) (mem : Nat → Nat) :
    SlotInv { st with pmm := pmm, mem := mem } := { h with }

/-- What `kmalloc` promises for a block of two pages: it is disjoint from the blocks behind
live frames. -/
def FreshBlock (st : FrameState) (r : Nat) : Prop :=
  r ≠ 0 ∧ r + 8192 ≤ 2 ^ 52
  ∧ ∀ s q, st.Live s → (st.slot s).raw = some q → r + 8192 ≤ q ∨ q + 8192 ≤ r

/-! ## One call -/

/-- Changing the link and reference count of slots, or the slot lists, leaves the pool alone. -/
theorem poolInv_congr (h : PoolInv st) (hlen : st'.frames.length = st.frames.length)
    (hpmm : st'.pmm = st.pmm) (hmem : st'.mem = st.mem) (hlive : ∀ k, st'.Live k ↔ st.Live k)
    (hpa : ∀ k, (st'.slot k).pa = (st.slot k).pa) (hraw : ∀ k, (st'.slot k).raw = (st.slot k).raw) :
    PoolInv st' := by
  have hnext : st'.poolNext = st.poolNext := by
    funext p
    rw [FrameState.poolNext, FrameState.poolNext, hmem]
  have hcount : livePool st' = livePool st := by
    unfold livePool
    rw [hlen]
    refine countP_congr fun k hk => ?_
    have hk := mem_range.mp hk
    have := hlive k
    simp only [FrameState.Live, hlen, hk, true_and] at this
    simp only [Bool.and_eq_true, bne_iff_ne, hraw k, this]
  have hs : Survivors st st' := ⟨by rw [hpmm], by rw [hpmm], by rw [hpmm],
    fun k hk => (hlive k).mp hk, fun k _ => hpa k, fun k _ => hraw k⟩
  refine h.survive hs ?_ ?_
  · obtain ⟨l, hc, hl, ha, hn⟩ := h.pages
    refine ⟨l, by rw [hnext, hpmm]; exact hc, by rw [hpmm]; exact hl, by rw [hpmm]; exact ha, ?_⟩
    intro p hp s hs
    rw [hpa s]
    exact hn p hp s ((hlive s).mp hs)
  · rw [hpmm, hcount]
    exact h.count

structure FrameInv (st : FrameState) : Prop where
  slots : SlotInv st
  pages : PoolInv st
  width : ∀ s, st.Live s → (st.slot s).refs < 2 ^ 32

/-- **`frame_retain` ends**: it fails on an address without a live frame and adds one, modulo
`2^32`, to the count of a live one. -/
theorem frameRetain_cases (hinv : SlotInv st) (pa : Nat) :
    (frameRetain pa st = some (-1, st) ∧ ∀ s, st.Live s → (st.slot s).pa ≠ pgAddr pa)
    ∨ ∃ s, st.Live s ∧ (st.slot s).pa = pgAddr pa ∧ frameRetain pa st = some (0,
          st.setSlot s { st.slot s with refs := ((st.slot s).refs + 1) % 2 ^ 32 }) := by
  obtain ⟨r, hr, hslot⟩ := frameSlotLocked_spec hinv pa
  unfold frameRetain
  rw [hr]
  cases r with
  | none => exact .inl ⟨rfl, hslot⟩
  | some s => exact .inr ⟨s, hslot.1, hslot.2, rfl⟩

theorem frameRefcount_live (hinv : SlotInv st) (hs : st.Live s) (hpa : (st.slot s).pa = pgAddr pa) :
    frameRefcount pa st = some (st.slot s).refs := by
  unfold frameRefcount
  rw [frameSlotLocked_live hinv hs hpa]

theorem frameRefcount_dead (hinv : SlotInv st) (h : ∀ s, st.Live s → (st.slot s).pa ≠ pgAddr pa) :
    frameRefcount pa st = some 0 := by
  obtain ⟨r, hr, hslot⟩ := frameSlotLocked_spec hinv pa
  unfold frameRefcount
  rw [hr]
  cases r with
  | none => rfl
  | some t => exact absurd hslot.2 (h t hslot.1)

/-- A new positive count for a live frame keeps the invariant. -/
theorem frameInv_setRefs (hinv : FrameInv st) (hs : st.Live s) (hr : r ≠ 0) (hr' : r < 2 ^ 32) :
    FrameInv (st.setSlot s { st.slot s with refs := r }) := by
  refine ⟨slotInv_setRefs hinv.slots hs hr, poolInv_congr hinv.pages (setSlot_length st s _) rfl
    rfl (setRefs_live hs hr) (setRefs_pa hs.1 r) fun k => ?_, fun k hk => ?_⟩
  · obtain ⟨n, hn⟩ := setRefs_same hs.1 r k
    rw [hn]
  · rw [setRefs_slot hs.1]
    by_cases hks : k = s
    · rw [if_pos hks]; exact hr'
    · rw [if_neg hks]; exact hinv.width k ((setRefs_live hs hr k).mp hk)

/-! ## Allocation -/

/-- One more live frame counts towards the pool exactly when it has no block of its own. -/
theorem livePool_tracked (h : Tracked page raw s st st') (hinv : SlotInv st) :
    livePool st' = livePool st + raw.isNone.toNat := by
  obtain ⟨link, hself⟩ := h.self
  obtain ⟨hlt, hfree⟩ := hinv.head_free h.head
  have hc := countP_range_change (q := fun i => (st'.slot i).refs != 0 && (st'.slot i).raw.isNone)
    hlt (fun k hk => by rw [h.others k hk])
  rw [hself, hfree] at hc
  unfold livePool
  rw [h.length]
  simpa using hc

theorem Tracked.cases (h : Tracked page raw s st st') (hinv : SlotInv st) {k : Nat}
    (hk : st'.Live k) :
    (∃ link, st'.slot k = ⟨page, raw, 1, link⟩) ∨ st.Live k ∧ st'.slot k = st.slot k := by
  by_cases hks : k = s
  · subst hks
    exact .inl h.self
  · exact .inr ⟨((h.live_iff hinv k).mp hk).resolve_right hks, h.others k hks⟩

theorem Tracked.width (h : Tracked page raw s st st') (hinv : SlotInv st)
    (hold : ∀ k, st.Live k → (st.slot k).refs < 2 ^ 32) : ∀ k, st'.Live k →
    (st'.slot k).refs < 2 ^ 32 := by
  intro k hk
  rcases h.cases hinv hk with ⟨link, hself⟩ | ⟨hk', hsame⟩
  · rw [hself]; exact Nat.one_lt_two_pow (by decide)
  · rw [hsame]
    exact hold k hk'

theorem poolInv_pop (hinv : FrameInv st) (hready : st.pmm.inited = true)
    (hhead : st.pmm.freeHead ≠ 0) (h : Tracked st.pmm.freeHead none s { st with pmm := { st.pmm with
          freeHead := st.mem st.pmm.freeHead, free := st.pmm.free - 1 } } st') :
    FrameInv st' ∧ ∀ k, st.Live k → (st.slot k).pa ≠ st.pmm.freeHead := by
  set page := st.pmm.freeHead
  set st0 : FrameState := { st with pmm := { st.pmm with
    freeHead := st.mem page, free := st.pmm.free - 1 } }
  have hslots0 : SlotInv st0 := hinv.slots.of_pool _ _
  obtain ⟨l, hc, hl, ha, hn⟩ := hinv.pages.pages
  rw [show ofPtr page = some page from if_neg hhead] at hc
  obtain ⟨t, rfl, ht⟩ := chain_some hc
  have hnd := nodup_cons.mp (chain_nodup hc)
  have hfresh : ∀ k, st.Live k → (st.slot k).pa ≠ page := fun k hk => hn page (by simp) k hk
  have harena : ArenaPage st.pmm page := ha page (by simp)
  have harena' : ∀ q, ArenaPage st.pmm q → ArenaPage st'.pmm q := by
    intro q hq
    rw [h.pmm]
    exact hq.of_same rfl rfl rfl
  have hpool : ∀ k, st'.Live k → (st'.slot k).raw = none ∧ ArenaPage st'.pmm (st'.slot k).pa := by
    intro k hk
    rcases h.cases hslots0 hk with ⟨link, hself⟩ | ⟨hk', hsame⟩
    · rw [hself]
      exact ⟨rfl, harena' page harena⟩
    · rw [hsame]
      obtain ⟨h1, h2⟩ := hinv.pages.pool hready k hk'
      exact ⟨h1, harena' _ h2⟩
  refine ⟨⟨h.slotInv hslots0 harena.pgAddr_eq hfresh, ⟨?_, ?_, ?_, ?_⟩, h.width hslots0 hinv.width⟩,
    hfresh⟩
  · refine ⟨t, ?_, ?_, fun p hp => harena' p (ha p (by simp [hp])), ?_⟩
    · rw [h.pmm]
      refine chain_congr (fun p _ => ?_) ht
      rw [FrameState.poolNext, FrameState.poolNext, h.mem]
    · rw [h.pmm]
      simp only [length_cons] at hl
      show t.length = st.pmm.free - 1
      omega
    · intro p hp k hk
      rcases h.cases hslots0 hk with ⟨link, hself⟩ | ⟨hk', hsame⟩
      · rw [hself]
        rintro rfl
        exact hnd.1 hp
      · rw [hsame]
        exact hn p (by simp [hp]) k hk'
  · have h1 := livePool_tracked h hslots0
    have h2 := hinv.pages.count
    have h3 : livePool st0 = livePool st := rfl
    rw [h.pmm, h1]
    simp only [length_cons] at hl
    show st.pmm.free - 1 + (livePool st + (none : Option Nat).isNone.toNat) = st.pmm.total
    simp
    omega
  · exact fun _ => hpool
  · intro hi
    rw [h.pmm] at hi
    exact absurd (hready.symm.trans hi) (by decide)

/-- The pool does not change when a frame is made from a `kmalloc` block. -/
theorem poolInv_raw (hinv : FrameInv st) (hready : st.pmm.inited = false) (hfresh : FreshBlock st r)
    (h : Tracked (alignUp4K r) (some r) s st st') :
    FrameInv st' ∧ ∀ k, st.Live k → (st.slot k).pa ≠ alignUp4K r := by
  obtain ⟨-, hr1, hdisj⟩ := hfresh
  have hpg : RawPage r (alignUp4K r) := ⟨rfl, hr1⟩
  obtain ⟨hp1, hp2, hp3⟩ := hpg.range
  have hnew : ∀ k, st.Live k → (st.slot k).pa ≠ alignUp4K r := by
    intro k hk heq
    obtain ⟨q, hq, hqpg⟩ := hinv.pages.raw hready k hk
    obtain ⟨h1, h2, -⟩ := hqpg.range
    have := hdisj k q hk hq
    omega
  -- a pool that was never set up has no free pages
  have hnopages : ∀ l, (∀ p ∈ l, ArenaPage st.pmm p) → l = [] := by
    intro l hl
    cases l with
    | nil => rfl
    | cons p t => exact absurd (hready.symm.trans (hl p (by simp)).ready) (by decide)
  refine ⟨⟨h.slotInv hinv.slots hp3 hnew, ⟨?_, ?_, ?_, ?_⟩, h.width hinv.slots hinv.width⟩, hnew⟩
  · obtain ⟨l, hc, hl, ha, -⟩ := hinv.pages.pages
    obtain rfl := hnopages l ha
    refine ⟨[], ?_, ?_, fun p hp => absurd hp not_mem_nil, fun p hp => absurd hp not_mem_nil⟩
    · rw [h.pmm]; exact hc
    · rw [h.pmm]; exact hl
  · rw [h.pmm, livePool_tracked h hinv.slots]
    simpa using hinv.pages.count
  · intro hi
    rw [h.pmm] at hi
    exact absurd (hready.symm.trans hi) (by decide)
  · intro _ k hk
    rcases h.cases hinv.slots hk with ⟨link, hself⟩ | ⟨hk', hsame⟩
    · rw [hself]
      exact ⟨r, rfl, hpg⟩
    · rw [hsame]
      exact hinv.pages.raw hready k hk'

/-- The block `kmalloc` hands out, if it is asked for one, is fresh. -/
def KmallocOk (st : FrameState) (raw : Option Nat) : Prop :=
  st.pmm.inited = true ∨ ∀ r, raw = some r → FreshBlock st r

/-- A new frame: its page is not live before the call and has count one afterwards; the other
frames are untouched. -/
structure Allocated (page : Nat) (st st' : FrameState) : Prop where
  inv : FrameInv st'
  fresh : ∀ k, st.Live k → (st.slot k).pa ≠ page
  slot : ∃ s, st'.Live s ∧ (st'.slot s).pa = page ∧ (st'.slot s).refs = 1
    ∧ ∀ k, k ≠ s → (st'.Live k ↔ st.Live k) ∧ st'.slot k = st.slot k

theorem allocated_of_tracked (st0 : FrameState) (hframes : st0.frames = st.frames)
    (hslots : SlotInv st0) (h : Tracked page raw s st0 st') (hinv : FrameInv st')
    (hfresh : ∀ k, st.Live k → (st.slot k).pa ≠ page) : Allocated page st st' := by
  obtain ⟨link, hself⟩ := h.self
  have hslot : ∀ k, st0.slot k = st.slot k := fun k => by
    rw [FrameState.slot, FrameState.slot, hframes]
  have hlive := h.live_iff hslots
  have hlive0 : ∀ k, st0.Live k ↔ st.Live k := fun k => by
    rw [FrameState.Live, FrameState.Live, hframes, hslot k]
  refine ⟨hinv, hfresh, s, (hlive s).mpr (.inr rfl), by rw [hself], by rw [hself], ?_⟩
  intro k hk
  refine ⟨?_, (h.others k hk).trans (hslot k)⟩
  rw [hlive k, hlive0 k]
  exact ⟨fun hx => hx.resolve_right hk, .inl⟩

theorem store_same (mem : Nat → Nat) (p : Nat) : store mem p (mem p) = mem := by
  funext q
  unfold store
  split
  · rename_i h; rw [h]
  · rfl

theorem pmmAllocPage_empty (h : p.freeHead = 0) : pmmAllocPage p mem = (none, p) := by
  unfold pmmAllocPage
  rw [if_pos h, ite_self]

theorem pmmAllocPage_head (hready : p.inited = true) (h : p.freeHead ≠ 0) : pmmAllocPage p mem
      = (some p.freeHead, { p with freeHead := mem p.freeHead, free := p.free - 1 }) := by
  unfold pmmAllocPage
  rw [if_neg (by simp [hready]), if_neg h]

theorem pmmFreePage_page (h : ArenaPage p page) :
    pmmFreePage page p mem = ({ p with freeHead := page, free := p.free + 1 },
    store mem page p.freeHead) := by
  have h1 := h.lower
  have h2 := h.upper
  unfold pmmFreePage
  rw [if_neg (by simp [h.ready, h.nonzero]), if_neg (by omega),
    if_neg (by rw [PAGE_SIZE_4K]; simpa using h.aligned)]

/-- **`frame_alloc` fails without a trace or hands out a fresh page.** A page that was taken
from the pool before the table turned out to be full is pushed back where it came from. -/
theorem frameAlloc_cases (hinv : FrameInv st) (hraw : KmallocOk st raw) :
    frameAlloc raw st = (none, st)
    ∨ ∃ page st', frameAlloc raw st = (some page, st') ∧ Allocated page st st' := by
  unfold frameAlloc
  by_cases hnull : st.frames.isEmpty = true
  · rw [if_pos hnull]; exact .inl rfl
  rw [if_neg hnull]
  by_cases hready : st.pmm.inited = true
  · rw [if_pos hready]
    by_cases hhead : st.pmm.freeHead = 0
    · rw [pmmAllocPage_empty hhead]; exact .inl rfl
    rw [pmmAllocPage_head hready hhead]
    dsimp only
    set st0 : FrameState := { st with pmm := { st.pmm with
      freeHead := st.mem st.pmm.freeHead, free := st.pmm.free - 1 } } with hst0
    have hslots0 : SlotInv st0 := hinv.slots.of_pool _ _
    rcases frameTrack_cases st0 hslots0 st.pmm.freeHead none with he | ⟨s, st', he, htr⟩
    · -- no slot: the page goes back to the head of the pool
      left
      rw [he]
      dsimp only
      obtain ⟨l, hc, hl, ha, -⟩ := hinv.pages.pages
      rw [show ofPtr st.pmm.freeHead = some st.pmm.freeHead from if_neg hhead] at hc
      obtain ⟨t, rfl, -⟩ := chain_some hc
      have harena := ha _ (mem_cons_self)
      have hpos : 0 < st.pmm.free := by rw [← hl]; simp
      have harena0 : ArenaPage st0.pmm st.pmm.freeHead := harena.of_same rfl rfl rfl
      rw [pmmFreePage_page harena0]
      simp only [hst0, store_same]
      rw [show st.pmm.free - 1 + 1 = st.pmm.free by omega]
    · right
      rw [he]
      obtain ⟨hinv', hfresh⟩ := poolInv_pop hinv hready hhead htr
      exact ⟨_, st', rfl, allocated_of_tracked st0 rfl hslots0 htr hinv' hfresh⟩
  · rw [if_neg hready]
    cases hr : raw with
    | none => exact .inl rfl
    | some r =>
      dsimp only
      have hfresh : FreshBlock st r := (hraw.resolve_left hready) r hr
      rcases frameTrack_cases st hinv.slots (alignUp4K r) (some r) with he | ⟨s, st', he, htr⟩
      · left; rw [he]
      · right
        rw [he]
        obtain ⟨hinv', hnew⟩ := poolInv_raw hinv (Bool.not_eq_true _ ▸ hready) hfresh htr
        exact ⟨_, st', rfl, allocated_of_tracked st rfl hinv.slots htr hinv' hnew⟩

/-! ## Release -/

theorem livePool_untracked (h : Untracked s st st') (hs : st.Live s) :
    livePool st' + (st.slot s).raw.isNone.toNat = livePool st := by
  have hc := countP_range_change (p := fun i => (st.slot i).refs != 0 && (st.slot i).raw.isNone)
    (q := fun i => (st'.slot i).refs != 0 && (st'.slot i).raw.isNone) hs.1
    (fun k hk => by obtain ⟨link, hl⟩ := h.others k hk; rw [hl])
  have hne : ((st.slot s).refs != 0) = true := by simpa using hs.2
  simp only [hne, h.self, Bool.true_and, bne_self_eq_false, Bool.false_and, Bool.toNat_false,
    Nat.add_zero] at hc
  unfold livePool
  rw [h.length]
  exact hc

theorem Untracked.width (h : Untracked s st st')
    (hold : ∀ k, st.Live k → (st.slot k).refs < 2 ^ 32) :
    ∀ k, st'.Live k → (st'.slot k).refs < 2 ^ 32 := by
  intro k hk
  obtain ⟨h1, h2⟩ := (h.live_iff k).mp hk
  obtain ⟨link, hl⟩ := h.others k h2
  rw [hl]
  exact hold k h1

/-- The frame of slot `s` is gone; the others are untouched. -/
structure Released (s : Nat) (st st' : FrameState) : Prop where
  inv : FrameInv st'
  live : ∀ k, st'.Live k ↔ st.Live k ∧ k ≠ s
  same : ∀ k, k ≠ s → (st'.slot k).pa = (st.slot k).pa ∧ (st'.slot k).refs = (st.slot k).refs

theorem Untracked.survivors (h : Untracked s st st') : Survivors st st' := by
  have hother : ∀ k, st'.Live k → ∃ link, st'.slot k = { st.slot k with link := link } :=
    fun k hk => h.others k ((h.live_iff k).mp hk).2
  refine ⟨by rw [h.pmm], by rw [h.pmm], by rw [h.pmm], fun k hk => ((h.live_iff k).mp hk).1,
    fun k hk => ?_, fun k hk => ?_⟩
  all_goals
    obtain ⟨link, hl⟩ := hother k hk
    rw [hl]

theorem Untracked.same (h : Untracked s st st') (k : Nat) (hk : k ≠ s) :
    (st'.slot k).pa = (st.slot k).pa ∧ (st'.slot k).refs = (st.slot k).refs := by
  obtain ⟨link, hl⟩ := h.others k hk
  rw [hl]
  exact ⟨rfl, rfl⟩

theorem released_raw (hinv : FrameInv st) (hs : st.Live s) (hraw : (st.slot s).raw = some r)
    (h : Untracked s st st') : Released s st st' := by
  have hlive := h.live_iff
  refine ⟨⟨h.slotInv hinv.slots hs, hinv.pages.survive h.survivors ?_ ?_, h.width hinv.width⟩,
    hlive, h.same⟩
  · obtain ⟨l, hc, hl, ha, hn⟩ := hinv.pages.pages
    refine ⟨l, ?_, by rw [h.pmm]; exact hl, by rw [h.pmm]; exact ha, ?_⟩
    · rw [h.pmm]
      refine chain_congr (fun p _ => ?_) hc
      rw [FrameState.poolNext, FrameState.poolNext, h.mem]
    · intro p hp k hk
      obtain ⟨h1, h2⟩ := (hlive k).mp hk
      rw [h.pa h2]
      exact hn p hp k h1
  · have hc := livePool_untracked h hs
    rw [hraw] at hc
    rw [h.pmm, ← hinv.pages.count, ← hc]
    rfl

/-- The page of a pool frame becomes the head of the pool. -/
theorem released_pool (hinv : FrameInv st) (hs : st.Live s) (hraw : (st.slot s).raw = none)
    (h : Untracked s st st') : Released s st { st' with
      pmm := (pmmFreePage (st.slot s).pa st'.pmm st'.mem).1
      mem := (pmmFreePage (st.slot s).pa st'.pmm st'.mem).2 } := by
  have hlive := h.live_iff
  have hready : st.pmm.inited = true := by
    rw [← Bool.not_eq_false]
    intro hi
    obtain ⟨r, hr, -⟩ := hinv.pages.raw hi s hs
    rw [hraw] at hr
    cases hr
  set page := (st.slot s).pa
  have harena : ArenaPage st.pmm page := (hinv.pages.pool hready s hs).2
  have hfree :
          pmmFreePage page st'.pmm st'.mem
          = ({ st.pmm with freeHead := page, free := st.pmm.free + 1 },
          store st.mem page st.pmm.freeHead) := by
    rw [h.pmm, h.mem, pmmFreePage_page harena]
  rw [hfree]
  have hold := h.survivors
  have hsurv : Survivors st { st' with
      pmm := { st.pmm with freeHead := page, free := st.pmm.free + 1 }
      mem := store st.mem page st.pmm.freeHead } := ⟨rfl, rfl, rfl, hold.live, hold.pa, hold.raw⟩
  refine ⟨⟨(h.slotInv hinv.slots hs).of_pool _ _, hinv.pages.survive hsurv ?_ ?_,
    h.width hinv.width⟩, hlive, h.same⟩
  · obtain ⟨l, hc, hl, ha, hn⟩ := hinv.pages.pages
    have hnot : ∀ p ∈ l, p ≠ page := fun p hp e => hn p hp s hs e.symm
    refine ⟨page :: l, ?_, ?_, ?_, ?_⟩
    · rw [show ofPtr page = some page from if_neg harena.nonzero]
      refine chain_push hc ?_ fun p hp => ?_
      · show ofPtr (store st.mem page st.pmm.freeHead page) = _
        rw [store, if_pos rfl]
      · show ofPtr (store st.mem page st.pmm.freeHead p) = ofPtr (st.mem p)
        rw [store, if_neg (hnot p hp)]
    · show (page :: l).length = st.pmm.free + 1
      rw [length_cons, hl]
    · intro p hp
      exact (forall_mem_cons.mpr ⟨harena, ha⟩ p hp).of_same rfl rfl rfl
    · intro p hp k hk
      obtain ⟨h1, h2⟩ := (hlive k).mp hk
      show (st'.slot k).pa ≠ p
      rw [h.pa h2]
      rcases mem_cons.mp hp with rfl | hp
      · exact fun e => h2 (hinv.slots.inj k s h1 hs e)
      · exact hn p hp k h1
  · have hc := livePool_untracked h hs
    rw [hraw] at hc
    have h2 := hinv.pages.count
    show st.pmm.free + 1 + livePool st' = st.pmm.total
    simp only [Option.isNone_none, Bool.toNat_true] at hc
    omega

/-- **`frame_release` ends**: it does nothing on an address without a live frame, takes one
from a count above one, and frees the frame otherwise. -/
theorem frameRelease_cases (hinv : FrameInv st) (pa : Nat) :
    (frameRelease pa st = some st ∧ ∀ s, st.Live s → (st.slot s).pa ≠ pgAddr pa)
    ∨ ∃ s, st.Live s ∧ (st.slot s).pa = pgAddr pa
            ∧ ((1 < (st.slot s).refs ∧ frameRelease pa st = some
            (st.setSlot s { st.slot s with refs := (st.slot s).refs - 1 }))
        ∨ ∃ st', frameRelease pa st = some st' ∧ Released s st st') := by
  obtain ⟨r, hr, hslot⟩ := frameSlotLocked_spec hinv.slots pa
  unfold frameRelease
  rw [hr]
  cases r with
  | none => exact .inl ⟨rfl, hslot⟩
  | some s =>
    obtain ⟨hs, hpa⟩ := hslot
    have hne := hs.2
    refine .inr ⟨s, hs, hpa, ?_⟩
    dsimp only
    by_cases hone : (st.slot s).refs = 1
    · right
      rw [if_pos (by omega)]
      obtain ⟨st2, hrem, hun⟩ := release_untracks hinv.slots hs ((st.slot s).refs - 1)
      rw [hrem]
      cases hraw : (st.slot s).raw with
      | some q => exact ⟨_, rfl, released_raw hinv hs hraw hun⟩
      | none =>
        rw [← hpa]
        exact ⟨_, rfl, released_pool hinv hs hraw hun⟩
    · left
      refine ⟨by omega, ?_⟩
      rw [if_neg (by omega)]

/-! ## Boot -/

/-- The loop of `frame_init`: with the slots from `i` on linked, linking the ones below makes
the whole table one list. -/
theorem linkSlots_spec (i n : Nat) (t : List FrameMeta) (head : Option Nat) (hi : i ≤ n)
    (hlen : t.length = n) (hrefs : ∀ k, (t.getD k default).refs = 0)
    (hc : Chain (fun k => (t.getD k default).link) head (List.range' i (n - i)))
    {q : List FrameMeta × Option Nat} (hq : linkSlots i (t, head) = q) : q.1.length = n
    ∧ (∀ k, (q.1.getD k default).refs = 0) ∧
      Chain (fun k => (q.1.getD k default).link) q.2 (List.range' 0 n) := by
  induction i generalizing n t head with
  | zero =>
    subst hq
    exact ⟨hlen, hrefs, hc⟩
  | succ i ih =>
    have hself : (t.set i { t.getD i default with link := head }).getD i default
        = { t.getD i default with link := head } := by
      simp [show i < t.length by omega]
    have hne : ∀ k, k ≠ i → (t.set i { t.getD i default with link := head }).getD k default
        = t.getD k default := fun k hk => by
      simp only [getD_eq_getElem?_getD, getElem?_set_ne hk.symm]
    refine ih n _ (some i) (by omega) (by simpa using hlen) ?_ ?_ hq
    · intro k
      by_cases hk : k = i
      · subst hk; rw [hself]; exact hrefs k
      · rw [hne k hk]; exact hrefs k
    · rw [show n - i = (n - (i + 1)) + 1 by omega]
      refine chain_push hc (by rw [hself]) fun k hk => ?_
      have := mem_range'_1.mp hk
      rw [hne k (by omega)]

/-- The loop of `pmm_init` pushes `n` pages on what is there. -/
theorem pmmPush_spec (n p : Nat) (mem : Nat → Nat) (head : Nat) (l : List Nat) (hp : p ≠ 0)
    (ha : p % 4096 = 0) (hb : p + n * 4096 < 2 ^ 64)
    (hc : Chain (fun q => ofPtr (mem q)) (ofPtr head) l) (hlt : ∀ q ∈ l, q < p) :
    ∃ l', Chain (fun q => ofPtr ((pmmPush n p (mem, head)).1 q)) (ofPtr (pmmPush n p (mem, head)).2)
      (l' ++ l) ∧ l'.length = n ∧ ∀ q ∈ l', p ≤ q ∧ q < p + n * 4096 ∧ q % 4096 = 0 := by
  induction n generalizing p mem head l with
  | zero => exact ⟨[], hc, rfl, fun q hq => absurd hq not_mem_nil⟩
  | succ n ih =>
    have hmod : (p + PAGE_SIZE_4K) % 2 ^ 64 = p + 4096 := by
      rw [PAGE_SIZE_4K]; exact Nat.mod_eq_of_lt (by omega)
    have hpush : Chain (fun q => ofPtr (store mem p head q)) (ofPtr p) (p :: l) := by
      rw [show ofPtr p = some p from if_neg hp]
      refine chain_push hc ?_ fun q hq => ?_
      · simp [store]
      · have : q ≠ p := by have := hlt q hq; omega
        simp [store, this]
    have hlt' : ∀ q ∈ p :: l, q < p + 4096 :=
      forall_mem_cons.mpr ⟨by omega, fun q hq => by have := hlt q hq; omega⟩
    obtain ⟨l', hc', hl', hm'⟩ :=
      ih (p + 4096) (store mem p head) p (p :: l) (by omega) (by omega) (by omega) hpush hlt'
    rw [pmmPush, hmod]
    refine ⟨l' ++ [p], by rw [append_assoc]; exact hc', by simp [hl'], ?_⟩
    refine forall_mem_append.mpr ⟨fun q hq => ?_, forall_mem_singleton.mpr (by omega)⟩
    have := hm' q hq
    omega

/-- The static variables of `pmm.c` before `pmm_init`. -/
def pmmZero : Pmm := ⟨0, 0, 0, 0, 0, false⟩

/-- The state after `pmm_init(lo, hi)` and `frame_init`; the flags are the outcomes of the
allocations of `frame_init`. -/
def boot (lo hi : Nat) (large small hashOk : Bool) (mem : Nat → Nat) : FrameState :=
  let p := pmmInit lo hi pmmZero mem
  frameInit large small hashOk ⟨[], none, none, p.1, p.2⟩

theorem pmmInit_spec {lo : Nat} (hi : Nat) (mem : Nat → Nat) (hlo : 0 < lo)
    (hlo' : lo + 8192 ≤ 2 ^ 64) {r : Pmm × (Nat → Nat)} (hr : pmmInit lo hi pmmZero mem = r) :
    ∃ l, Chain (fun q => ofPtr (r.2 q)) (ofPtr r.1.freeHead) l ∧ l.length = r.1.free
      ∧ r.1.free = r.1.total
      ∧ ∀ p ∈ l, ArenaPage r.1 p := by
  subst hr
  obtain ⟨h1, h2, h3⟩ := alignUp4K_spec (v := lo) (by omega)
  unfold pmmInit
  by_cases hsmall : alignDown4K hi ≤ (alignUp4K lo + PAGE_SIZE_4K) % 2 ^ 64
  · rw [if_pos hsmall]
    exact ⟨[], rfl, rfl, rfl, fun p hp => absurd hp not_mem_nil⟩
  rw [if_neg hsmall]
  set base := alignUp4K lo
  set fin := if MMIO_IDENTITY_LIMIT < alignDown4K hi then alignDown4K MMIO_IDENTITY_LIMIT
    else alignDown4K hi with hfin
  have hfinle : fin ≤ MMIO_IDENTITY_LIMIT := by
    rw [hfin]
    split
    · decide
    · omega
  have hcount : pmmPageCount base fin = (fin - base) / 4096 := by
    have hmod : (base + 4096) % 2 ^ 64 = base + 4096 := Nat.mod_eq_of_lt (by omega)
    rw [pmmPageCount, PAGE_SIZE_4K, if_neg (by omega)]
  set n := pmmPageCount base fin
  unfold MMIO_IDENTITY_LIMIT at hfinle
  have hwrap : base + n * 4096 < 2 ^ 64 := by omega
  obtain ⟨l, hc, hl, hm⟩ := pmmPush_spec n base mem 0 [] (by omega) h3 hwrap rfl
    (fun q hq => absurd hq not_mem_nil)
  rw [append_nil] at hc
  refine ⟨l, hc, hl, rfl, fun p hp => ?_⟩
  have hpos : 0 < n := by
    rw [← hl]
    exact length_pos_of_mem hp
  obtain ⟨hp1, hp2, hp3⟩ := hm p hp
  exact ⟨decide_eq_true hpos, by omega, hp1, by show p < fin; omega, hfinle, hp3⟩

/-- The size of the table `frame_init` obtains. -/
def frameCap (large small : Bool) : Nat :=
  if large then FRAME_META_MAX else if small then 4096 else 0

section

variable (lo hi : Nat) (large small hashOk : Bool) (mem : Nat → Nat)

/-- The table after boot: all slots are free and on the free list, in order. -/
theorem boot_slots {st : FrameState} (hst : boot lo hi large small hashOk mem = st) :
    st.frames.length = frameCap large small ∧ (∀ k, (st.slot k).refs = 0)
      ∧ Chain st.next st.freeHead (List.range' 0 (frameCap large small)) := by
  subst hst
  refine linkSlots_spec (frameCap large small) (frameCap large small)
    (List.replicate (frameCap large small) default) none (Nat.le_refl _) length_replicate
    (fun k => ?_) (by rw [Nat.sub_self]; rfl) rfl
  rw [getD_eq_getElem?_getD, getElem?_replicate]
  by_cases hk : k < frameCap large small
  · rw [if_pos hk]; rfl
  · rw [if_neg hk]; rfl

theorem boot_dead (k : Nat) : ¬ (boot lo hi large small hashOk mem).Live k := fun hk =>
  hk.2 ((boot_slots lo hi large small hashOk mem rfl).2.1 k)

/-- **The invariant holds after boot**, whatever the allocations of `frame_init` gave. -/
theorem frameInv_boot (hlo : 0 < lo) (hlo' : lo + 8192 ≤ 2 ^ 64) :
    FrameInv (boot lo hi large small hashOk mem) := by
  obtain ⟨hlen, hrefs, hfree⟩ := boot_slots lo hi large small hashOk mem rfl
  have hdead := boot_dead lo hi large small hashOk mem
  set st := boot lo hi large small hashOk mem
  obtain ⟨l, hc, hl, htotal, ha⟩ := pmmInit_spec hi mem hlo hlo' rfl
  refine ⟨⟨⟨_, hfree, fun s => ?_⟩, ?_, fun s _ hs => absurd hs (hdead s),
    fun s hs => absurd hs (hdead s)⟩, ?_, fun s hs => absurd hs (hdead s)⟩
  · rw [hlen, hrefs s]
    simp
  · intro hash hh v
    have hnone : ∀ u, hash u = none := by
      have hhash : st.hash = if hashOk then some (fun _ => none) else none := rfl
      rw [hhash] at hh
      split at hh
      · injection hh with hh
        intro u
        rw [← hh]
      · cases hh
    exact ⟨[], hnone v, fun s => ⟨fun h => absurd h not_mem_nil, fun h => absurd h.1 (hdead s)⟩⟩
  · refine ⟨⟨l, hc, hl, ha, fun p _ s hs => absurd hs (hdead s)⟩, ?_,
      fun _ s hs => absurd hs (hdead s), fun _ s hs => absurd hs (hdead s)⟩
    have hzero : livePool st = 0 := countP_eq_zero.mpr fun k _ => by rw [hrefs k]; simp
    rw [hzero]
    exact htotal

end

/-! ## Runs -/

/-- A call of the interface, or a write to the first word of a page. `raw` is the answer of
`kmalloc` where the pool was never set up. -/
inductive Op where
  | alloc (raw : Option Nat)
  | retain (pa : Nat)
  | release (pa : Nat)
  | write (page word : Nat)

/-- What a caller sees of a call. -/
inductive Event where
  | alloc (page : Nat)
  | retain (pa : Nat) (rc : Int)
  | release (pa : Nat)

/-- One step, with the events it adds to the log; `none` is a call that does not return. -/
def frameStep (op : Op) (st : FrameState) : Option (FrameState × List Event) :=
  match op with
  | .alloc raw =>
    let r := frameAlloc raw st
    some (r.2, (r.1.map Event.alloc).toList)
  | .retain pa => (frameRetain pa st).map fun r => (r.2, [.retain pa r.1])
  | .release pa => (frameRelease pa st).map fun st' => (st', [.release pa])
  | .write page word => some ({ st with mem := store st.mem page word }, [])

/-- A run; the log has its newest event first. -/
def runOps : FrameState × List Event → List Op → Option (FrameState × List Event)
  | s, [] => some s
  | (st, log), op :: ops =>
    match frameStep op st with
    | none => none
    | some (st', ev) => runOps (st', ev ++ log) ops

/-- The count of the frame at `pa` a reader of the log expects: one at its last allocation,
plus the successful retains, minus the releases since then. -/
def ledger : List Event → Nat → Int
  | [], _ => 0
  | .alloc page :: log, pa => if page = pa then 1 else ledger log pa
  | .retain p rc :: log, pa => ledger log pa + if rc = 0 ∧ pgAddr p = pa then 1 else 0
  | .release p :: log, pa => ledger log pa - if pgAddr p = pa then 1 else 0

/-- What a step may rely on: `kmalloc` hands out fresh blocks, and pages are written by the
owner of a live frame. A frame whose count is at its maximum is not retained. -/
def OpOk (st : FrameState) : Op → Prop
  | .alloc raw => KmallocOk st raw
  | .retain pa => frameRefcount pa st ≠ some (2 ^ 32 - 1)
  | .release _ => True
  | .write page _ => ∃ s, st.Live s ∧ (st.slot s).pa = page

def RunOk : FrameState → List Op → Prop
  | _, [] => True
  | st, op :: ops => OpOk st op ∧ ∀ st' ev, frameStep op st = some (st', ev) → RunOk st' ops

/-- **Frame conservation** in one state of a run. -/
structure Conserved (log : List Event) (st : FrameState) : Prop where
  /-- The free list holds exactly the slots with count zero, each once. -/
  free : ∃ l, Chain st.next st.freeHead l ∧ l.Nodup ∧ ∀ s, s ∈ l ↔ s < st.frames.length
      ∧ (st.slot s).refs = 0
  /-- Each chain holds exactly the live slots whose address has its hash value, each once. -/
  chains : ∀ hash, st.hash = some hash → ∀ h, ∃ l, Chain st.next (hash h) l ∧ l.Nodup
    ∧ ∀ s, s ∈ l ↔ st.Live s ∧ frameHashPa (st.slot s).pa = h
  oneSlot : ∀ s t, st.Live s → st.Live t → (st.slot s).pa = (st.slot t).pa → s = t
  total : st.pmm.free + livePool st = st.pmm.total
  /-- The free list of the pool has as many pages as it says, and none of them is live. -/
  pool : ∃ l, Chain st.poolNext (ofPtr st.pmm.freeHead) l ∧ l.Nodup ∧ l.length = st.pmm.free
    ∧ ∀ p ∈ l, ∀ s, st.Live s → (st.slot s).pa ≠ p
  refcount : ∀ s, st.Live s → ∃ n, frameRefcount (st.slot s).pa st = some n
    ∧ (n : Int) = ledger log (st.slot s).pa
  refcountDead : ∀ pa, (∀ s, st.Live s → (st.slot s).pa ≠ pgAddr pa) → frameRefcount pa st = some 0
  /-- The next allocation returns no live page. -/
  allocFresh : ∀ raw page, KmallocOk st raw → (frameAlloc raw st).1 = some page →
    ∀ s, st.Live s → (st.slot s).pa ≠ page
  /-- An allocation that fails leaves the pool as it was. -/
  allocFail : ∀ raw, KmallocOk st raw → (frameAlloc raw st).1 = none →
    (frameAlloc raw st).2.pmm = st.pmm ∧ (frameAlloc raw st).2.mem = st.mem

/-- The counts of the table agree with the log. -/
def Agrees (log : List Event) (st : FrameState) : Prop :=
  ∀ s, st.Live s → ((st.slot s).refs : Int) = ledger log (st.slot s).pa

variable {log : List Event}

section

variable (hinv : FrameInv st)

include hinv

theorem conserved_of_inv (hlog : Agrees log st) : Conserved log st where
  free := by
    obtain ⟨l, hc, hm⟩ := hinv.slots.free
    exact ⟨l, hc, chain_nodup hc, hm⟩
  chains hash hh h := by
    obtain ⟨l, hc, hm⟩ := hinv.slots.chains hash hh h
    exact ⟨l, hc, chain_nodup hc, hm⟩
  oneSlot := hinv.slots.inj
  total := hinv.pages.count
  pool := by
    obtain ⟨l, hc, hl, -, hn⟩ := hinv.pages.pages
    exact ⟨l, hc, chain_nodup hc, hl, hn⟩
  refcount s hs :=
    ⟨_, frameRefcount_live hinv.slots hs (hinv.slots.page s hs).symm, hlog s hs⟩
  refcountDead _ h := frameRefcount_dead hinv.slots h
  allocFresh raw page hraw hpage := by
    rcases frameAlloc_cases hinv hraw with he | ⟨p, st', he, ha⟩
    · rw [he] at hpage; cases hpage
    · rw [he] at hpage
      injection hpage with hpage
      exact hpage ▸ ha.fresh
  allocFail raw hraw hnone := by
    rcases frameAlloc_cases hinv hraw with he | ⟨p, st', he, ha⟩
    · rw [he]; exact ⟨rfl, rfl⟩
    · rw [he] at hnone; cases hnone

/-- Writing to a live page does not touch the list of free pages. -/
theorem frameInv_write {word : Nat} (hs : st.Live s) :
    FrameInv { st with mem := store st.mem (st.slot s).pa word } := by
  refine ⟨hinv.slots.of_pool _ _, ⟨?_, hinv.pages.count, hinv.pages.pool, hinv.pages.raw⟩,
    hinv.width⟩
  obtain ⟨l, hc, hl, ha, hn⟩ := hinv.pages.pages
  refine ⟨l, chain_congr (fun p hp => ?_) hc, hl, ha, hn⟩
  show ofPtr (store st.mem (st.slot s).pa word p) = ofPtr (st.mem p)
  rw [store, if_neg (fun e => hn p hp s hs e.symm)]

theorem step_alloc (hlog : Agrees log st) (hok : KmallocOk st raw) :
    ∃ st' ev, frameStep (.alloc raw) st = some (st', ev) ∧ FrameInv st'
    ∧ Agrees (ev ++ log) st' := by
  rcases frameAlloc_cases hinv hok with he | ⟨page, st', he, ha⟩
  · exact ⟨st, [], by simp [frameStep, he], hinv, hlog⟩
  refine ⟨st', [.alloc page], by simp [frameStep, he], ha.inv, ?_⟩
  obtain ⟨s, hs, hpa, hrefs, hsame⟩ := ha.slot
  intro k hk
  show _ = ledger (.alloc page :: log) _
  rw [ledger]
  by_cases hks : k = s
  · subst hks; rw [hpa, if_pos rfl, hrefs]; rfl
  · obtain ⟨hl, heq⟩ := hsame k hks
    rw [heq, if_neg (fun e => ha.fresh k (hl.mp hk) e.symm)]
    exact hlog k (hl.mp hk)

theorem pgAddr_ne {k : Nat} (hs : st.Live s) (hpa : (st.slot s).pa = pgAddr pa)
    (hk : st.Live k) (hks : k ≠ s) :
    pgAddr pa ≠ (st.slot k).pa := fun e => hks (hinv.slots.inj k s hk hs (by rw [hpa, e]))

/-- Only the entry of one frame is changed, in the table and in the log. -/
theorem agrees_setRefs {log' : List Event} (hlog : Agrees log st) (hs : st.Live s)
    (hpa : (st.slot s).pa = pgAddr pa) (hr : r ≠ 0) (hnew : ledger log' (st.slot s).pa = r)
    (hold : ∀ q, pgAddr pa ≠ q → ledger log' q = ledger log q) :
    Agrees log' (st.setSlot s { st.slot s with refs := r }) := by
  intro k hk
  have hk' := (setRefs_live hs hr k).mp hk
  rw [setRefs_slot hs.1]
  by_cases hks : k = s
  · rw [if_pos hks, hnew]
  · rw [if_neg hks, hold _ (pgAddr_ne hinv hs hpa hk' hks)]
    exact hlog k hk'

theorem step_retain (hlog : Agrees log st) (hok : frameRefcount pa st ≠ some (2 ^ 32 - 1)) :
    ∃ st' ev, frameStep (.retain pa) st = some (st', ev) ∧ FrameInv st'
    ∧ Agrees (ev ++ log) st' := by
  rcases frameRetain_cases hinv.slots pa with ⟨he, hno⟩ | ⟨s, hs, hpa, he⟩
  · refine ⟨st, [.retain pa (-1)], by simp [frameStep, he], hinv, ?_⟩
    intro k hk
    show _ = ledger (.retain pa (-1) :: log) _
    rw [ledger, if_neg (by simp), add_zero]
    exact hlog k hk
  · have hmax : (st.slot s).refs ≠ 2 ^ 32 - 1 := by
      intro e
      exact hok (by rw [frameRefcount_live hinv.slots hs hpa, e])
    have hwidth := hinv.width s hs
    have hmod : ((st.slot s).refs + 1) % 2 ^ 32 = (st.slot s).refs + 1 :=
      Nat.mod_eq_of_lt (by omega)
    rw [hmod] at he
    refine ⟨_, [.retain pa 0], by rw [frameStep, he]; rfl,
      frameInv_setRefs hinv hs (by omega) (by omega),
      agrees_setRefs hinv hlog hs hpa (by omega) ?_ fun q hq => ?_⟩
    all_goals rw [cons_append, ledger]
    · rw [if_pos ⟨rfl, hpa.symm⟩, nil_append, ← hlog s hs]
      rfl
    · rw [if_neg (fun h => hq h.2), add_zero, nil_append]

theorem step_release (hlog : Agrees log st) :
    ∃ st' ev, frameStep (.release pa) st = some (st', ev) ∧ FrameInv st'
    ∧ Agrees (ev ++ log) st' := by
  rcases frameRelease_cases hinv pa with ⟨he, hno⟩ | ⟨s, hs, hpa, ⟨hrefs, he⟩ | ⟨st', he, hrel⟩⟩
  · refine ⟨st, [.release pa], by simp [frameStep, he], hinv, ?_⟩
    intro k hk
    show _ = ledger (.release pa :: log) _
    rw [ledger, if_neg (fun e => hno k hk e.symm), sub_zero]
    exact hlog k hk
  · have hwidth := hinv.width s hs
    refine ⟨_, [.release pa], by rw [frameStep, he]; rfl,
      frameInv_setRefs hinv hs (by omega) (by omega),
      agrees_setRefs hinv hlog hs hpa (by omega) ?_ fun q hq => ?_⟩
    all_goals rw [cons_append, ledger]
    · rw [if_pos hpa.symm, nil_append, ← hlog s hs]
      push_cast [show 1 ≤ (st.slot s).refs by omega]
      rfl
    · rw [if_neg hq, sub_zero, nil_append]
  · refine ⟨st', [.release pa], by rw [frameStep, he]; rfl, hrel.inv, ?_⟩
    intro k hk
    obtain ⟨hk1, hk2⟩ := (hrel.live k).mp hk
    obtain ⟨hpa', hrefs'⟩ := hrel.same k hk2
    show _ = ledger (.release pa :: log) _
    rw [ledger, hpa', hrefs', if_neg (pgAddr_ne hinv hs hpa hk1 hk2), sub_zero]
    exact hlog k hk1

/-- **One step keeps the invariant and the log.** -/
theorem frameStep_inv {op : Op} (hlog : Agrees log st) (hok : OpOk st op) :
    ∃ st' ev, frameStep op st = some (st', ev) ∧ FrameInv st' ∧ Agrees (ev ++ log) st' := by
  cases op with
  | alloc raw => exact step_alloc hinv hlog hok
  | retain pa => exact step_retain hinv hlog hok
  | release pa => exact step_release hinv hlog
  | write page word =>
    obtain ⟨s, hs, rfl⟩ := hok
    exact ⟨_, [], rfl, frameInv_write hinv hs, hlog⟩

end

theorem runOps_inv {ops : List Op} (hinv : FrameInv st) (hlog : Agrees log st)
    (hok : RunOk st ops) :
    ∃ st' log', runOps (st, log) ops = some (st', log') ∧ FrameInv st' ∧ Agrees log' st' := by
  induction ops generalizing st log with
  | nil => exact ⟨st, log, rfl, hinv, hlog⟩
  | cons op ops ih =>
    obtain ⟨st', ev, hstep, hinv', hlog'⟩ := frameStep_inv hinv hlog hok.1
    obtain ⟨st'', log'', hrun, h1, h2⟩ := ih hinv' hlog' (hok.2 st' ev hstep)
    refine ⟨st'', log'', ?_, h1, h2⟩
    rw [runOps, hstep]
    exact hrun

/-- **Frame conservation in every state of a run.** After `pmm_init` on an arena that does not
start at address `0` and `frame_init`, whatever their allocations gave, every sequence of calls
returns, and the state it reaches is conserved, as long as no frame is retained whose count is
`2^32 - 1`. -/
theorem frame_conservation (lo hi : Nat) (large small hashOk : Bool) (mem : Nat → Nat)
    (ops : List Op) (hlo : 0 < lo) (hlo' : lo + 8192 ≤ 2 ^ 64)
    (hok : RunOk (boot lo hi large small hashOk mem) ops) :
    ∃ st log, runOps (boot lo hi large small hashOk mem, []) ops = some (st, log)
    ∧ Conserved log st := by
  have hinv := frameInv_boot lo hi large small hashOk mem hlo hlo'
  have hlog : Agrees [] (boot lo hi large small hashOk mem) := fun s hs =>
    absurd hs (boot_dead lo hi large small hashOk mem s)
  obtain ⟨st, log, hrun, h1, h2⟩ := runOps_inv hinv hlog hok
  exact ⟨st, log, hrun, conserved_of_inv h1 h2⟩

/-- A small machine: the arena is `[0x1000, 0x4000)`, the small table and the hash table could
be allocated. -/
def smallBoot : FrameState := boot 0x1000 0x4000 false true true (fun _ => 0)

section

set_option maxRecDepth 4000

theorem page_smallBoot : (frameAlloc none smallBoot).1 = some 0x3000 := by
  decide +kernel

end

theorem frameAlloc_smallBoot :
    ∃ st, frameAlloc none smallBoot = (some 0x3000, st) ∧ Allocated 0x3000 smallBoot st := by
  have hpage := page_smallBoot
  have hraw : KmallocOk smallBoot none := .inr nofun
  have hinv : FrameInv smallBoot := frameInv_boot _ _ false true true (fun _ => 0)
    (by decide) (by decide)
  rcases frameAlloc_cases hinv hraw with h | ⟨page, st, h, ha⟩
  · rw [h] at hpage
    cases hpage
  · rw [h] at hpage
    obtain rfl := Option.some.inj hpage
    exact ⟨st, h, ha⟩

/-- A page is allocated, shared and given back once. -/
theorem frame_conservation_shared :
    ∃ st log, runOps (smallBoot, []) [.alloc none, .retain 0x3000, .release 0x3000]
        = some (st, log) ∧ Conserved log st := by
  refine frame_conservation 0x1000 0x4000 false true true (fun _ => 0)
    [.alloc none, .retain 0x3000, .release 0x3000] (by decide) (by decide) ?_
  refine ⟨.inr nofun, fun st ev hstep => ⟨?_, fun _ _ _ => ⟨trivial, fun _ _ _ => trivial⟩⟩⟩
  -- the page has count one
  obtain ⟨st', he, ha⟩ := frameAlloc_smallBoot
  obtain ⟨s, hs, hpa, hrefs, -⟩ := ha.slot
  obtain rfl : st' = st := by
    change some ((frameAlloc none smallBoot).2, _) = _ at hstep
    rw [he] at hstep
    exact (Prod.mk.inj (Option.some.inj hstep)).1
  show frameRefcount 0x3000 st' ≠ _
  rw [frameRefcount_live ha.inv.slots hs (hpa.trans (by decide)), hrefs]
  decide

theorem frameRetain_live (hinv : SlotInv st) (hs : st.Live s) (hpa : (st.slot s).pa = pgAddr pa) :
    frameRetain pa st
      = some (0, st.setSlot s { st.slot s with refs := ((st.slot s).refs + 1) % 2 ^ 32 }) := by
  unfold frameRetain
  rw [frameSlotLocked_live hinv hs hpa]

/-- A frame whose count has wrapped has count zero and is not on the free list. -/
theorem not_conserved_of_wrap (hinv : FrameInv st) (hs : st.Live s) :
    ¬ Conserved log (st.setSlot s { st.slot s with refs := 0 }) := by
  intro hcons
  -- the free list is the one from before the call, which does not contain the slot
  obtain ⟨l, hc, hm⟩ := hinv.slots.free
  obtain ⟨l', hc', -, hm'⟩ := hcons.free
  rw [setRefs_next hs.1] at hc'
  obtain rfl := chain_unique hc hc'
  have hin : s ∈ l :=
    (hm' s).mpr ⟨by rw [setSlot_length]; exact hs.1, by rw [setRefs_slot hs.1, if_pos rfl]⟩
  exact hs.2 ((hm s).mp hin).2

/-- A live frame is retained until its count wraps. -/
theorem retain_many (n pa : Nat) (log : List Event) (hinv : FrameInv st) (hs : st.Live s)
    (hpa : (st.slot s).pa = pgAddr pa) (hn : (st.slot s).refs + n = 2 ^ 32 - 1) :
    ∃ st' log', runOps (st, log) (List.replicate (n + 1) (.retain pa)) = some (st', log')
    ∧ ¬ Conserved log' st' := by
  have he := frameRetain_live hinv.slots hs hpa
  induction n generalizing log st with
  | zero =>
    rw [show ((st.slot s).refs + 1) % 2 ^ 32 = 0 by omega] at he
    refine ⟨_, .retain pa 0 :: log, ?_, not_conserved_of_wrap hinv hs⟩
    rw [replicate_succ, runOps, frameStep, he]
    rfl
  | succ n ih =>
    rw [Nat.mod_eq_of_lt (by omega)] at he
    have hslot := setRefs_slot hs.1 ((st.slot s).refs + 1) s
    rw [if_pos rfl] at hslot
    have hinv' := frameInv_setRefs (r := (st.slot s).refs + 1) hinv hs (by omega) (by omega)
    have hs' := (setRefs_live (r := (st.slot s).refs + 1) hs (by omega) s).mpr hs
    have hpa' := (congrArg FrameMeta.pa hslot).trans hpa
    obtain ⟨st', log', hrun, hnot⟩ :=
      ih ([.retain pa 0] ++ log) hinv' hs' hpa' (by rw [hslot]; dsimp only; omega)
      (frameRetain_live hinv'.slots hs' hpa')
    refine ⟨st', log', ?_, hnot⟩
    rw [replicate_succ, runOps, frameStep, he]
    exact hrun

/-- **One page, allocated and then retained `2^32 - 1` times**, has count zero and is on no
free list. -/
theorem frame_conservation_fails : ∃ st log, runOps (smallBoot, [])
        (.alloc none :: List.replicate (2 ^ 32 - 1) (.retain 0x3000)) = some (st, log)
      ∧ ¬ Conserved log st := by
  obtain ⟨st, he, ha⟩ := frameAlloc_smallBoot
  obtain ⟨s, hs, hpa, hrefs, -⟩ := ha.slot
  obtain ⟨n, hn⟩ : ∃ n, 2 ^ 32 - 1 = n + 1 := ⟨2 ^ 32 - 2, by norm_num⟩
  obtain ⟨st', log', hrun, hnot⟩ := retain_many n 0x3000 [.alloc 0x3000] ha.inv hs hpa (by omega)
  refine ⟨st', log', ?_, hnot⟩
  rw [hn, runOps, frameStep, he]
  exact hrun

end AxonOS.Frame

import AxonOS.Heap.Calls

/-! # `krealloc`

The three ways `krealloc` resizes a block: shortening it in place, absorbing the free block
behind it, and moving to a new one. Because no two neighbours are free, the scan over the free
blocks behind a block finds exactly one.
-/

namespace AxonOS.Heap

open Lib List Nat

variable {bs bs' fl fl' : List Nat} {h h' : HeapState} {x k : Nat}

/-! ## Writing to an allocated block -/

/-- The block `z` is allocated for a request of `r` bytes. -/
def Held (h : HeapState) (bs : List Nat) (z r : Nat) : Prop :=
  z ∈ bs ∧ h.get .free z = 0 ∧ h.get .reqSize z = r

/-- A write to the block `x`, held for `r` bytes. -/
structure Edited (x r : Nat) (h : HeapState) (bs fl : List Nat) (h' : HeapState) : Prop where
  inv : HeapInv [] [] h' bs fl
  held : Held h' bs x r
  keeps : Keeps x 0 h bs h' bs
  accounted : Accounted h bs → Accounted h' bs

section Edit

variable {r : Nat} (hinv : HeapInv [] [] h bs fl) (hx : Held h bs x r)

include hinv hx

/-- The tags the invariant reads and the canary stay. -/
theorem HeapInv.edit (hl : Local x h h') (htags : ∀ f, f ≠ .allocCaller → h'.get f x = h.get f x)
    (hcan : ∀ i, x + HDR + r ≤ i → i < x + HDR + r + 8 → h'.mem i = h.mem i)
    (hused : h'.used = h.used) :
    Edited x r h bs fl h' := by
  obtain ⟨hxb, hfx, rfl⟩ := hx
  have hfx' := (htags .free (by decide)).trans hfx
  obtain ⟨hg1, hg2, hg3⟩ := hinv.guard x hxb not_mem_nil hfx
  have hflag : Flagged h' x :=
    .inr ⟨hfx', (htags .magic (by decide)).trans (hinv.checks hxb hfx).2.2⟩
  have hguard : Guarded h' x := by
    unfold Guarded
    rw [htags .reqSize (by decide), htags .size (by decide)]
    exact ⟨hg1, (loadLE_congr hcan).trans hg2, hg3⟩
  have hinv' := ((hinv.except (hinv.not_listed hfx)).touch hxb hl hflag).settle hfx' hguard
  have hk := keeps_local_zero hinv.shape hxb hl
  refine ⟨hinv', ⟨hxb, hfx', htags _ (by decide)⟩, hk, fun ha => ?_⟩
  have htotal := hk.resized hinv.shape hinv'.shape ⟨hxb, hfx⟩ ⟨hxb, hfx'⟩
  rw [htags .size (by decide)] at htotal
  unfold Accounted at ha ⊢
  omega

theorem write_spec {m : Mem} (hout : ∀ i, i < x + HDR ∨ x + HDR + r ≤ i → m i = h.mem i) :
    Edited x r h bs fl { h with mem := m } := by
  have hg := (hinv.guard x hx.1 not_mem_nil hx.2.1).1
  have hrx := hx.2.2
  have hl : Local x h { h with mem := m } := by
    refine local_payload (fun i hi => hout i ?_) rfl rfl rfl rfl
    unfold HeapState.fin at hi
    omega
  exact hinv.edit hx hl (fun f _ => get_congr f fun i _ h2 => hout i (.inl h2))
    (fun i h1 _ => hout i (.inr h1)) rfl

theorem putCaller_spec (caller : Nat) : Edited x r h bs fl (h.put .allocCaller x caller) :=
  hinv.edit hx (local_put rfl _) (fun _ hf => get_put_field h x caller hf.symm)
    (fun _ h1 _ => put_mem_outside _ _ _ (.inr (by omega))) rfl

/-- The bytes of a request, when another block is worked on. -/
theorem Keeps.payload {y : Nat} (hk : Keeps y k h bs h' bs') (hne : x ≠ y) :
    ∀ i < r, h'.mem (x + HDR + i) = h.mem (x + HDR + i) := by
  intro i hi
  obtain ⟨hxb, hfx, rfl⟩ := hx
  have hg := (hinv.guard x hxb not_mem_nil hfx).1
  refine hk.bytes x hxb hne hfx _ (le_add_right _ _) ?_
  unfold HeapState.fin
  omega

end Edit

/-! ## In place -/

variable {n newReq newSize : Nat} {h1 : HeapState}

theorem retag_local (caller : Nat) (hfin : h.fin x < 2 ^ 64) (hreq : newReq + 8 ≤ h.get .size x) :
    Local x h (retag x newReq caller h) := by
  have hl : Local x h ((h.put .reqSize x newReq).put .allocCaller x caller) :=
    (local_put rfl _).trans (local_put rfl _)
  exact hl.trans
    (putCanary_local (by rw [hl.fin]; exact hfin) (by rw [hl.shape .size rfl]; exact hreq))

theorem retag_used (x newReq caller : Nat) (h : HeapState) :
    (retag x newReq caller h).used = h.used :=
  rfl

/-- **The new request size, the caller and the canary** of a block resized in place. -/
theorem retag_spec (caller : Nat) (hinv : HeapInv [x] [x] h bs fl) (hx : x ∈ bs)
    (hfx : h.get .free x = 0) (hmagic : h.get .magic x = HEAP_MAGIC_ALLOC)
    (hreq : newReq + 8 ≤ h.get .size x) (hmin : 16 ≤ h.get .size x) :
    Allocated x newReq newReq h bs (retag x newReq caller h) bs fl := by
  have hfin := hinv.shape.fin_lt hx
  have hfit : x + HDR + newReq < 2 ^ 64 := by
    unfold HeapState.fin at hfin
    omega
  set h1 := (h.put .reqSize x newReq).put .allocCaller x caller with hh1
  have hretag : retag x newReq caller h = putCanary (x + HDR) newReq h1 := rfl
  have hl2 := retag_local caller hfin hreq
  have hg : ∀ f, (retag x newReq caller h).get f x = h1.get f x := fun f => putCanary_get f hfit
  have hfree : (retag x newReq caller h).get .free x = 0 := by
    rw [hg, get_put_field _ _ _ (by decide), get_put_field _ _ _ (by decide), hfx]
  have hmag : (retag x newReq caller h).get .magic x = HEAP_MAGIC_ALLOC := by
    rw [hg, get_put_field _ _ _ (by decide), get_put_field _ _ _ (by decide), hmagic]
  have hrq : (retag x newReq caller h).get .reqSize x = newReq := by
    rw [hg, get_put_field _ _ _ (by decide), get_put_self]
    exact mod_eq_of_lt (by norm_num [Field.width]; omega)
  have hguard : Guarded (retag x newReq caller h) x := by
    unfold Guarded
    rw [hrq, hl2.shape .size rfl]
    exact ⟨hreq, putCanary_canary hfit, hmin⟩
  refine ⟨(hinv.touch hx hl2 (.inr ⟨hfree, hmag⟩)).settle hfree hguard, hx, hfree, hrq,
    keeps_local hinv.shape hx hl2 fun i h1 h2 => ?_, fun _ hc =>
    .inl hc, hl2.spares (mem_append_left _ hx)⟩
  have hin : ∀ y, x + HDR ≤ y → y < x ∨ x + HDR ≤ y := fun y hy => .inr hy
  calc (putCanary (x + HDR) newReq _).mem i
    = ((h.put .reqSize x newReq).put .allocCaller x caller).mem i :=
        storeLE_outside (by omega)
    _ = (h.put .reqSize x newReq).mem i := put_mem_outside _ _ _ (hin i h1)
    _ = h.mem i := put_mem_outside _ _ _ (hin i h1)

theorem reallocShrink_spec (caller : Nat) (hinv : HeapInv [] [] h bs fl) (hx : x ∈ bs)
    (hfx : h.get .free x = 0) (hle : newSize ≤ h.get .size x) (hreq : newReq + 8 ≤ newSize)
    (hmin : 16 ≤ newSize) :
    ∃ bs' fl', Allocated x newReq newReq h bs (reallocShrink x newSize newReq caller h) bs' fl'
      ∧ (Accounted h bs → Accounted (reallocShrink x newSize newReq caller h) bs') := by
  obtain ⟨bs1, fl1, hinv1, hr, hsize1, -⟩ :=
    splitBlock_spec (hinv.except (hinv.not_listed hfx)) hx hle
  unfold reallocShrink
  dsimp only
  set h1 := splitBlock x newSize h
  set h2 := (if h1.get .size x < h.get .size x then
    discountUsed (h.get .size x - h1.get .size x) h1 else h1)
  have hsame : SameHeap h1 h2 := sameHeap_ite (sameHeap_discountUsed _ h1)
  have hg := hsame.get
  have hfits := hr.fits
  have hroom : newReq + 8 ≤ h2.get .size x := by
    rw [hg]
    omega
  have hall := retag_spec caller (hinv1.of_same hsame) hr.mem (by rw [hg, hr.tags .free rfl, hfx])
    (by rw [hg, hr.tags .magic rfl, (hinv.checks hx hfx).2.2]) hroom (by rw [hg]; omega)
  have hlocal := retag_local caller ((hinv1.of_same hsame).shape.fin_lt hr.mem) hroom
  have hfresh : ∀ c ∈ bs1, c ∈ bs ∨ c = (retag x newReq caller h2).get .next x := by
    rw [hlocal.shape .next rfl, hg]
    exact hr.fresh
  have hspares : Spares (bs ++ bs1) x h (retag x newReq caller h2) :=
    (hlocal.spares (mem_append_right _ hr.mem)).after (hr.headers.trans (.of_same hsame))
  have hk := (hr.keeps.mono (by omega)).trans ((Keeps.of_same hsame).trans hall.keeps)
  refine ⟨bs1, fl1, { hall with keeps := hk, fresh := hfresh, spares := hspares }, fun ha => ?_⟩
  have htotal := hk.resized hinv.shape hall.inv.shape ⟨hx, hfx⟩ ⟨hall.mem, hall.free⟩
  rw [hlocal.shape .size rfl, hg] at htotal
  have hused : h2.used = if h1.get .size x < h.get .size x then
      (if h.get .size x - h1.get .size x ≤ h.used then h.used - (h.get .size x - h1.get .size x)
        else 0)
      else h.used := by
    rw [← splitBlock_used x newSize h]
    exact apply_ite HeapState.used _ _ _
  unfold Accounted at ha ⊢
  have hle1 : h1.get .size x ≤ h.get .size x := by
    split_ifs at hsize1 <;> omega
  rw [retag_used, hused]
  split_ifs <;> omega

/-! ## Absorbing the free block behind -/

theorem Shape.capacity_pos (hs : Shape h bs) (hx : x ∈ bs) : HDR ≤ h.capacity := by
  have h1 := hs.length_le
  have h2 : 0 < bs.length := length_pos_of_mem hx
  calc HDR = 1 * HDR := (one_mul _).symm
    _ ≤ bs.length * HDR := mul_le_mul_right _ h2
    _ ≤ h.capacity := h1

/-- The scan counts the free block behind `x` and stops. -/
theorem growScan_spec (newSize rover : Nat) (hinv : HeapInv [] [] h bs fl) (hx : x ∈ bs)
    (hxn : h.get .next x = n) (hn : n ∈ bs) (hfn : h.get .free n = 1) :
    ∃ rover', growScan h x newSize h.capacity n (h.get .size x) 0 rover
      = some (h.get .size x + HDR + h.get .size n, n, rover') := by
  have hs := hinv.shape
  have hcap := hs.capacity_pos hx
  have hn0 : n ≠ 0 := fun e => hs.ne_zero (e ▸ hn)
  have hmagic := hinv.magic_free hn hfn
  have hsum : (h.get .size x + HDR + h.get .size n) % 2 ^ 64
      = h.get .size x + HDR + h.get .size n := by
    refine mod_eq_of_lt ?_
    have h1 := (hs.next_mem hx (by rw [hxn]; exact hn0)).2.2
    have h2 := hs.fin_lt hn
    unfold HeapState.fin at h1 h2
    omega
  obtain ⟨c, hc⟩ : ∃ c, h.capacity = c + 2 := ⟨h.capacity - 2, by unfold HDR at hcap; omega⟩
  obtain ⟨s, rfl⟩ := exists_eq_succ_of_ne_zero hn0
  rw [hc]
  show ∃ rover', growScan h x newSize (c + 1 + 1) (s + 1) (h.get .size x) 0 rover = _
  rw [growScan, if_neg (by rw [hfn, hmagic]; simp)]
  rw [hsum]
  by_cases hfit : newSize ≤ h.get .size x + HDR + h.get .size (s + 1)
  · rw [if_pos hfit]
    exact ⟨_, rfl⟩
  -- the block behind the free one is not free
  rw [if_neg hfit]
  by_cases hm0 : h.get .next (s + 1) = 0
  · rw [hm0]
    exact ⟨_, rfl⟩
  have hmb := (hs.next_mem hn hm0).1
  have hfm : h.get .free (h.get .next (s + 1)) = 0 := by
    rcases hinv.flags _ hmb with ⟨h1, -⟩ | ⟨h1, -⟩
    · rcases hinv.noAdj _ hn hm0 hfn h1 with h2 | h2 <;> cases h2
    · exact h1
  obtain ⟨m, hm⟩ := exists_eq_succ_of_ne_zero hm0
  rw [hm] at hfm ⊢
  rw [growScan, if_pos (.inl hfm)]
  exact ⟨_, rfl⟩

/-- The loop over the absorbed blocks takes the one there is off the free list. -/
theorem dropAbsorbed_one (hn : n ≠ 0) (hne : n ≠ h.get .next n) (hcap : 0 < h.capacity) :
    dropAbsorbed (h.get .next n) h.capacity n h = some (flRemove n h) := by
  obtain ⟨s, rfl⟩ := exists_eq_succ_of_ne_zero hn
  obtain ⟨c, hc⟩ : ∃ c, h.capacity = c + 1 := ⟨h.capacity - 1, by omega⟩
  rw [hc]
  show dropAbsorbed (h.get .next (s + 1)) (c + 1) (s + 1) h = _
  rw [dropAbsorbed, if_neg hne]
  generalize h.get .next (s + 1) = m
  cases m with
  | zero => cases c <;> rfl
  | succ m => cases c <;> simp [dropAbsorbed]

/-- Written with the values the scan has computed, absorbing the block is `absorb`. -/
theorem absorb_eq_of_values (hapart : Apart x n) (hx : h1.get .size x = h.get .size x)
    (hn : h1.get .size n = h.get .size n) (hnext : h1.get .next n = h.get .next n) :
    ((h1.put .size x (h.get .size x + HDR + h.get .size n)).put .next x (h.get .next n)).putIf .prev
      (h.get .next n) x = absorb x n h1 := by
  have hm := get_word_lt h (f := .next) n rfl
  rw [absorb_eq, hx, hn, get_put_apart _ _ _ _ hapart, hnext, get_put_fits (fits_word rfl hm)]

theorem reallocGrow_spec (caller : Nat) (hinv : HeapInv [] [] h bs fl) (hx : x ∈ bs)
    (hfx : h.get .free x = 0) (hxn : h.get .next x = n) (hn : n ∈ bs) (hfn : h.get .free n = 1)
    (hgrow : h.get .size x < newSize) (hfit : newSize ≤ h.get .size x + HDR + h.get .size n)
    (hreq : newReq + 8 ≤ newSize) (hmin : 16 ≤ newSize) :
    ∃ h' bs' fl', reallocGrow x newSize newReq caller
      (h.get .size x + HDR + h.get .size n) n h = some h'
      ∧ Allocated x (min (h.get .reqSize x) newReq) newReq h bs h' bs' fl'
      ∧ (Accounted h bs → (Accounted h' bs' ↔ h.get .size x + HDR + h.get .size n = newSize
        ∨ HDR + 16 < h.get .size x + HDR + h.get .size n - newSize)) := by
  have hs := hinv.shape
  have hn0 : n ≠ 0 := fun e => hs.ne_zero (e ▸ hn)
  have hlt := hs.lt_next hx (by rw [hxn]; exact hn0)
  have hcap := hs.capacity_pos hx
  have hne : n ≠ h.get .next n := by
    intro e
    have := hs.lt_next hn (by rw [← e]; exact hn0)
    omega
  have hinv0 := hinv.except (hinv.not_listed hfx)
  have hnfl : n ∈ fl := hinv.complete n hn not_mem_nil hfn
  obtain ⟨-, hf⟩ := hinv0.unlist hnfl
  obtain ⟨hinv1, hm⟩ := hinv0.merge hx mem_cons_self hxn hnfl
  have hapart : Apart x n := (hs.spaced x hx n hn).resolve_left (by omega)
  have habs := absorb_eq_of_values hapart (hf.fields x hx .size rfl) (hf.fields n hn .size rfl)
    (hf.fields n hn .next rfl)
  unfold reallocGrow
  dsimp only
  rw [if_pos hn0, hxn, dropAbsorbed_one hn0 hne (by unfold HDR at hcap; omega)]
  dsimp only
  rw [habs]
  have hold := (hinv.guard x hx not_mem_nil hfx).1
  have hk1 := keeps_merged (k := min (h.get .reqSize x) newReq) hs hm hx (by omega) (.inl rfl)
    (by rw [hfn]; decide)
  set h1 := absorb x n (flRemove n h) with hh1
  have hfit1 : newSize ≤ h1.get .size x := by
    rw [hm.size]
    exact hfit
  obtain ⟨bs2, fl2, hinv2, hr, hsize2, -⟩ :=
    splitBlock_spec hinv1 ((mem_erase_of_ne (by omega)).mpr hx) hfit1
  set h2 := splitBlock x newSize h1 with hh2
  set h3 := countUsed (newSize - h.get .size x) h2 with hh3
  have hsame : SameHeap h2 h3 := sameHeap_countUsed _ h2
  have hg := hsame.get
  have htag : ∀ f, placeFields f = false → h3.get f x = h.get f x := fun f hpf => by
    rw [hg, hr.tags f hpf, hm.frame.fields x hx f hpf]
  have hfits := hr.fits
  have hroom : newReq + 8 ≤ h3.get .size x := by
    rw [hg]
    omega
  have hall := retag_spec caller (hinv2.of_same hsame) hr.mem
    ((htag .free rfl).trans hfx) ((htag .magic rfl).trans (hinv.checks hx hfx).2.2) hroom
    (by rw [hg]; omega)
  have hlocal := retag_local caller ((hinv2.of_same hsame).shape.fin_lt hr.mem) hroom
  have hfresh : ∀ c ∈ bs2, c ∈ bs ∨ c = (retag x newReq caller h3).get .next x := by
    rw [hlocal.shape .next rfl, hg]
    exact fun c hc => (hr.fresh c hc).imp mem_of_mem_erase id
  have hspares : Spares (bs ++ bs2) x h (retag x newReq caller h3) := by
    have hmerge : Headers (bs ++ bs2) h h1 := Headers.mono hm.frame.bytes fun c hc =>
      mem_append_left _ hc
    have hsplit : Headers (bs ++ bs2) h1 h2 := hr.headers.mono fun c hc =>
      mem_append.mpr ((mem_append.mp hc).imp mem_of_mem_erase id)
    exact (hlocal.spares (mem_append_right _ hr.mem)).after
      ((hmerge.trans hsplit).trans (.of_same hsame))
  have hk := (hk1.trans (hr.keeps.mono (by omega))).trans
    ((Keeps.of_same hsame).trans (hall.keeps.mono (by omega)))
  refine ⟨_, bs2, fl2, rfl, { hall with keeps := hk, fresh := hfresh, spares := hspares },
    fun ha => ?_⟩
  -- the counter grows up to `newSize`, the block up to what the split leaves of it
  have htotal := hk.resized hs hall.inv.shape ⟨hx, hfx⟩ ⟨hall.mem, hall.free⟩
  rw [hlocal.shape .size rfl, hg] at htotal
  have hlt := hall.inv.shape.allocatedSize_lt
  have hused : h3.used = (h.used + (newSize - h.get .size x)) % 2 ^ 64 := by
    rw [countUsed_used, hh2, splitBlock_used, hh1, absorb_used, flRemove_used]
  rw [hm.size] at hsize2
  unfold Accounted at ha ⊢
  rw [retag_used, hused]
  split_ifs at hsize2 with hrem <;> omega

/-! ## Moving -/

theorem Keeps.held_iff (hk : Keeps x k h bs h' bs') {z : Nat} (hz : z ≠ x) (r : Nat) :
    Held h' bs' z r ↔ Held h bs z r := by
  have hlive := hk.live z hz
  constructor
  · rintro ⟨h1, h2, h3⟩
    obtain ⟨h4, h5⟩ := hlive.mp ⟨h1, h2⟩
    exact ⟨h4, h5, by rw [← hk.reqSize z h4 hz h5]; exact h3⟩
  · rintro ⟨h1, h2, h3⟩
    obtain ⟨h4, h5⟩ := hlive.mpr ⟨h1, h2⟩
    exact ⟨h4, h5, by rw [hk.reqSize z h1 hz h2]; exact h3⟩

theorem Allocated.held {req : Nat} (ha : Allocated x k req h bs h' bs' fl') : Held h' bs' x req :=
  ⟨ha.mem, ha.free, ha.reqSize⟩

/-- The outcome of moving the contents of `x` to the block `y`. -/
structure Moved (x y req : Nat) (h : HeapState) (bs : List Nat) (h' : HeapState)
    (bs' fl' : List Nat) : Prop where
  inv : HeapInv [] [] h' bs' fl'
  held : Held h' bs' y req
  gone : ∀ r, ¬ Held h' bs' x r
  others : ∀ z, z ≠ x → z ≠ y → ∀ r, Held h' bs' z r ↔ Held h bs z r
  copied : ∀ i < min (h.get .reqSize x) req, h'.mem (y + HDR + i) = h.mem (x + HDR + i)
  payload : ∀ z r, z ≠ x → Held h bs z r → ∀ i < r, h'.mem (z + HDR + i) = h.mem (z + HDR + i)
  spares : Spares (bs ++ bs') y h h'

theorem reallocMove_moved {ptr blk caller : Nat} (he : kmallocNolock newReq caller h = some (n, h1))
    (hn : n ≠ 0) :
    reallocMove ptr blk newReq caller h =
      let h2 := kfreeNolock ptr (h1.memcpy n ptr (min (h.get .reqSize blk) newReq))
      some (n, if heapPtrInRange h2 (n - HDR) then h2.put .allocCaller
      (n - HDR) caller else h2) := by
  unfold reallocMove
  rw [he]
  cases n with
  | zero => exact absurd rfl hn
  | succ p => rfl

theorem reallocMove_spec (caller : Nat) (hinv : HeapInv [] [] h bs fl) (hx : x ∈ bs)
    (hfx : h.get .free x = 0) (hreq : newReq + 8 + 15 < 2 ^ 64) :
    reallocMove (x + HDR) x newReq caller h = some (0, h)
      ∨ ∃ y h' bs' fl', y ∈ fl ∧ reallocMove (x + HDR) x newReq caller h = some (y + HDR, h')
        ∧ Moved x y newReq h bs h' bs' fl' ∧ (Accounted h bs → Accounted h' bs') := by
  rcases kmalloc_spec caller hinv hreq with he | ⟨y, h1, bs1, fl1, hyfl, he, ha, hacc⟩
  · left
    unfold reallocMove
    rw [he]
    rfl
  right
  have hyx : x ≠ y := fun e => hinv.not_listed hfx (e ▸ hyfl)
  have hy0 : y + HDR ≠ 0 := by unfold HDR; omega
  have hcopy :
    Edited y newReq h1 bs1 fl1 (h1.memcpy (y + HDR) (x + HDR) (min (h.get .reqSize x) newReq)) :=
    write_spec ha.inv ha.held fun i hi => copyBytes_outside (by omega)
  set h2 := h1.memcpy (y + HDR) (x + HDR) (min (h.get .reqSize x) newReq)
  -- the old block is still there
  have hk12 := ha.keeps.trans hcopy.keeps
  obtain ⟨hx2, hfx2⟩ := (hk12.live x hyx).mpr ⟨hx, hfx⟩
  obtain ⟨bs3, fl3, hfreed, hacc3⟩ := kfree_spec hcopy.inv hx2 hfx2
  set h3 := kfreeNolock (x + HDR) h2
  have hheld3 : Held h3 bs3 y newReq := (hfreed.keeps.held_iff hyx.symm newReq).mpr hcopy.held
  have hlast := putCaller_spec hfreed.inv hheld3 caller
  have hin := (hfreed.inv.checks hheld3.1 hheld3.2.1).2.1
  refine ⟨y, h3.put .allocCaller y caller, bs3, fl3, hyfl, ?_,
    ⟨hlast.inv, hlast.held, ?_, ?_, ?_, ?_, ?_⟩, fun h0 =>
    hlast.accounted (hacc3 (hcopy.accounted (hacc h0)))⟩
  · rw [reallocMove_moved he hy0]
    show some (y + HDR, if heapPtrInRange h3 y then h3.put .allocCaller y caller else h3) = _
    rw [if_pos hin]
  · intro r hr
    have := (hlast.keeps.held_iff hyx r).mp hr
    exact hfreed.gone ⟨this.1, this.2.1⟩
  · intro z hzx hzy r
    calc Held (h3.put .allocCaller y caller) bs3 z r ↔ Held h3 bs3 z r := hlast.keeps.held_iff hzy r
      _ ↔ Held h2 bs1 z r := hfreed.keeps.held_iff hzx r
      _ ↔ Held h bs z r := hk12.held_iff hzy r
  · intro i hi
    calc (h3.put .allocCaller y caller).mem (y + HDR + i)
        = h3.mem (y + HDR + i) := put_mem_outside _ _ _ (.inr (le_add_right _ _))
      _ = h2.mem (y + HDR + i) := hfreed.keeps.payload hcopy.inv hcopy.held hyx.symm i (by omega)
      _ = h1.mem (x + HDR + i) := copyBytes_inside hi
      _ = h.mem (x + HDR + i) := ha.keeps.payload hinv ⟨hx, hfx, rfl⟩ hyx i (by omega)
  · intro z r hzx hz i hi
    have hzy : z ≠ y := fun e => hinv.not_listed hz.2.1 (e ▸ hyfl)
    have hz2 := (hk12.held_iff hzy r).mpr hz
    calc (h3.put .allocCaller y caller).mem (z + HDR + i) = h3.mem (z + HDR + i) :=
          hlast.keeps.payload hfreed.inv ((hfreed.keeps.held_iff hzx r).mpr hz2) hzy i hi
      _ = h2.mem (z + HDR + i) := hfreed.keeps.payload hcopy.inv hz2 hzx i hi
      _ = h.mem (z + HDR + i) := hk12.payload hinv hz hzy i hi
  · -- the block split off `y` is not the one behind `x`, so freeing `x` does not absorb it
    intro i hi hout
    have hy2 := hcopy.held
    have hl2 : Local y h1 h2 := local_payload (fun j hj => copyBytes_outside (by
      have := (ha.inv.guard y ha.mem not_mem_nil ha.free).1
      rw [ha.reqSize] at this
      unfold HeapState.fin at hj
      omega)) rfl rfl rfl rfl
    have hfin : (h3.put .allocCaller y caller).fin y = h1.fin y := by
      rw [HeapState.fin, get_put_field _ _ _ (by decide),
        hfreed.keeps.size y hy2.1 hyx.symm hy2.2.1, hl2.shape .size rfl]
      rfl
    rw [hfin] at hout
    have hmid : ∀ c ∈ bs1, i < c ∨ c + HDR ≤ i := by
      intro c hc
      rcases ha.fresh c hc with hcb | hcn
      · exact hi c (mem_append_left _ hcb)
      rcases hfreed.erased c hc with hc3 | hcx | hcx
      · exact hi c (mem_append_right _ hc3)
      · exact hi c (mem_append_left _ (hcx ▸ hx))
      · refine absurd (hcopy.inv.shape.next_inj hx2 hy2.1 ?_ ?_) hyx
        · rw [← hcx]
          exact fun e => hcopy.inv.shape.ne_zero (e ▸ hc)
        · rw [← hcx, hcn, hl2.shape .next rfl]
    have hboth : ∀ c ∈ bs ++ bs1, i < c ∨ c + HDR ≤ i := fun c hc =>
      (mem_append.mp hc).elim (fun h => hi c (mem_append_left _ h)) (hmid c)
    have hyi := hmid y ha.mem
    calc (h3.put .allocCaller y caller).mem i = h3.mem i := put_mem_outside _ _ _ hyi
      _ = h2.mem i := hfreed.headers i hmid
      _ = h1.mem i := hl2.outside i (by omega)
      _ = h.mem i := ha.spares i hboth hout

theorem Accounted.of_same (ha : Accounted h bs) (hm : SameHeap h h') (hused : h'.used = h.used) :
    Accounted h' bs := by
  have hget : h'.get = h.get := funext fun f => funext fun b => hm.get f b
  unfold Accounted allocatedSize at ha ⊢
  rw [hget, hused, ha]

/-- If the block `x` grows in place, the block behind it just suffices or leaves enough to be split
off. -/
def GrowsTight (x newReq : Nat) (h : HeapState) : Prop :=
  let n := h.get .next x
  let room := h.get .size x + HDR + h.get .size n
  let newSize := align16 (newReq + 8)
  h.get .size x < newSize → n ≠ 0 → h.get .free n ≠ 0 → newSize ≤ room →
    room = newSize ∨ HDR + 16 < room - newSize

instance (x newReq : Nat) (h : HeapState) : Decidable (GrowsTight x newReq h) :=
  inferInstanceAs (Decidable (_ < _ → _ ≠ 0 → _ ≠ 0 → _ ≤ _ → _ = _ ∨ _ < _))

/-- **`krealloc` of an allocated block**: null and nothing happened, or the same block, or
another one. -/
theorem krealloc_spec (caller : Nat) (hinv : HeapInv [] [] h bs fl) (hx : x ∈ bs)
    (hfx : h.get .free x = 0) (hreq : newReq + 8 + 15 < 2 ^ 64) (hreq0 : newReq ≠ 0) :
    (∃ h', kreallocNolock (x + HDR) newReq caller h = some (0, h') ∧ SameHeap h h'
        ∧ (Accounted h bs → (Accounted h' bs ↔ GrowsTight x newReq h)))
      ∨ (∃ h' bs' fl', kreallocNolock (x + HDR) newReq caller h = some (x + HDR, h')
        ∧ Allocated x (min (h.get .reqSize x) newReq) newReq h bs h' bs' fl'
        ∧ (Accounted h bs → (Accounted h' bs' ↔ GrowsTight x newReq h)))
      ∨ ∃ y h' bs' fl', y ∈ fl ∧ kreallocNolock (x + HDR) newReq caller h = some (y + HDR, h')
        ∧ Moved x y newReq h bs h' bs' fl'
        ∧ (Accounted h bs → (Accounted h' bs' ↔ GrowsTight x newReq h)) := by
  have hs := hinv.shape
  obtain ⟨c1, c2, c3⟩ := hinv.checks hx hfx
  have halign := align16_spec hreq
  unfold kreallocNolock
  rw [if_neg (by unfold HDR; omega), if_neg hreq0, if_neg (by rw [c1]; decide), Nat.add_sub_cancel,
    if_neg (by rw [c2, c3, hfx]; simp)]
  by_cases hshrink : align16 (newReq + 8) ≤ h.get .size x
  · rw [if_pos hshrink]
    obtain ⟨bs', fl', ha, hacc⟩ := reallocShrink_spec caller hinv hx hfx hshrink halign
      (align16_min hreq)
    exact .inr (.inl ⟨_, bs', fl', rfl, { ha with keeps := ha.keeps.mono (by omega) },
      fun h0 => iff_of_true (hacc h0) fun h1 => absurd hshrink (by omega)⟩)
  rw [if_neg hshrink]
  by_cases hnext : h.get .next x ≠ 0 ∧ h.get .free (h.get .next x) ≠ 0
  · -- the scan moves the rover even when the blocks do not suffice
    rw [if_pos hnext]
    have hnb := (hs.next_mem hx hnext.1).1
    have hfn := (hinv.free_ne_zero hnb).mp hnext.2
    obtain ⟨rover, hscan⟩ := growScan_spec (align16 (newReq + 8)) h.rover hinv hx rfl hnb hfn
    rw [hscan]
    dsimp only
    have hsame := sameHeap_withRover rover h
    have hinv1 := hinv.of_same hsame
    have hg := hsame.get
    have hsame0 : Accounted h bs → Accounted (h.withRover rover) bs :=
      fun h0 => h0.of_same hsame rfl
    by_cases hfit : align16 (newReq + 8) ≤ h.get .size x + HDR + h.get .size (h.get .next x)
    · rw [if_pos hfit]
      obtain ⟨h', bs', fl', he, ha, hacc⟩ := reallocGrow_spec caller hinv1 hx ((hg _ _).trans hfx)
        (hg _ _) hnb ((hg _ _).trans hfn) (by rw [hg]; omega) (by rw [hg, hg]; exact hfit) halign
        (align16_min hreq)
      rw [hg, hg] at he hacc
      rw [hg] at ha
      rw [he]
      refine .inr (.inl ⟨h', bs', fl', rfl, { ha with
          keeps := (Keeps.of_same hsame).trans ha.keeps
          spares := ha.spares.after (.of_same hsame) },
        fun h0 => (hacc (hsame0 h0)).trans ?_⟩)
      exact ⟨fun h1 _ _ _ _ => h1, fun h1 => h1 (by omega) hnext.1 hnext.2 hfit⟩
    · rw [if_neg hfit]
      have htight : GrowsTight x newReq h := fun _ _ _ h1 => absurd h1 hfit
      rcases reallocMove_spec caller hinv1 hx ((hg _ _).trans hfx) hreq with he |
        ⟨y, h', bs', fl', hy, he, hm, hacc⟩
      · exact .inl ⟨_, he, hsame, fun h0 => iff_of_true (hsame0 h0) htight⟩
      · refine .inr
          (.inr ⟨y, h', bs', fl', hy, he, ?_, fun h0 => iff_of_true (hacc (hsame0 h0)) htight⟩)
        exact { hm with
          others := by simpa only [Held, hg] using hm.others
          copied := by simpa only [hg, hsame.mem] using hm.copied
          payload := by simpa only [Held, hg, hsame.mem] using hm.payload
          spares := hm.spares.after (.of_same hsame) }
  · rw [if_neg hnext]
    have htight : GrowsTight x newReq h := fun _ h1 h2 => absurd ⟨h1, h2⟩ hnext
    rcases reallocMove_spec caller hinv hx hfx hreq with he | ⟨y, h', bs', fl', hy, he, hm, hacc⟩
    · exact .inl ⟨h, he, ⟨rfl, rfl, rfl, rfl, rfl⟩, fun h0 => iff_of_true h0 htight⟩
    · exact .inr (.inr ⟨y, h', bs', fl', hy, he, hm, fun h0 => iff_of_true (hacc h0) htight⟩)

end AxonOS.Heap

import AxonOS.Heap.Run

/-! # What the callers of the heap keep

A caller owns the bytes it asked for. `krealloc` keeps them as far as the new request goes, wherever
the block ends up, and no call touches the bytes of the other callers; an allocation writes headers
and the payload it returns, and nothing else. All this rests on the rounding of the request:
`size + 8` and `ALIGN16` are computed modulo `2^64` and so is `num * size`. A request within 23
bytes of `2^64` is granted a block of 0 or 16 bytes, and its canary is written at or before the
beginning of the payload.
-/

namespace AxonOS.Heap

open Lib

/-- What a run of calls from `heap_init` leads to. -/
def Reachable (h : HeapState) (live : Live) : Prop :=
  ∃ kernelEnd start size mem cs, 0 < (heapInit kernelEnd start size mem).base
    ∧ HDR < (heapInit kernelEnd start size mem).capacity
    ∧ (heapInit kernelEnd start size mem).lim < 2 ^ 64
    ∧ RunOk cs (heapInit kernelEnd start size mem, [])
    ∧ runCalls cs (heapInit kernelEnd start size mem, []) = some (h, live)

/-- The bytes of every request other than the one at `p` are the same. -/
def Isolated (p : Nat) (live : Live) (h h' : HeapState) : Prop :=
  ∀ q r, (q, r) ∈ live → q ≠ p → ∀ i < r, h'.mem (q + i) = h.mem (q + i)

variable {bs bs' fl fl' : List Nat} {h h' g : HeapState} {live : Live} {p q r n x : Nat}

theorem Reachable.inv (hr : Reachable h live) :
    ∃ bs fl, HeapInv [] [] h bs fl ∧ Tracks h bs live := by
  obtain ⟨kernelEnd, start, size, mem, cs, hbase, hcap, hlim, hok, hrun⟩ := hr
  have hinv := heapInv_init rfl hbase hcap hlim
  obtain ⟨h', live', bs, fl, he, hinv', ht⟩ :=
    runCalls_inv hinv (tracks_none hinv fun _ hb => hb) hok
  obtain ⟨rfl, rfl⟩ := Prod.mk.inj (Option.some.inj (he.symm.trans hrun))
  exact ⟨bs, fl, hinv', ht⟩

/-- No call leaves a caller with a pointer to nothing. -/
theorem call_pos {c : Call} {s s' : HeapState × Live} (hstep : c.step s = some s')
    (hpos : ∀ a ∈ s.2, 0 < a.2) : ∀ a ∈ s'.2, 0 < a.2 := by
  have hwithout : ∀ p, ∀ a ∈ s.2.without p, 0 < a.2 :=
    fun p a ha => hpos a (List.mem_of_mem_filter ha)
  cases c with
  | kmalloc req caller =>
    obtain ⟨⟨q, h'⟩, he, rfl⟩ := Option.map_eq_some_iff.mp hstep
    dsimp only
    split
    · exact hpos
    next hq =>
    refine List.forall_mem_cons.mpr ⟨Nat.pos_of_ne_zero ?_, hpos⟩
    rintro rfl
    rw [kmallocNolock, if_pos (.inr rfl)] at he
    exact hq (Prod.mk.inj (Option.some.inj he)).1.symm
  | kfree p =>
    obtain rfl := Option.some.inj hstep
    exact hwithout p
  | krealloc p req caller =>
    obtain ⟨⟨q, h'⟩, he, rfl⟩ := Option.map_eq_some_iff.mp hstep
    dsimp only
    split
    next hq =>
      refine List.forall_mem_cons.mpr ⟨Nat.pos_of_ne_zero ?_, hwithout p⟩
      rintro rfl
      unfold kreallocNolock at he
      split at he
      · rw [kmallocNolock, if_pos (.inr rfl)] at he
        exact hq (Prod.mk.inj (Option.some.inj he)).1.symm
      · exact hq (Prod.mk.inj (Option.some.inj he)).1.symm
    next =>
      split
      · exact hwithout p
      · exact hpos
  | store a v =>
    obtain rfl := Option.some.inj hstep
    exact hpos

theorem runCalls_pos {cs : List Call} {s s' : HeapState × Live} (hrun : runCalls cs s = some s')
    (hpos : ∀ a ∈ s.2, 0 < a.2) : ∀ a ∈ s'.2, 0 < a.2 := by
  induction cs generalizing s with
  | nil =>
    obtain rfl := Option.some.inj hrun
    exact hpos
  | cons c cs ih =>
    obtain ⟨s1, h1, h2⟩ := Option.bind_eq_some_iff.mp hrun
    exact ih h2 (call_pos h1 hpos)

theorem Reachable.pos (hr : Reachable h live) (hp : (p, r) ∈ live) : 0 < r := by
  obtain ⟨_, _, _, _, cs, -, -, -, -, hrun⟩ := hr
  exact runCalls_pos hrun (fun _ ha => absurd ha List.not_mem_nil) (p, r) hp

theorem Tracks.isolated (ht : Tracks h bs live) (hkeep : ∀ z r, z + HDR ≠ p → Held h bs z r →
    ∀ i < r, h'.mem (z + HDR + i) = h.mem (z + HDR + i)) : Isolated p live h h' := by
  intro q r hq hne
  obtain ⟨z, rfl, hz⟩ := ht.find hq
  exact hkeep z r hne hz

/-- A block that is held has room for its request and the canary. -/
theorem Held.fits (hx : Held h bs x n) (hinv : HeapInv [] [] h bs fl) :
    n + 8 ≤ h.get .size (x + HDR - HDR) := by
  obtain ⟨hxb, hfx, rfl⟩ := hx
  exact (hinv.guard x hxb List.not_mem_nil hfx).1

/-! ## Requests that wrap -/

section Wraps

variable (hwrap : ¬ ReqOk n) (hn : n < 2 ^ 64)

include hwrap hn

/-- The size such a request is rounded to. -/
theorem align16_wraps : align16 (n + 8) = if n ≤ 2 ^ 64 - 8 then 0 else 16 := by
  unfold ReqOk at hwrap
  unfold align16
  split <;> omega

/-- Its canary goes to the last bytes of the header and the first ones of the payload. -/
theorem canary_wraps (hx : x + HDR < 2 ^ 64) : (x + HDR + n) % 2 ^ 64 + (2 ^ 64 - n) = x + HDR := by
  unfold ReqOk at hwrap
  unfold HDR at hx ⊢
  omega

theorem putCanary_wraps_size (hx : x + HDR < 2 ^ 64) :
    (putCanary (x + HDR) n h).get .size x = h.get .size x := by
  have hat := canary_wraps hwrap hn hx
  unfold ReqOk at hwrap
  unfold HeapState.get putCanary
  refine loadLE_storeLE_ne (.inl ?_)
  dsimp only [Field.off, Field.width]
  unfold HDR at *
  omega

theorem retag_wraps_outside (caller : Nat) {i : Nat} (hx : x + HDR < 2 ^ 64)
    (hi : i < x ∨ x + HDR ≤ i ∧ x + HDR + n + 8 ≤ 2 ^ 64 + i) :
    (retag x n caller h).mem i = h.mem i := by
  have hat := canary_wraps hwrap hn hx
  have hout : i < x ∨ x + HDR ≤ i := hi.imp id And.left
  unfold ReqOk at hwrap
  calc (retag x n caller h).mem i = ((h.put .reqSize x n).put .allocCaller x caller).mem i :=
        storeLE_outside (by unfold HDR at *; omega)
    _ = (h.put .reqSize x n).mem i := put_mem_outside _ _ _ hout
    _ = h.mem i := put_mem_outside _ _ _ hout

theorem retag_wraps_byte (caller : Nat) (hx : x + HDR < 2 ^ 64) (hlarge : ¬ n ≤ 2 ^ 64 - 8) :
    (retag x n caller h).mem (x + HDR) = HEAP_CANARY_QWORD / 256 ^ (2 ^ 64 - n) % 256 := by
  have hat := canary_wraps hwrap hn hx
  have hk : x + HDR - (x + HDR + n) % 2 ^ 64 = 2 ^ 64 - n := by omega
  unfold retag putCanary storeLE
  dsimp only
  rw [if_pos (by omega), hk]

section Realloc

variable (hinv : HeapInv [] [] h bs fl) (hx : Held h bs x r)

include hinv hx

/-- `krealloc` takes the request for a smaller one. -/
theorem krealloc_wraps (caller : Nat) : kreallocNolock (x + HDR) n caller h
    = some (x + HDR, reallocShrink x (align16 (n + 8)) n caller h) := by
  obtain ⟨hxb, hfx, -⟩ := hx
  obtain ⟨c1, c2, c3⟩ := hinv.checks hxb hfx
  have hmin := (hinv.guard x hxb List.not_mem_nil hfx).2.2
  have hn0 : n ≠ 0 := by
    rintro rfl
    exact hwrap (by decide)
  have hsmall : align16 (n + 8) ≤ h.get .size x := by
    rw [align16_wraps hwrap hn]
    split <;> omega
  unfold kreallocNolock
  rw [if_neg (by unfold HDR; omega), if_neg hn0, if_neg (by rw [c1]; decide), Nat.add_sub_cancel,
    if_neg (by rw [c2, c3, hfx]; simp), if_pos hsmall]

/-- The block before its header and canary are written: it has been split, or not. -/
theorem reallocShrink_wraps (caller : Nat) :
    ∃ h1 h2, reallocShrink x (align16 (n + 8)) n caller h = retag x n caller h2
    ∧ h1 = splitBlock x (align16 (n + 8)) h ∧ SameHeap h1 h2
    ∧ (h1.get .size x ≤ h.get .size x) ∧ (∃ bs1, Keeps x 0 h bs h1 bs1)
    ∧ (HDR + 16 < h.get .size x - align16 (n + 8) →
      h1.get .size (x + HDR + align16 (n + 8)) = remainderSize x (align16 (n + 8)) h) := by
  obtain ⟨hxb, hfx, -⟩ := hx
  have hmin := (hinv.guard x hxb List.not_mem_nil hfx).2.2
  have hsmall : align16 (n + 8) ≤ h.get .size x := by
    rw [align16_wraps hwrap hn]
    split <;> omega
  obtain ⟨bs1, fl1, -, hr, hsize, hrem⟩ :=
    splitBlock_spec (hinv.except (hinv.not_listed hfx)) hxb hsmall
  refine ⟨_, _, rfl, rfl, sameHeap_ite (sameHeap_discountUsed _ _), ?_,
    ⟨bs1, hr.keeps.mono (Nat.zero_le _)⟩, hrem⟩
  rw [hsize]
  split
  · exact Nat.le_refl _
  · exact hsmall

/-- The other callers keep their bytes all the same. -/
theorem krealloc_wraps_isolated (caller : Nat) (ht : Tracks h bs live) :
    Isolated (x + HDR) live h (reallocShrink x (align16 (n + 8)) n caller h) := by
  obtain ⟨h1, h2, he, -, hsame, -, ⟨bs1, hk⟩, -⟩ := reallocShrink_wraps hwrap hn hinv hx caller
  refine ht.isolated fun z r' hz hheld i hi => ?_
  have hzx : z ≠ x := fun e => hz (by rw [e])
  have hfit := hheld.fits hinv
  rw [Nat.add_sub_cancel] at hfit
  have hmin := (hinv.guard x hx.1 List.not_mem_nil hx.2.1).2.2
  have hfin := hinv.shape.fin_lt hx.1
  have hapart := hinv.shape.payload_apart hx.1 hheld.1 hzx (Nat.le_add_right (z + HDR) i)
    (by unfold HeapState.fin; omega)
  unfold HeapState.fin at hfin hapart
  rw [he, retag_wraps_outside hwrap hn caller (by omega) (by omega), hsame.mem]
  exact hk.payload hinv hheld hzx i hi

/-- A block that is too small to be split keeps its bytes, if the canary stays in the header. -/
theorem krealloc_wraps_kept (caller : Nat) (hlow : n ≤ 2 ^ 64 - 8)
    (hsmall : h.get .size x ≤ HDR + 16) (i : Nat) :
    (reallocShrink x (align16 (n + 8)) n caller h).mem (x + HDR + i) = h.mem (x + HDR + i) := by
  obtain ⟨h1, h2, he, rfl, hsame, -⟩ := reallocShrink_wraps hwrap hn hinv hx caller
  have hfin := hinv.shape.fin_lt hx.1
  have hzero : align16 (n + 8) = 0 := by rw [align16_wraps hwrap hn, if_pos hlow]
  rw [he, retag_wraps_outside hwrap hn caller (by unfold HeapState.fin at hfin; omega) (by omega),
    hsame.mem, hzero, splitBlock_eq (Nat.zero_le _) hfin, if_pos (by omega)]

/-- Otherwise its first byte becomes a byte of the new header or of the canary. -/
theorem krealloc_wraps_byte (caller : Nat) (hbad : ¬ (n ≤ 2 ^ 64 - 8 ∧ h.get .size x ≤ HDR + 16)) :
    (reallocShrink x (align16 (n + 8)) n caller h).mem (x + HDR) % 256
      = (if n ≤ 2 ^ 64 - 8 then remainderSize x 0 h else HEAP_CANARY_QWORD / 256 ^
      (2 ^ 64 - n)) % 256 := by
  obtain ⟨h1, h2, he, -, hsame, -, -, hrem⟩ := reallocShrink_wraps hwrap hn hinv hx caller
  have hfin := hinv.shape.fin_lt hx.1
  have hx64 : x + HDR < 2 ^ 64 := by
    unfold HeapState.fin at hfin
    omega
  rw [he]
  by_cases hlow : n ≤ 2 ^ 64 - 8
  · rw [if_pos hlow, retag_wraps_outside hwrap hn caller hx64 (by omega), hsame.mem]
    rw [align16_wraps hwrap hn, if_pos hlow] at hrem
    rw [← hrem (by omega), Nat.add_zero]
    unfold HeapState.get
    rw [show Field.size.width = 7 + 1 from rfl, loadLE, show Field.size.off = 0 from rfl,
      Nat.add_zero, Nat.add_mul_mod_self_left, Nat.mod_mod]
  · rw [if_neg hlow, retag_wraps_byte hwrap hn caller hx64 hlow, Nat.mod_mod]

end Realloc

end Wraps

/-! ## Resizing -/

/-- What `krealloc(p, n)` makes of a pointer that is held for `r` bytes, when it returns `q`. -/
structure Resizes (p r n : Nat) (live : Live) (h : HeapState) (q : Nat) (h' : HeapState) :
    Prop where
  kept : q ≠ 0 → ∀ i < min r n, h'.mem (q + i) = h.mem (p + i)
  failed : q = 0 → (h'.get .free (p - HDR) = 0 ∧ h'.get .reqSize (p - HDR) = r)
    ∧ ∀ i < r, h'.mem (p + i) = h.mem (p + i)
  isolated : Isolated p live h h'

theorem krealloc_resizes (caller : Nat) (hinv : HeapInv [] [] h bs fl) (ht : Tracks h bs live)
    (hp : (p, r) ∈ live) (hn : n ≠ 0) (hfit : ReqOk n) :
    ∃ q h', kreallocNolock p n caller h = some (q, h') ∧ Resizes p r n live h q h' := by
  obtain ⟨x, rfl, hx, hfx, rfl⟩ := ht.find hp
  have hne : ∀ {y : Nat}, y + HDR ≠ 0 := fun {y} => by unfold HDR; omega
  have hother : ∀ {z}, z + HDR ≠ x + HDR → z ≠ x := fun hz e => hz (by rw [e])
  rcases krealloc_spec caller hinv hx hfx hfit hn with ⟨h', he, hm, -⟩ | ⟨h', bs', fl', he, ha, -⟩ |
    ⟨y, h', bs', fl', hy, he, hm, -⟩
  · refine ⟨0, h', he, fun h0 => absurd rfl h0, fun _ => ⟨?_, fun i _ => by rw [hm.mem]⟩,
      fun _ _ _ _ i _ => by rw [hm.mem]⟩
    rw [hm.get, hm.get]
    exact ⟨hfx, rfl⟩
  · exact ⟨_, h', he, fun _ i hi => ha.keeps.body _ (Nat.le_add_right _ _)
      (Nat.add_lt_add_left hi _), fun h0 => absurd h0 hne, ht.isolated fun z r hz hh =>
      ha.keeps.payload hinv hh (hother hz)⟩
  · exact ⟨_, h', he, fun _ => hm.copied, fun h0 => absurd h0 hne,
      ht.isolated fun z r hz hh => hm.payload z r (hother hz) hh⟩

/-- The heap with other contents in the `r` bytes at `p`. -/
structure Refilled (p r : Nat) (h g : HeapState) : Prop where
  same : g = { h with mem := g.mem }
  outside : ∀ i, i < p ∨ p + r ≤ i → g.mem i = h.mem i
  byte : ∀ i, p ≤ i → i < p + r → g.mem i < 256

section Refilled

variable (hg : Refilled (x + HDR) r h g) (hinv : HeapInv [] [] h bs fl) (hx : Held h bs x r)

include hg hinv hx

theorem Refilled.edited : Edited x r h bs fl g := by
  rw [hg.same]
  exact write_spec hinv hx hg.outside

theorem Refilled.tracks (ht : Tracks h bs live) : Tracks g bs live := by
  have he := hg.edited hinv hx
  refine ⟨ht.nodup, fun q s => ?_⟩
  rw [ht.held]
  refine exists_congr fun z => and_congr_right fun _ => ?_
  by_cases hz : z = x
  · subst hz
    constructor
    · rintro ⟨-, -, rfl⟩
      rw [hx.2.2]
      exact he.held
    · rintro ⟨-, -, rfl⟩
      rw [he.held.2.2]
      exact hx
  · exact (he.keeps.held_iff hz s).symm

theorem Refilled.local : Local x h g := by
  have hfit := hx.fits hinv
  rw [Nat.add_sub_cancel] at hfit
  rw [hg.same]
  refine local_payload (fun i hi => hg.outside i ?_) rfl rfl rfl rfl
  unfold HeapState.fin at hi
  omega

/-- The contents do not matter for what is split off. -/
theorem Refilled.remainderSize_eq (size : Nat) :
    remainderSize x size g = remainderSize x size h := by
  have hl := hg.local hinv hx
  have hs := hinv.shape
  have hbehind : h.get .next x ≠ 0 → ∀ f, g.get f (h.get .next x) = h.get f (h.get .next x) :=
      fun h0 f =>
    hl.other hs hx.1 (hs.next_mem hx.1 h0).1 (hs.lt_next hx.1 h0).ne' f
  unfold remainderSize
  rw [hl.shape .size rfl, hl.shape .next rfl]
  by_cases h0 : h.get .next x = 0
  · rw [if_neg fun e => e.1 h0, if_neg fun e => e.1 h0]
  · rw [hbehind h0, hbehind h0]

end Refilled

/-- Some contents whose first byte is not `b`. -/
theorem exists_refilled (h : HeapState) (p b : Nat) (hr : 0 < r) :
    ∃ g, Refilled p r h g ∧ g.mem p % 256 ≠ b % 256 := by
  let m : Mem := fun i =>
    if i = p then (b + 1) % 256 else if p ≤ i ∧ i < p + r then h.mem i % 256 else h.mem i
  refine ⟨{ h with mem := m }, ⟨rfl, fun i hi => ?_, fun i h1 h2 => ?_⟩, ?_⟩
  · exact (if_neg (by omega)).trans (if_neg (by omega))
  · change (if i = p then _ else _) < 256
    split
    · omega
    · rw [if_pos ⟨h1, h2⟩]
      omega
  · change (if p = p then _ else _) % 256 ≠ _
    rw [if_pos rfl]
    omega

/-- **`krealloc` of a held pointer** keeps the bytes that both requests have, or everything if it
fails, and the bytes of the other callers: whatever the bytes are, if and only if the new request
can be rounded up, or wraps to `0` and the block is too small to be split. -/
theorem krealloc_preserves_iff (caller : Nat) (hr : Reachable h live) (hp : (p, r) ∈ live)
    (hn : 0 < n) (hn64 : n < 2 ^ 64) :
    (∀ g, Refilled p r h g → ∃ q h', kreallocNolock p n caller g = some (q, h')
      ∧ Resizes p r n live g q h')
      ↔ ReqOk n ∨ n ≤ 2 ^ 64 - 8 ∧ h.get .size (p - HDR) ≤ HDR + 16 := by
  obtain ⟨bs, fl, hinv, ht⟩ := hr.inv
  have hpos := hr.pos hp
  obtain ⟨x, rfl, hx⟩ := ht.find hp
  rw [Nat.add_sub_cancel]
  have hp0 : x + HDR ≠ 0 := by unfold HDR; omega
  have hsize : ∀ {g}, Refilled (x + HDR) r h g → g.get .size x = h.get .size x := fun hg =>
    (hg.local hinv hx).shape .size rfl
  constructor
  · intro hall
    by_contra hnot
    obtain ⟨hwrap, hbad⟩ := not_or.mp hnot
    -- contents whose first byte is not the one that is written there
    obtain ⟨g, hg, hne⟩ := exists_refilled h (x + HDR)
      (if n ≤ 2 ^ 64 - 8 then remainderSize x 0 h else HEAP_CANARY_QWORD / 256 ^ (2 ^ 64 - n)) hpos
    have he := hg.edited hinv hx
    obtain ⟨q, h', hcall, hres⟩ := hall g hg
    rw [krealloc_wraps hwrap hn64 he.inv he.held] at hcall
    obtain ⟨rfl, rfl⟩ := Prod.mk.inj (Option.some.inj hcall)
    have hbyte := krealloc_wraps_byte hwrap hn64 he.inv he.held caller
      (by rw [hsize hg]; exact hbad)
    rw [hg.remainderSize_eq hinv hx] at hbyte
    have hkept : (reallocShrink x _ n caller g).mem (x + HDR) = g.mem (x + HDR) :=
      hres.kept hp0 0 (by omega)
    rw [← hbyte, hkept] at hne
    exact hne rfl
  · intro hcond g hg
    have he := hg.edited hinv hx
    have htg := hg.tracks hinv hx ht
    rcases Classical.em (ReqOk n) with hfit | hwrap
    · exact krealloc_resizes caller he.inv htg hp hn.ne' hfit
    obtain ⟨hlow, hsmall⟩ := hcond.resolve_left hwrap
    refine ⟨_, _, krealloc_wraps hwrap hn64 he.inv he.held caller, fun _ i _ => ?_,
      fun h0 => absurd h0 hp0, krealloc_wraps_isolated hwrap hn64 he.inv he.held caller htg⟩
    exact krealloc_wraps_kept hwrap hn64 he.inv he.held caller hlow
      (by rw [hsize hg]; exact hsmall) i

theorem reachable_small : ∃ s ∈ runCalls [.kmalloc 100 7] (smallHeap, []), Reachable s.1 s.2
    ∧ s.2 = [(0x100040, 100)] := by
  have hlive : ∃ s ∈ runCalls [.kmalloc 100 7] (smallHeap, []), s.2 = [(0x100040, 100)] := by
    decide +kernel
  obtain ⟨s, hs, he⟩ := hlive
  exact ⟨s, hs, ⟨0, 0x100000, 4096, fun _ => 0, [.kmalloc 100 7], by decide, by decide, by decide,
    by decide +kernel, hs⟩, he⟩

/-- `krealloc(p, 200)` keeps the 100 bytes, whatever they are. -/
theorem krealloc_preserves_small : ∃ s ∈ runCalls [.kmalloc 100 7] (smallHeap, []), ∀ g,
    Refilled 0x100040 100 s.1 g →
      ∃ q h', kreallocNolock 0x100040 200 7 g = some (q, h')
      ∧ Resizes 0x100040 100 200 s.2 g q h' := by
  obtain ⟨s, hs, hr, he⟩ := reachable_small
  exact ⟨s, hs,
    (krealloc_preserves_iff 7 hr (by rw [he]; exact List.mem_singleton.mpr rfl) (by decide)
    (by decide)).mpr (.inl (by decide))⟩

/-- `krealloc(p, 2^64 - 8)` returns `p`, whose first byte is now one of the header of the
remainder. -/
theorem krealloc_overwrites : ∃ s ∈ runCalls [.kmalloc 100 7] (smallHeap, []), (0x100040, 100) ∈ s.2
    ∧ s.1.mem 0x100040 = 0 ∧ ∃ r ∈ kreallocNolock 0x100040 (2 ^ 64 - 8) 7 s.1, r.1 = 0x100040
      ∧ r.2.mem 0x100040 = 128 := by
  decide +kernel

/-! ## What is granted and what is written -/

/-- The blocks of the heap, in address order. -/
def Blocks (h : HeapState) (bs : List Nat) : Prop := DList (h.get .next) (h.get .prev) h.head bs

/-- The block at `q` has room for `n` bytes and the canary, and no byte has been written but those
of headers, of blocks from before or after the call, and those of the payload of the block. -/
structure Grants (n : Nat) (h : HeapState) (q : Nat) (h' : HeapState) : Prop where
  room : n + 8 ≤ h'.get .size (q - HDR)
  written : ∃ bs bs', Blocks h bs ∧ Blocks h' bs' ∧ q - HDR ∈ bs' ∧ ∀ i,
    (∀ c ∈ bs ++ bs', i < c ∨ c + HDR ≤ i) → i < q ∨ q + h'.get .size (q - HDR) ≤ i →
    h'.mem i = h.mem i

/-- The call returns if the request of `n` bytes can be rounded up, and a block that it returns
grants the request exactly if it can. -/
structure GrantsExactly (n : Nat) (h : HeapState) (call : Option (Nat × HeapState)) : Prop where
  returns : ReqOk n → ∃ r, call = some r
  exact : ∀ q h', call = some (q, h') → q ≠ 0 → (Grants n h q h' ↔ ReqOk n)

theorem HeapInv.blocks (hinv : HeapInv [] [] h bs fl) : Blocks h bs := by
  unfold Blocks
  rw [hinv.shape.head]
  exact hinv.shape.blocks

theorem Held.grants (hx : Held h' bs' x n) (hinv : HeapInv [] [] h bs fl)
    (hinv' : HeapInv [] [] h' bs' fl') (hspares : Spares (bs ++ bs') x h h') :
    Grants n h (x + HDR) h' := by
  refine ⟨hx.fits hinv', bs, bs', hinv.blocks, hinv'.blocks, ?_, ?_⟩
  · rw [Nat.add_sub_cancel]
    exact hx.1
  · rw [Nat.add_sub_cancel]
    exact hspares

/-- A call that returns, with what it grants when the request can be rounded up and with less when
it cannot. -/
theorem GrantsExactly.of_cases {call : Option (Nat × HeapState)}
    (hok : ReqOk n → ∃ q h', call = some (q, h') ∧ (q ≠ 0 → Grants n h q h'))
    (hbad : ¬ ReqOk n → ∀ q h', call = some (q, h') → q ≠ 0 → h'.get .size (q - HDR) < n + 8) :
    GrantsExactly n h call := by
  refine ⟨fun hfit => ?_, fun q h' he hq => ⟨fun hg => ?_, fun hfit => ?_⟩⟩
  · obtain ⟨q, h', he, -⟩ := hok hfit
    exact ⟨_, he⟩
  · by_contra hwrap
    exact absurd hg.room (Nat.not_le_of_lt (hbad hwrap q h' he hq))
  · obtain ⟨q', h'', he', hg⟩ := hok hfit
    obtain ⟨rfl, rfl⟩ := Prod.mk.inj (Option.some.inj (he.symm.trans he'))
    exact hg hq

theorem kmalloc_ok (caller : Nat) (hinv : HeapInv [] [] h bs fl) (hfit : ReqOk n) :
    kmallocNolock n caller h = some (0, h) ∨ ∃ y h' bs' fl',
      kmallocNolock n caller h = some (y + HDR, h')
      ∧ Held h' bs' y n ∧ HeapInv [] [] h' bs' fl' ∧ Spares (bs ++ bs') y h h' := by
  rcases kmalloc_spec caller hinv hfit with he | ⟨y, h', bs', fl', -, he, ha, -⟩
  · exact .inl he
  · exact .inr ⟨y, h', bs', fl', he, ha.held, ha.inv, ha.spares⟩

/-- The block for a request that wraps is one of those there were. -/
theorem kmalloc_wraps (caller : Nat) (hinv : HeapInv [] [] h bs fl) (hwrap : ¬ ReqOk n)
    (hn : n < 2 ^ 64) (he : kmallocNolock n caller h = some (q, h')) (hq : q ≠ 0) :
    ∃ y, q = y + HDR ∧ h'.get .size y < n + 8 := by
  unfold kmallocNolock at he
  split at he
  · exact absurd (Prod.mk.inj (Option.some.inj he)).1.symm hq
  obtain ⟨z, hz⟩ := hinv.freeList
  dsimp only at he
  rcases firstFit_spec (align16 (n + 8)) hz hinv.fl_length with h1 | ⟨b, hb, h1, h2⟩
  · rw [h1] at he
    exact absurd (Prod.mk.inj (Option.some.inj he)).1.symm hq
  have hbb := hinv.fl_sub b hb
  have hb0 : b ≠ 0 := fun e => hinv.shape.ne_zero (e ▸ hbb)
  obtain ⟨c, rfl⟩ := Nat.exists_eq_succ_of_ne_zero hb0
  rw [h1] at he
  obtain ⟨rover, hr⟩ := takeBlock_eq (c + 1) (align16 (n + 8)) n caller h
  obtain ⟨rfl, rfl⟩ := Prod.mk.inj (Option.some.inj ((congrArg some hr).symm.trans he))
  have hfin := hinv.shape.fin_lt hbb
  unfold HeapState.fin at hfin
  obtain ⟨hinv1, hf1⟩ := hinv.unlist hb
  have hroom : align16 (n + 8) ≤ (flRemove (c + 1) h).get .size (c + 1) := by
    rw [hf1.fields _ hbb .size rfl]
    exact h2
  obtain ⟨-, -, -, -, hsize, -⟩ := splitBlock_spec (hinv1.mono (by simp)) hbb hroom
  rw [hf1.fields _ hbb .size rfl] at hsize
  refine ⟨c + 1, rfl, ?_⟩
  rw [(sameHeap_withRover rover _).get, putCanary_wraps_size hwrap hn (by omega),
    (sameHeap_countUsed _ _).get, (tagAlloc_local _ _ _ _).shape .size rfl, hsize]
  unfold ReqOk at hwrap
  unfold HDR at hfin
  split <;> omega

theorem kmalloc_grants (caller : Nat) (hinv : HeapInv [] [] h bs fl) (hn : n < 2 ^ 64) :
    GrantsExactly n h (kmallocNolock n caller h) := by
  refine .of_cases (fun hfit => ?_) fun hwrap q h' he hq => ?_
  · rcases kmalloc_ok caller hinv hfit with he | ⟨y, h', bs', fl', he, hheld, hinv', hspares⟩
    · exact ⟨0, h, he, fun h0 => absurd rfl h0⟩
    · exact ⟨_, h', he, fun _ => hheld.grants hinv hinv' hspares⟩
  · obtain ⟨y, rfl, hless⟩ := kmalloc_wraps caller hinv hwrap hn he hq
    rw [Nat.add_sub_cancel]
    exact hless

theorem memset_size (y v k : Nat) (h : HeapState) :
    (h.memset (y + HDR) v k).get .size y = h.get .size y :=
  get_congr _ fun _ _ _ => if_neg (by omega)

theorem kcalloc_grants (caller num size : Nat) (hinv : HeapInv [] [] h bs fl) :
    GrantsExactly (num * size) h (kcalloc num size caller h) := by
  refine .of_cases (fun hfit => ?_) fun hwrap q h' he hq => ?_
  · have htotal : num * size % 2 ^ 64 = num * size :=
      Nat.mod_eq_of_lt (by unfold ReqOk at hfit; omega)
    unfold kcalloc
    simp only [htotal]
    rcases kmalloc_ok caller hinv hfit with he | ⟨y, h', bs', fl', he, hheld, hinv', hspares⟩
    · exact ⟨0, h, by rw [he]; rfl, fun h0 => absurd rfl h0⟩
    · have hset : Edited y (num * size) h' bs' fl' (h'.memset (y + HDR) 0 (num * size)) :=
        write_spec hinv' hheld fun i hi => if_neg (by omega)
      refine ⟨y + HDR, _, by rw [he]; exact congrArg some (if_neg (by unfold HDR; omega)),
        fun _ => hset.held.grants hinv hset.inv fun i hi hout => ?_⟩
      have hroom := hheld.fits hinv'
      rw [Nat.add_sub_cancel] at hroom
      rw [HeapState.fin, memset_size] at hout
      refine Eq.trans (if_neg (by omega)) (hspares i hi hout)
  · -- a product of `2^64` or more has no block, and the cleared bytes are not in the header
    unfold kcalloc at he
    obtain ⟨⟨q1, h1⟩, he1, he2⟩ := Option.map_eq_some_iff.mp he
    dsimp only at he2
    split at he2
    next h0 => exact absurd ((Prod.mk.inj he2).1.symm.trans h0) hq
    next h0 =>
    obtain ⟨rfl, rfl⟩ := Prod.mk.inj he2
    by_cases hlt : num * size < 2 ^ 64
    · rw [Nat.mod_eq_of_lt hlt] at he1 ⊢
      obtain ⟨y, rfl, hless⟩ := kmalloc_wraps caller hinv hwrap hlt he1 h0
      rw [Nat.add_sub_cancel, memset_size]
      exact hless
    · exact Nat.lt_of_lt_of_le (get_word_lt _ _ rfl) (by omega)

theorem krealloc_grants (caller : Nat) (hinv : HeapInv [] [] h bs fl) (ht : Tracks h bs live)
    (hp : p = 0 ∨ ∃ r, (p, r) ∈ live) (hn : n < 2 ^ 64) :
    GrantsExactly n h (kreallocNolock p n caller h) := by
  by_cases hp0 : p = 0
  · rw [hp0]
    exact kmalloc_grants caller hinv hn
  by_cases hn0 : n = 0
  · have he : kreallocNolock p n caller h = some (0, kfreeNolock p h) := by
      rw [kreallocNolock, if_neg hp0, if_pos hn0]
    exact .of_cases (fun _ => ⟨0, _, he, fun h0 => absurd rfl h0⟩) fun hwrap =>
      absurd (by rw [hn0]; decide) hwrap
  obtain ⟨r, hr⟩ := hp.resolve_left hp0
  obtain ⟨x, rfl, hx⟩ := ht.find hr
  refine .of_cases (fun hfit => ?_) fun hwrap q h' he hq => ?_
  · rcases krealloc_spec caller hinv hx.1 hx.2.1 hfit hn0 with ⟨h', he, -⟩ | ⟨h', bs', fl', he, ha,
      -⟩ | ⟨y, h', bs', fl', -, he, hm, -⟩
    · exact ⟨0, h', he, fun h0 => absurd rfl h0⟩
    · exact ⟨_, h', he, fun _ => ha.held.grants hinv ha.inv ha.spares⟩
    · exact ⟨_, h', he, fun _ => hm.held.grants hinv hm.inv hm.spares⟩
  · rw [krealloc_wraps hwrap hn hinv hx] at he
    obtain ⟨rfl, rfl⟩ := Prod.mk.inj (Option.some.inj he)
    obtain ⟨h1, h2, he, -, hsame, hle, -⟩ := reallocShrink_wraps hwrap hn hinv hx caller
    have hfin := hinv.shape.fin_lt hx.1
    unfold HeapState.fin at hfin
    have hsize : (retag x n caller h2).get .size x = h1.get .size x := by
      rw [← hsame.get, retag, putCanary_wraps_size hwrap hn (by omega),
        get_put_field _ _ _ (by decide), get_put_field _ _ _ (by decide)]
    rw [he, Nat.add_sub_cancel, hsize]
    unfold ReqOk at hwrap
    unfold HDR at hfin
    omega

/-- **A block that is returned grants its request exactly if the request can be rounded up**, by
`kmalloc`, `krealloc` and `kcalloc`, from every heap that a run can reach. -/
theorem allocation_grants_iff (caller n num size : Nat) (hn : n < 2 ^ 64) (hr : Reachable h live)
    (hp : p = 0 ∨ ∃ r, (p, r) ∈ live) : GrantsExactly n h (kmallocNolock n caller h)
      ∧ GrantsExactly n h (kreallocNolock p n caller h)
        ∧ GrantsExactly (num * size) h (kcalloc num size caller h) := by
  obtain ⟨bs, fl, hinv, ht⟩ := hr.inv
  exact ⟨kmalloc_grants caller hinv hn, krealloc_grants caller hinv ht hp hn,
    kcalloc_grants caller num size hinv⟩

/-- On a heap with one block, `kmalloc(24)`, `krealloc` of the block to 24 bytes and `kcalloc(3, 8)`
return blocks that grant the request. -/
theorem allocation_grants_small : ∃ s ∈ runCalls [.kmalloc 100 7] (smallHeap, []),
    (∃ r ∈ kmallocNolock 24 7 s.1, r.1 ≠ 0 ∧ Grants 24 s.1 r.1 r.2)
      ∧ (∃ r ∈ kreallocNolock 0x100040 24 7 s.1, r.1 ≠ 0 ∧ Grants 24 s.1 r.1 r.2)
      ∧ ∃ r ∈ kcalloc 3 8 7 s.1, r.1 ≠ 0 ∧ Grants (3 * 8) s.1 r.1 r.2 := by
  obtain ⟨s, hs, hr, he⟩ := reachable_small
  have hcalls : ∃ s ∈ runCalls [.kmalloc 100 7] (smallHeap, []),
      (∃ r ∈ kmallocNolock 24 7 s.1, r.1 ≠ 0)
      ∧ (∃ r ∈ kreallocNolock 0x100040 24 7 s.1, r.1 ≠ 0) ∧ ∃ r ∈ kcalloc 3 8 7 s.1, r.1 ≠ 0 := by
    decide +kernel
  obtain ⟨s', hs', ⟨r1, hr1, h1⟩, ⟨r2, hr2, h2⟩, r3, hr3, h3⟩ := hcalls
  obtain rfl := Option.mem_unique hs hs'
  obtain ⟨g1, g2, g3⟩ := allocation_grants_iff 7 24 3 8 (by decide) hr
    (.inr ⟨100, by rw [he]; exact List.mem_singleton.mpr rfl⟩ : 0x100040 = 0 ∨ _)
  exact ⟨s, hs, ⟨r1, hr1, h1, (g1.exact _ _ hr1 h1).mpr (by decide)⟩,
    ⟨r2, hr2, h2, (g2.exact _ _ hr2 h2).mpr (by decide)⟩, r3, hr3, h3,
    (g3.exact _ _ hr3 h3).mpr (by decide)⟩

/-- `kmalloc(2^64 - 8)` and `krealloc(p, 2^64 - 8)` return blocks of no bytes, and
`kcalloc(2^60 + 1, 16)` one of 32 bytes. -/
theorem wrapped_sizes :
    (∃ r ∈ kmallocNolock (2 ^ 64 - 8) 7 smallHeap, r.1 = 0x100040 ∧ r.2.get .size 0x100000 = 0)
    ∧ (∃ r ∈ kcalloc (2 ^ 60 + 1) 16 7 smallHeap, r.1 = 0x100040 ∧ r.2.get .size 0x100000 = 32)
    ∧ ∃ s ∈ runCalls [.kmalloc 100 7] (smallHeap, []),
      ∃ r ∈ kreallocNolock 0x100040 (2 ^ 64 - 8) 7 s.1, r.1 = 0x100040
      ∧ r.2.get .size 0x100000 = 0 := by
  decide +kernel

end AxonOS.Heap

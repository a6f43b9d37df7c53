import AxonOS.Heap.Steps

/-! # The calls of the allocator

What `kmalloc`, `kfree` and `krealloc` do to a heap between two calls (`HeapInv [] []`): they
return, the heap is between two calls again, and the callers that own other blocks see no
difference (`Keeps`).
-/

namespace AxonOS.Heap

open Lib List Nat HeapState

variable {U X bs bs' bs'' fl : List Nat} {h h' h'' : HeapState} {x k : Nat}

/-! ## What the owners of other blocks see -/

/-- The allocated blocks other than `x` and their contents are the same, and so are the first
`k` bytes of `x`. -/
structure Keeps (x k : Nat) (h : HeapState) (bs : List Nat) (h' : HeapState) (bs' : List Nat) :
    Prop where
  live : ∀ y, y ≠ x → (y ∈ bs' ∧ h'.get .free y = 0 ↔ y ∈ bs ∧ h.get .free y = 0)
  reqSize : ∀ y ∈ bs, y ≠ x → h.get .free y = 0 → h'.get .reqSize y = h.get .reqSize y
  size : ∀ y ∈ bs, y ≠ x → h.get .free y = 0 → h'.get .size y = h.get .size y
  bytes : ∀ y ∈ bs, y ≠ x → h.get .free y = 0 → ∀ i, y + HDR ≤ i → i < h.fin y → h'.mem i = h.mem i
  body : ∀ i, x + HDR ≤ i → i < x + HDR + k → h'.mem i = h.mem i

theorem Keeps.trans (h1 : Keeps x k h bs h' bs') (h2 : Keeps x k h' bs' h'' bs'') :
    Keeps x k h bs h'' bs'' := by
  have hstep : ∀ y ∈ bs, y ≠ x → h.get .free y = 0 → y ∈ bs' ∧ h'.get .free y = 0 :=
    fun y hy hyx hfy => (h1.live y hyx).mpr ⟨hy, hfy⟩
  refine ⟨fun y hyx => (h2.live y hyx).trans (h1.live y hyx), ?_, ?_, ?_,
    fun i hi hi' => (h2.body i hi hi').trans (h1.body i hi hi')⟩
  · intro y hy hyx hfy
    obtain ⟨hy', hfy'⟩ := hstep y hy hyx hfy
    exact (h2.reqSize y hy' hyx hfy').trans (h1.reqSize y hy hyx hfy)
  · intro y hy hyx hfy
    obtain ⟨hy', hfy'⟩ := hstep y hy hyx hfy
    exact (h2.size y hy' hyx hfy').trans (h1.size y hy hyx hfy)
  · intro y hy hyx hfy i hi hi'
    obtain ⟨hy', hfy'⟩ := hstep y hy hyx hfy
    refine (h2.bytes y hy' hyx hfy' i hi ?_).trans (h1.bytes y hy hyx hfy i hi hi')
    rw [fin, h1.size y hy hyx hfy]
    exact hi'

theorem Keeps.mono {m : Nat} (hk : Keeps x k h bs h' bs') (hm : m ≤ k) : Keeps x m h bs h' bs' :=
  { hk with body := fun i h1 h2 => hk.body i h1 (by omega) }

theorem Keeps.of_same (hm : SameHeap h h') : Keeps x k h bs h' bs :=
  ⟨fun y _ => by rw [hm.get], fun y _ _ _ => hm.get _ y,
    fun y _ _ _ => hm.get _ y, fun y _ _ _ i _ _ => by rw [hm.mem], fun i _ _ => by rw [hm.mem]⟩

theorem Keeps.refl : Keeps x k h bs h bs := Keeps.of_same ⟨rfl, rfl, rfl, rfl, rfl⟩

theorem keeps_links (hs : Shape h bs) (hf : Frame linkFields bs h h')
    (hx : x ∈ bs) (hk : k ≤ h.get .size x) : Keeps x k h bs h' bs where
  live y _ := and_congr_right fun hy => by rw [hf.fields y hy .free rfl]
  reqSize y hy _ _ := hf.fields y hy _ rfl
  size y hy _ _ := hf.fields y hy _ rfl
  bytes y hy _ _ i hi hi' := hf.bytes i (hs.payload_outside hy hi hi')
  body i hi hi' := hf.bytes i (hs.payload_outside hx hi (by unfold fin; omega))

variable {b req size n p : Nat} {a c : List Nat}

/-- A merge is not seen by the owners of blocks other than the one that grows. -/
theorem keeps_merged {n : Nat} (hs : Shape h bs) (hm : Merged bs fl b n h h') (hx : x ∈ bs)
    (hk : k ≤ h.get .size x) (hb : b = x ∨ h.get .free b ≠ 0) (hn : h.get .free n ≠ 0) :
    Keeps x k h bs h' (bs.erase n) where
  live y _ := by
    refine ⟨fun ⟨hy, hfy⟩ => ?_, fun ⟨hy, hfy⟩ => ?_⟩
    · have hyb := mem_of_mem_erase hy
      rw [hm.frame.fields y hyb .free rfl] at hfy
      exact ⟨hyb, hfy⟩
    · have hyn : y ≠ n := fun e => hn (e ▸ hfy)
      exact ⟨(mem_erase_of_ne hyn).mpr hy, by rw [hm.frame.fields y hy .free rfl]; exact hfy⟩
  reqSize y hy _ _ := hm.frame.fields y hy _ rfl
  size y hy hyx hfy := by
    refine hm.sizeOther y hy ?_
    rintro rfl
    rcases hb with hb | hb
    · exact hyx hb
    · exact hb hfy
  bytes y hy _ _ i hi hi' := hm.frame.bytes i (hs.payload_outside hy hi hi')
  body i hi hi' := hm.frame.bytes i (hs.payload_outside hx hi (by unfold fin; omega))

theorem keeps_local (hs : Shape h bs) (hx : x ∈ bs) (hl : Local x h h')
    (hbody : ∀ i, x + HDR ≤ i → i < x + HDR + k → h'.mem i = h.mem i) : Keeps x k h bs h' bs where
  live y hyx := and_congr_right fun hy => by rw [hl.other hs hx hy hyx]
  reqSize y hy hyx _ := hl.other hs hx hy hyx _
  size y hy hyx _ := hl.other hs hx hy hyx _
  bytes y hy hyx _ i hi hi' := hl.outside i (hs.payload_apart hx hy hyx hi hi')
  body := hbody

theorem keeps_local_zero (hs : Shape h bs) (hx : x ∈ bs) (hl : Local x h h') :
    Keeps x 0 h bs h' bs :=
  keeps_local hs hx hl fun i h1 h2 => absurd h2 (by omega)

theorem keeps_carved {a c : List Nat} (hs : Shape h (a ++ x :: c))
    (hc : Carved (a ++ x :: c) x (x + HDR + size) size h h') (hrem : size + HDR ≤ h.get .size x) :
    Keeps x size h (a ++ x :: c) h' (a ++ x :: (x + HDR + size) :: c) where
  live y hyx := by
    refine ⟨fun ⟨hy, hfy⟩ => ?_, fun ⟨hy, hfy⟩ => ?_⟩
    · have hyn : y ≠ x + HDR + size := by
        rintro rfl
        rw [hc.newFree] at hfy
        cases hfy
      have hyb := (mem_behind.mp hy).resolve_left hyn
      rw [hc.fields y hyb .free rfl] at hfy
      exact ⟨hyb, hfy⟩
    · exact ⟨mem_behind.mpr (.inr hy), by rw [hc.fields y hy .free rfl]; exact hfy⟩
  reqSize y hy _ _ := hc.fields y hy _ rfl
  size y hy hyx _ := hc.sizeOther y hy hyx
  bytes y hy hyx _ i hi hi' := by
    have hout := hs.payload_apart (by simp) hy hyx hi hi'
    rw [fin] at hout
    exact hc.bytes i (hs.payload_outside hy hi hi') (by omega)
  body i hi hi' := by
    have hx : x ∈ a ++ x :: c := by simp
    exact hc.bytes i (hs.payload_outside hx hi (by unfold fin; omega)) (.inl hi')

/-- Nothing is written outside the headers of the blocks `bs` and the payload that `x` ends up
with. -/
def Spares (bs : List Nat) (x : Nat) (h h' : HeapState) : Prop :=
  ∀ i, (∀ c ∈ bs, i < c ∨ c + HDR ≤ i) → i < x + HDR ∨ h'.fin x ≤ i → h'.mem i = h.mem i

theorem Local.spares (hl : Local x h h') (hx : x ∈ bs) : Spares bs x h h' := by
  intro i hi hout
  rw [hl.fin] at hout
  have := hi x hx
  exact hl.outside i (by omega)

theorem Spares.after (h2 : Spares bs x h' h'') (h1 : Headers bs h h') : Spares bs x h h'' :=
  fun i hi hout => (h2 i hi hout).trans (h1 i hi)

/-! ## What is allocated -/

/-- The sum of the sizes of the allocated blocks. -/
def allocatedSize (h : HeapState) (bs : List Nat) : Nat :=
  ((bs.filter fun b => h.get .free b = 0).map (h.get .size)).sum

/-- What the block `x` adds to it. -/
def share (h : HeapState) (bs : List Nat) (x : Nat) : Nat :=
  if x ∈ bs ∧ h.get .free x = 0 then h.get .size x else 0

theorem share_live (hx : x ∈ bs ∧ h.get .free x = 0) : share h bs x = h.get .size x := if_pos hx

theorem share_gone (hx : ¬(x ∈ bs ∧ h.get .free x = 0)) : share h bs x = 0 := if_neg hx

/-- `heap_used_now` is that sum. -/
def Accounted (h : HeapState) (bs : List Nat) : Prop := h.used = allocatedSize h bs

theorem allocatedSize_eq (h : HeapState) (bs : List Nat) (x : Nat) : allocatedSize h bs
    = share h bs x + (((bs.filter fun b => h.get .free b = 0).erase x).map (h.get .size)).sum := by
  have hmem : x ∈ bs.filter (fun b => h.get .free b = 0) ↔ x ∈ bs ∧ h.get .free x = 0 := by
    rw [mem_filter, decide_eq_true_eq]
  unfold allocatedSize share
  by_cases hx : x ∈ bs ∧ h.get .free x = 0
  · rw [if_pos hx]
    exact (sum_map_erase _ (hmem.mpr hx)).symm
  · rw [if_neg hx, erase_of_not_mem (mt hmem.mp hx), zero_add]

theorem Keeps.allocatedSize (hk : Keeps x k h bs h' bs') (hnd : bs.Nodup) (hnd' : bs'.Nodup) :
    allocatedSize h' bs' + share h bs x = allocatedSize h bs + share h' bs' x := by
  have hperm : ((bs'.filter fun b => h'.get .free b = 0).erase x).Perm
      ((bs.filter fun b => h.get .free b = 0).erase x) := by
    refine (perm_ext_iff_of_nodup ((hnd'.filter _).erase x) ((hnd.filter _).erase x)).mpr
      fun y => ?_
    rw [(hnd'.filter _).mem_erase_iff, (hnd.filter _).mem_erase_iff, mem_filter, mem_filter,
      decide_eq_true_eq, decide_eq_true_eq]
    exact and_congr_right (hk.live y)
  have hrest : (((bs'.filter fun b => h'.get .free b = 0).erase x).map (h'.get .size)).sum
      = (((bs.filter fun b => h.get .free b = 0).erase x).map (h.get .size)).sum := by
    rw [(hperm.map _).sum_eq]
    refine congrArg List.sum (map_congr_left fun y hy => ?_)
    obtain ⟨hyx, hy⟩ := (hnd.filter _).mem_erase_iff.mp hy
    obtain ⟨hyb, hfy⟩ := mem_filter.mp hy
    exact hk.size y hyb hyx (of_decide_eq_true hfy)
  rw [allocatedSize_eq h' bs' x, allocatedSize_eq h bs x]
  omega

theorem Keeps.resized (hk : Keeps x k h bs h' bs') (hs : Shape h bs) (hs' : Shape h' bs')
    (hx : x ∈ bs ∧ h.get .free x = 0) (hx' : x ∈ bs' ∧ h'.get .free x = 0) :
    Heap.allocatedSize h' bs' + h.get .size x = Heap.allocatedSize h bs + h'.get .size x := by
  have htotal := hk.allocatedSize (dlist_nodup hs.blocks) (dlist_nodup hs'.blocks)
  rw [share_live hx, share_live hx'] at htotal
  exact htotal

/-! ## Splitting a block -/

theorem splitBlock_eq (hle : size ≤ h.get .size x) (hfin : h.fin x < 2 ^ 64) : splitBlock x size h =
      if h.get .size x - size ≤ HDR + 16 then h
      else
        let h1 := flInsert (x + HDR + size) (carve x (x + HDR + size) (h.get .size x - size) size h)
        let n := h1.get .next (x + HDR + size)
        if n ≠ 0 ∧ h1.get .free n ≠ 0 ∧ h1.get .magic n = HEAP_MAGIC_FREE then
          absorb (x + HDR + size) ((flRemove n h1).get .next (x + HDR + size)) (flRemove n h1)
        else h1 := by
  have hsz := get_word_lt h (f := .size) x rfl
  have h1 : (h.get .size x + 2 ^ 64 - size) % 2 ^ 64 = h.get .size x - size := by omega
  have h2 : (x + HDR + size) % 2 ^ 64 = x + HDR + size := by
    unfold fin at hfin
    omega
  unfold splitBlock
  simp only [h1, h2]
  rfl

theorem Shape.next_inj (hs : Shape h bs) {c : Nat} (hb : b ∈ bs) (hc : c ∈ bs)
    (hn : h.get .next b ≠ 0) (he : h.get .next b = h.get .next c) : b = c := by
  have h1 := (hs.next_mem hb hn).2.1
  have h2 := (hs.next_mem hc (he ▸ hn)).2.1
  rw [← h1, he, h2]

theorem Shape.lt_next (hs : Shape h bs) (hb : b ∈ bs) (hn : h.get .next b ≠ 0) :
    b < h.get .next b := by
  rw [(hs.next_mem hb hn).2.2]
  unfold fin HDR
  omega

/-- The block behind an excepted one is no exception if the one behind it is not free. -/
theorem HeapInv.unexcept (hinv : HeapInv U (n :: x :: X) h bs fl) (hx : x ∈ bs)
    (hxn : h.get .next x = n) (hn : n ≠ 0)
    (hm : h.get .next n ≠ 0 → h.get .free (h.get .next n) ≠ 1) : HeapInv U (x :: X) h bs fl := by
  refine { hinv with noAdj := ?_ }
  intro b hb hnz hfb hfn
  by_cases hbn : b = n
  · subst hbn
    exact absurd hfn (hm hnz)
  by_cases hbx : h.get .next b = n
  · have : b = x := hinv.shape.next_inj hb hx hnz (hbx.trans hxn.symm)
    exact .inl (by rw [this]; exact mem_cons_self)
  · rcases hinv.noAdj b hb hnz hfb hfn with h1 | h1
    · exact .inl ((mem_cons.mp h1).resolve_left hbn)
    · exact .inr ((mem_cons.mp h1).resolve_left hbx)

/-- What a call that works on `x` alone leaves of it. -/
structure Resized (x k : Nat) (h : HeapState) (bs : List Nat) (h' : HeapState)
    (bs' : List Nat) : Prop where
  mem : x ∈ bs'
  fits : k ≤ h'.get .size x
  tags : ∀ f, placeFields f = false → h'.get f x = h.get f x
  keeps : Keeps x k h bs h' bs'
  fresh : ∀ c ∈ bs', c ∈ bs ∨ c = h'.get .next x
  headers : Headers (bs ++ bs') h h'

/-- The size of what is split off the block `x`, with the free block behind it. -/
def remainderSize (x size : Nat) (h : HeapState) : Nat :=
  h.get .size x - size - HDR
    + if h.get .next x ≠ 0 ∧ h.get .free (h.get .next x) = 1 then
        HDR + h.get .size (h.get .next x) else 0

/-- **`split_block`** shortens `x` to at least `size` bytes. -/
theorem splitBlock_spec (hinv : HeapInv [x] [x] h bs fl) (hx : x ∈ bs)
    (hle : size ≤ h.get .size x) :
    ∃ bs' fl', HeapInv [x] [x] (splitBlock x size h) bs' fl'
      ∧ Resized x size h bs (splitBlock x size h) bs'
      ∧ (splitBlock x size h).get .size x
        = (if h.get .size x - size ≤ HDR + 16 then h.get .size x else size)
      ∧ (HDR + 16 < h.get .size x - size →
        (splitBlock x size h).get .size (x + HDR + size) = remainderSize x size h) := by
  rw [splitBlock_eq hle (hinv.shape.fin_lt hx)]
  by_cases hrem : h.get .size x - size ≤ HDR + 16
  · rw [if_pos hrem, if_pos hrem]
    exact ⟨bs, fl, hinv, ⟨hx, hle, fun _ _ => rfl, Keeps.refl, fun _ hc => .inl hc, fun _ _ => rfl⟩,
      rfl, fun hlt => absurd hrem (by omega)⟩
  rw [if_neg hrem, if_neg hrem]
  obtain ⟨a, c, rfl⟩ := append_of_mem hx
  have hroom : size + HDR ≤ h.get .size x := by omega
  obtain ⟨hcinv, hc⟩ := hinv.carve hroom
  have hkc := keeps_carved hinv.shape hc hroom
  set new := x + HDR + size with hnew
  set bs1 := a ++ x :: new :: c with hbs1
  have hx1 : x ∈ bs1 := by simp [hbs1]
  have hn1 : new ∈ bs1 := by simp [hbs1]
  have hnx : new ∉ [x] := by
    rw [mem_singleton, hnew]
    unfold HDR
    omega
  obtain ⟨hinv1, hf1⟩ := hcinv.list hn1 hnx hc.newFree
  have hk1 := keeps_links hcinv.shape hf1 hx1 (by rw [hc.size])
  set h0 := carve x new (h.get .size x - size) size h
  set h1 := flInsert new h0
  have hs1 := hinv1.shape
  have hsize1 : h1.get .size x = size := by rw [hf1.fields x hx1 .size rfl, hc.size]
  have hnext1 : h1.get .next x = new := by rw [hf1.fields x hx1 .next rfl, hc.next]
  have htags1 : ∀ f, placeFields f = false → h1.get f x = h.get f x := fun f hf => by
    rw [hf1.fields x hx1 f (place_not_link hf), hc.fields x hx f (place_not_shape hf)]
  have hnew0 : new ≠ 0 := by rw [hnew]; unfold HDR; omega
  have hwrite : Headers bs1 h h1 := by
    have hcarved : Headers bs1 h h0 := fun y hy =>
      hc.bytes y (fun c hc => hy c (mem_behind.mpr (.inr hc))) (hy new hn1)
    exact hcarved.trans hf1.bytes
  have hsizeNew : h1.get .size new = h.get .size x - size - HDR := by
    rw [hf1.fields new hn1 .size rfl, hc.newSize]
  have hnextNew : h1.get .next new = h.get .next x := by
    rw [hf1.fields new hn1 .next rfl, hc.newNext]
  have hbehind : h.get .next x ≠ 0 → ∀ f, f = .free ∨ f = .size →
      h1.get f (h.get .next x) = h.get f (h.get .next x) := by
    intro h0 f hf
    have hmem := (hinv.shape.next_mem hx h0).1
    have hne : h.get .next x ≠ x := (hinv.shape.lt_next hx h0).ne'
    rcases hf with rfl | rfl
    · rw [hf1.fields _ (mem_behind.mpr (.inr hmem)) .free rfl, hc.fields _ hmem .free rfl]
    · rw [hf1.fields _ (mem_behind.mpr (.inr hmem)) .size rfl, hc.sizeOther _ hmem hne]
  set n := h1.get .next new with hn
  by_cases hmerge : n ≠ 0 ∧ h1.get .free n ≠ 0 ∧ h1.get .magic n = HEAP_MAGIC_FREE
  · -- the remainder and the free block behind it become one
    rw [if_pos hmerge]
    obtain ⟨hn0, hfn, -⟩ := hmerge
    have hnb := (hs1.next_mem hn1 hn0).1
    have hfn1 := (hinv1.free_ne_zero hnb).mp hfn
    have hlt1 : new < n := hs1.lt_next hn1 hn0
    have hlt0 : x < new := by rw [hnew]; unfold HDR; omega
    have hnfl : n ∈ new :: fl := hinv1.complete n hnb (by rw [mem_singleton]; omega) hfn1
    obtain ⟨-, hfl⟩ := hinv1.unlist hnfl
    rw [hfl.fields new hn1 .next rfl]
    obtain ⟨hinv2, hm⟩ := hinv1.merge hn1 mem_cons_self hn.symm hnfl
    have hxe : x ∈ bs1.erase n := (mem_erase_of_ne (by omega)).mpr hx1
    have hsize2 : (absorb new n (flRemove n h1)).get .size x = size := by
      rw [hm.sizeOther x hx1 (by omega), hsize1]
    have hnext2 : (absorb new n (flRemove n h1)).get .next x = new := by
      rw [hm.nextOther x hx1 (by omega), hnext1]
    refine ⟨_, _, hinv2.unexcept hxe hnext2 hnew0 ?_, ⟨hxe, hsize2.ge, ?_,
      (hkc.trans hk1).trans (keeps_merged hs1 hm hx1 (by rw [hsize1]) (.inr ?_) hfn), ?_, ?_⟩,
      hsize2, fun _ => ?_⟩
    · -- two free blocks behind the remainder would have been neighbours before
      refine hm.next_not_free hinv1 hnb hfn1 fun y hy => ?_
      simp only [mem_cons, not_mem_nil, or_false] at hy
      omega
    · intro f hf
      rw [hm.frame.fields x hx1 f hf, htags1 f hf]
    · rw [hf1.fields new hn1 .free rfl, hc.newFree]
      decide
    · intro d hd
      rw [hnext2]
      exact (mem_behind.mp (mem_of_mem_erase hd)).symm
    · refine (hwrite.trans hm.frame.bytes).mono fun d hd => mem_append.mpr ?_
      rcases mem_behind.mp hd with rfl | hd
      · exact .inr ((mem_erase_of_ne hlt1.ne).mpr hn1)
      · exact .inl hd
    · have hx0 : h.get .next x ≠ 0 := hnextNew ▸ hn0
      have hfx : h.get .free (h.get .next x) = 1 := by
        rw [← hbehind hx0 .free (.inl rfl), ← hnextNew]
        exact hfn1
      rw [hm.size, hsizeNew, remainderSize, if_pos ⟨hx0, hfx⟩, ← hbehind hx0 .size (.inr rfl),
        ← hnextNew, Nat.add_assoc]
  · rw [if_neg hmerge]
    have hapart : n ≠ 0 → h1.get .free n ≠ 1 := by
      intro hn0 hfn
      have hnb := (hs1.next_mem hn1 hn0).1
      rcases hinv1.flags _ hnb with ⟨-, hmagic⟩ | ⟨h3, -⟩
      · exact hmerge ⟨hn0, (hinv1.free_ne_zero hnb).mpr hfn, hmagic⟩
      · rw [h3] at hfn
        cases hfn
    refine ⟨_, _, hinv1.unexcept hx1 hnext1 hnew0 hapart,
      ⟨hx1, hsize1.ge, htags1, hkc.trans hk1, ?_, ?_⟩, hsize1, fun _ => ?_⟩
    · intro d hd
      rw [hnext1]
      exact (mem_behind.mp hd).symm
    · exact hwrite.mono fun d hd => mem_append_right _ hd
    · rw [hsizeNew, remainderSize, if_neg, Nat.add_zero]
      rintro ⟨hx0, hfx⟩
      rw [← hbehind hx0 .free (.inl rfl), ← hnextNew] at hfx
      exact hapart (hnextNew ▸ hx0) hfx

/-! ## `kmalloc` -/

theorem dseg_sum : ∀ {l : List Nat} {p a q : Nat}, DSeg (h.get .next) (h.get .prev) p a l q 0 →
      (∀ b ∈ l, Tiled h b) → a ≤ h.lim → a + (l.map fun b => HDR + h.get .size b).sum ≤ h.lim := by
  intro l
  induction l with
  | nil => intro p a q _ _ ha; simpa using ha
  | cons b l ih =>
    intro p a q ⟨h1, h2, h3, h4⟩ ht ha
    subst h1
    obtain ⟨t1, t2⟩ := ht a (by simp)
    cases l with
    | nil =>
      unfold fin at t1
      rw [map_singleton, sum_singleton]
      omega
    | cons c l =>
      have hn : h.get .next a = h.fin a := by
        split at t2
        · rw [t2] at h4
          exact absurd h4.1.symm h4.2.1
        · exact t2
      rw [hn] at h4
      have := ih h4 (fun y hy => ht y (by simp [hy])) t1
      unfold fin at this
      rw [map_cons, sum_cons]
      omega

theorem Shape.sum_le (hs : Shape h bs) :
    (bs.map fun b => HDR + h.get .size b).sum ≤ h.capacity := by
  obtain ⟨q, hq⟩ := hs.blocks
  have := dseg_sum hq hs.tile (le_add_right _ _)
  unfold HeapState.lim at this
  omega

/-- There are fewer blocks than bytes, so a walk along a list of blocks ends in time. -/
theorem Shape.length_le (hs : Shape h bs) : bs.length * HDR ≤ h.capacity := by
  have hsum := hs.sum_le
  rw [sum_map_add, map_const', sum_replicate, smul_eq_mul] at hsum
  omega

theorem Shape.allocatedSize_lt (hs : Shape h bs) : allocatedSize h bs < 2 ^ 64 := by
  have hle : allocatedSize h bs ≤ (bs.map (h.get .size)).sum :=
    (filter_sublist.map _).sum_le_sum fun _ _ => zero_le _
  have hsum := hs.sum_le
  have hlim := hs.lim
  rw [sum_map_add] at hsum
  unfold HeapState.lim at hlim
  omega

theorem HeapInv.fl_length (hinv : HeapInv U X h bs fl) : fl.length ≤ h.capacity := by
  have h1 := ((dlist_nodup hinv.freeList).subperm fun b hb => hinv.fl_sub b hb).length_le
  have h2 := hinv.shape.length_le
  unfold HDR at h2
  omega

/-- The walk along the free list ends with null or with a listed block that fits. -/
theorem firstFit_spec (size : Nat) :
    ∀ {l : List Nat} {n p c q : Nat}, DSeg (h.get .freeNext) (h.get .freePrev) p c l q 0 →
      l.length ≤ n → firstFit h size n c = some 0
        ∨ ∃ b ∈ l, firstFit h size n c = some b ∧ size ≤ h.get .size b := by
  intro l
  induction l with
  | nil =>
    rintro n p c q ⟨-, rfl⟩ _
    left
    cases n <;> rfl
  | cons b l ih =>
    rintro n p c q ⟨rfl, h0, -, h4⟩ hn
    obtain ⟨c, rfl⟩ := exists_eq_succ_of_ne_zero h0
    cases n with
    | zero => simp at hn
    | succ n =>
      show (firstFit h size (n + 1) (c + 1) = some 0) ∨ _
      rw [firstFit]
      split
      next hfit => exact .inr ⟨c + 1, mem_cons_self, rfl, hfit.2.2⟩
      next =>
        rcases ih h4 (by simpa using hn) with h5 | ⟨b, hb, h5⟩
        · exact .inl h5
        · exact .inr ⟨b, mem_cons_of_mem _ hb, h5⟩

theorem HeapInv.mono {Y : List Nat} (hinv : HeapInv U X h bs fl) (hXY : ∀ b ∈ X, b ∈ Y) :
    HeapInv U Y h bs fl :=
  { hinv with noAdj := fun b hb hn h1 h2 => (hinv.noAdj b hb hn h1 h2).imp (hXY b) (hXY _) }

theorem putCanary_local (hfin : h.fin x < 2 ^ 64) (hreq : req + 8 ≤ h.get .size x) :
    Local x h (putCanary (x + HDR) req h) := by
  refine local_payload (fun y hy => storeLE_outside ?_) rfl rfl rfl rfl
  unfold fin at hy hfin
  omega

theorem putCanary_get (f : Field) (hfit : x + HDR + req < 2 ^ 64) :
    (putCanary (x + HDR) req h).get f x = h.get f x :=
  get_congr f fun y _ h2 => storeLE_outside (by omega)

theorem putCanary_canary (hfit : p + req < 2 ^ 64) :
    loadLE (putCanary p req h).mem (p + req) 8 = HEAP_CANARY_QWORD := by
  unfold putCanary
  rw [mod_eq_of_lt hfit]
  exact (loadLE_storeLE h.mem (p + req) 8 HEAP_CANARY_QWORD).trans (by decide)

/-- The outcome of a call that gives the caller the block `x` with its first `k` bytes kept. -/
structure Allocated (x k req : Nat) (h : HeapState) (bs : List Nat) (h' : HeapState)
    (bs' fl' : List Nat) : Prop where
  inv : HeapInv [] [] h' bs' fl'
  mem : x ∈ bs'
  free : h'.get .free x = 0
  reqSize : h'.get .reqSize x = req
  keeps : Keeps x k h bs h' bs'
  fresh : ∀ c ∈ bs', c ∈ bs ∨ c = h'.get .next x
  spares : Spares (bs ++ bs') x h h'

theorem tagAlloc_local (cur req caller : Nat) (h : HeapState) :
    Local cur h (tagAlloc cur req caller h) :=
  (((((local_put rfl _).trans (local_put rfl _)).trans (local_put rfl _)).trans
    (local_put rfl _)).trans (local_put rfl _)).trans (local_put rfl _)

theorem tagAlloc_tags (cur req caller : Nat) (h : HeapState) (hreq : req < 2 ^ 64) :
    (tagAlloc cur req caller h).get .free cur = 0
    ∧ (tagAlloc cur req caller h).get .magic cur = HEAP_MAGIC_ALLOC
    ∧ (tagAlloc cur req caller h).get .reqSize cur = req := by
  norm_num at hreq
  refine ⟨?_, ?_, ?_⟩
  · simp [tagAlloc, get_put_field, get_put_self]
  · simp [tagAlloc, get_put_field, get_put_self, Field.width, HEAP_MAGIC_ALLOC]
  · simp [tagAlloc, get_put_field, get_put_self, Field.width, mod_eq_of_lt hreq]

theorem takeBlock_eq (cur size req caller : Nat) (h : HeapState) :
    ∃ r, takeBlock cur size req caller h = (cur + HDR, (putCanary (cur + HDR) req
      (countUsed ((tagAlloc cur req caller (splitBlock cur size (flRemove cur h))).get .size cur)
        (tagAlloc cur req caller (splitBlock cur size (flRemove cur h))))).withRover r) :=
  ⟨_, rfl⟩

theorem tagAlloc_used (cur req caller : Nat) (h : HeapState) :
    (tagAlloc cur req caller h).used = h.used :=
  rfl

theorem countUsed_used (n : Nat) (h : HeapState) :
    (countUsed n h).used = (h.used + n) % 2 ^ 64 := rfl

theorem takeBlock_spec {cur : Nat} (caller : Nat) (hinv : HeapInv [] [] h bs fl) (hcur : cur ∈ fl)
    (hsize : size ≤ h.get .size cur) (hreq : req + 8 ≤ size) (hmin : 16 ≤ size) :
      (takeBlock cur size req caller h).1 = cur + HDR
      ∧ ∃ bs' fl', Allocated cur 0 req h bs (takeBlock cur size req caller h).2 bs' fl'
        ∧ (Accounted h bs → Accounted (takeBlock cur size req caller h).2 bs') := by
  obtain ⟨r, hr⟩ := takeBlock_eq cur size req caller h
  rw [hr]
  refine ⟨rfl, ?_⟩
  have hs := hinv.shape
  have hcb := hinv.fl_sub cur hcur
  obtain ⟨hinv1, hf1⟩ := hinv.unlist hcur
  have hk1 := keeps_links hs hf1 hcb (zero_le _)
  have hsize1 : size ≤ (flRemove cur h).get .size cur := by
    rw [hf1.fields cur hcb .size rfl]
    exact hsize
  obtain ⟨bs2, fl2, hinv2, hr2, -, -⟩ := splitBlock_spec (hinv1.mono (by simp)) hcb hsize1
  set h2 := splitBlock cur size (flRemove cur h) with hh2
  have hfits := hr2.fits
  have hfin := hinv2.shape.fin_lt hr2.mem
  have hfit : cur + HDR + req < 2 ^ 64 := by
    unfold fin at hfin
    omega
  obtain ⟨t1, t2, t3⟩ := tagAlloc_tags cur req caller h2 (by omega)
  have hl3 := tagAlloc_local cur req caller h2
  set h3 := tagAlloc cur req caller h2 with hh3
  have hsz3 : h3.get .size cur = h2.get .size cur := hl3.shape .size rfl
  -- counters, the canary and the rover
  set h4 := countUsed (h3.get .size cur) h3
  have hsame4 : SameHeap h3 h4 := sameHeap_countUsed _ h3
  have hl5 : Local cur h2 (putCanary (cur + HDR) req h4) :=
    (hl3.trans (local_same hsame4)).trans (putCanary_local
      (by rw [fin, hsame4.get, hsz3]; exact hfin) (by rw [hsame4.get, hsz3]; omega))
  set h5 := putCanary (cur + HDR) req h4
  have hg5 : ∀ f, h5.get f cur = h3.get f cur := fun f =>
    (putCanary_get f hfit).trans (hsame4.get f cur)
  set h6 := h5.withRover r
  have hsame6 : SameHeap h5 h6 := sameHeap_withRover r h5
  have hg6 : ∀ f, h6.get f cur = h3.get f cur := fun f => (hsame6.get f cur).trans (hg5 f)
  have hl6 : Local cur h2 h6 := hl5.trans (local_same hsame6)
  have hfree6 : h6.get .free cur = 0 := (hg6 .free).trans t1
  have hreq6 : h6.get .reqSize cur = req := (hg6 .reqSize).trans t3
  have hguard : Guarded h6 cur := by
    unfold Guarded
    rw [hreq6, hg6, hsame6.mem]
    exact ⟨by omega, putCanary_canary hfit, by omega⟩
  have hinv6 :=
    (hinv2.touch hr2.mem hl6 (.inr ⟨hfree6, (hg6 .magic).trans t2⟩)).settle hfree6 hguard
  have hk6 := (hk1.trans (hr2.keeps.mono (zero_le _))).trans
    (keeps_local_zero hinv2.shape hr2.mem hl6)
  have hfresh6 : ∀ d ∈ bs2, d ∈ bs ∨ d = h6.get .next cur := by
    rw [hl6.shape .next rfl]
    exact hr2.fresh
  have hspares6 : Spares (bs ++ bs2) cur h h6 := by
    have hhead : Headers (bs ++ bs2) h h2 :=
      Headers.trans (Headers.mono hf1.bytes fun d hd => mem_append_left _ hd) hr2.headers
    exact (hl6.spares (mem_append_right _ hr2.mem)).after hhead
  refine ⟨bs2, fl2, ⟨hinv6, hr2.mem, hfree6, hreq6, hk6, hfresh6, hspares6⟩, fun ha => ?_⟩
  have hused : h6.used = (h.used + h6.get .size cur) % 2 ^ 64 := by
    have hused3 : h3.used = h.used := by
      rw [hh3, tagAlloc_used, hh2, splitBlock_used, flRemove_used]
    rw [hg6, ← hused3]
    rfl
  have htotal := hk6.allocatedSize (dlist_nodup hs.blocks) (dlist_nodup hinv6.shape.blocks)
  have hlt := hinv6.shape.allocatedSize_lt
  rw [share_gone fun e => hinv.not_listed e.2 hcur, share_live ⟨hr2.mem, hfree6⟩] at htotal
  unfold Accounted at ha
  show h6.used = allocatedSize h6 bs2
  omega

theorem align16_spec (hx : x + 15 < 2 ^ 64) : x ≤ align16 x := by
  unfold align16
  omega

theorem align16_min (hx : x + 8 + 15 < 2 ^ 64) : 16 ≤ align16 (x + 8) := by
  unfold align16
  omega

/-- **`kmalloc`** returns; it returns null and does nothing, or the payload of a block that was
free. -/
theorem kmalloc_spec (caller : Nat) (hinv : HeapInv [] [] h bs fl) (hreq : req + 8 + 15 < 2 ^ 64) :
    kmallocNolock req caller h = some (0, h)
      ∨ ∃ cur h' bs' fl', cur ∈ fl ∧ kmallocNolock req caller h = some (cur + HDR, h')
        ∧ Allocated cur 0 req h bs h' bs' fl' ∧ (Accounted h bs → Accounted h' bs') := by
  unfold kmallocNolock
  by_cases h0 : h.head = 0 ∨ req = 0
  · rw [if_pos h0]
    exact .inl rfl
  rw [if_neg h0]
  obtain ⟨q, hq⟩ := hinv.freeList
  dsimp only
  rcases firstFit_spec (align16 (req + 8)) hq hinv.fl_length with h1 | ⟨b, hb, h1, h2⟩
  · rw [h1]
    exact .inl rfl
  right
  have hb0 : b ≠ 0 := fun e => hinv.shape.ne_zero (e ▸ hinv.fl_sub b hb)
  obtain ⟨c, rfl⟩ := exists_eq_succ_of_ne_zero hb0
  obtain ⟨hp, bs', fl', hall⟩ := takeBlock_spec caller hinv hb h2 (align16_spec hreq)
    (align16_min hreq)
  refine ⟨_, _, bs', fl', hb, ?_, hall⟩
  rw [h1]
  rfl

/-! ## `kfree` -/

theorem HeapInv.of_same (hinv : HeapInv U X h bs fl) (hm : SameHeap h h') :
    HeapInv U X h' bs fl := by
  have hget : h'.get = h.get := funext fun f => funext fun b => hm.get f b
  obtain ⟨hs, h2, h3, h4, h5, h6, h7⟩ := hinv
  refine ⟨hs.congr hm.base hm.capacity hm.head fun b _ f _ => hm.get f b, ?_, ?_, ?_, ?_, ?_, ?_⟩
  · simpa only [Flagged, hget] using h2
  · rw [hget, hm.freeHead]; exact h3
  · simpa only [hget] using h4
  · simpa only [hget] using h5
  · simpa only [hget] using h6
  · simpa only [Guarded, hget, hm.mem] using h7

/-- A block without free neighbours, or one that is no more, is no exception. -/
theorem HeapInv.drop (hinv : HeapInv U (x :: X) h bs fl)
    (hne : ∀ b ∈ bs, h.get .next b ≠ 0 → h.get .free b = 1 →
      h.get .free (h.get .next b) = 1 → b ≠ x ∧ h.get .next b ≠ x) : HeapInv U X h bs fl := by
  refine { hinv with noAdj := ?_ }
  intro b hb hn hfb hfn
  obtain ⟨h1, h2⟩ := hne b hb hn hfb hfn
  exact (hinv.noAdj b hb hn hfb hfn).imp (fun e => (mem_cons.mp e).resolve_left h1)
    (fun e => (mem_cons.mp e).resolve_left h2)

theorem HeapInv.retag (hinv : HeapInv U X h bs fl) (hx : x ∈ bs) (hl : Local x h h')
    (hfree : h.get .free x = 1) (hsame : ∀ f, f = .free ∨ f = .magic ∨ linkFields f = true →
    h'.get f x = h.get f x) :
    HeapInv U X h' bs fl := by
  have hs := hinv.shape
  have hget : ∀ b ∈ bs, ∀ f, f = .free ∨ f = .magic ∨ linkFields f = true →
      h'.get f b = h.get f b := by
    intro b hb f hf
    by_cases hbx : b = x
    · rw [hbx]; exact hsame f hf
    · exact hl.other hs hx hb hbx f
  have hnext : ∀ b ∈ bs, h'.get .next b = h.get .next b := by
    intro b hb
    by_cases hbx : b = x
    · rw [hbx]; exact hl.shape .next rfl
    · exact hl.other hs hx hb hbx _
  refine hinv.regard (hl.congr_shape hs hx) (fun b hb => hget b hb _ (.inl rfl))
    (fun b hb => hget b hb _ (.inr (.inl rfl))) hnext ?_ hinv.listed hinv.complete ?_
  · rw [hl.freeHead]
    exact dlist_congr (fun b hb => hget b (hinv.fl_sub b hb) _ (.inr (.inr rfl)))
      (fun b hb => hget b (hinv.fl_sub b hb) _ (.inr (.inr rfl))) hinv.freeList
  intro b hb hbU hfb
  have hbx : b ≠ x := by
    rintro rfl
    rw [hfree] at hfb
    cases hfb
  exact hl.guarded hs hx hb hbx (hinv.guard b hb hbU hfb)

theorem markFree_local (b : Nat) (h : HeapState) : Local b h (markFree b h) :=
  ((local_put rfl _).trans (local_put rfl _)).trans (local_put rfl _)

theorem markFree_magic (b : Nat) (h : HeapState) :
    (markFree b h).get .magic b = HEAP_MAGIC_FREE := by
  simp [markFree, get_put_field, get_put_self, Field.width, HEAP_MAGIC_FREE]

theorem markFree_free (b : Nat) (h : HeapState) : (markFree b h).get .free b = h.get .free b := by
  simp [markFree, get_put_field]

theorem markFree_link (b : Nat) (h : HeapState) {f : Field} (hf : linkFields f = true) :
    (markFree b h).get f b = h.get f b := by
  cases f with
  | freeNext | freePrev => simp [markFree, get_put_field]
  | _ => cases hf

/-- What the forward half of `coalesce` leaves. -/
structure Joined (x : Nat) (h : HeapState) (bs : List Nat) (h' : HeapState) (bs' fl' : List Nat) :
    Prop where
  inv : HeapInv [x] [x] h' bs' fl'
  mem : x ∈ bs'
  tags : ∀ y ∈ bs, ∀ f, placeFields f = false → h'.get f y = h.get f y
  prev : h'.get .prev x = h.get .prev x
  links : ∀ f, linkFields f = true → h'.get f x = h.get f x
  next : h'.get .next x ≠ 0 → h'.get .free (h'.get .next x) ≠ 1
  keeps : Keeps x 0 h bs h' bs'
  sub : ∀ c ∈ bs', c ∈ bs
  erased : ∀ c ∈ bs, c ∈ bs' ∨ c = h.get .next x
  headers : Headers bs h h'

theorem coalesceNext_spec (hinv : HeapInv [x] [x] h bs fl) (hx : x ∈ bs) :
    ∃ bs' fl', Joined x h bs (coalesceNext x h) bs' fl' := by
  have hs := hinv.shape
  unfold coalesceNext
  by_cases hn : h.get .next x ≠ 0 ∧ h.get .free (h.get .next x) ≠ 0
  · rw [if_pos hn]
    obtain ⟨hn0, hfn⟩ := hn
    have hnb := (hs.next_mem hx hn0).1
    have hlt := hs.lt_next hx hn0
    set h1 := (if h.rover = h.get .next x then h.withRover x else h)
    have hsame1 : SameHeap h h1 := sameHeap_ite (sameHeap_withRover x h)
    have hg1 := hsame1.get
    have hinv1 := hinv.of_same hsame1
    have hk1 : Keeps x 0 h bs h1 bs := Keeps.of_same hsame1
    dsimp only
    rw [hg1]
    set n := h.get .next x with hndef
    have hfn1 : h1.get .free n = 1 := (hinv1.free_ne_zero hnb).mp (by rw [hg1]; exact hfn)
    have hnfl : n ∈ fl := hinv1.complete n hnb (by rw [mem_singleton]; omega) hfn1
    obtain ⟨-, hfl⟩ := hinv1.unlist hnfl
    rw [hfl.fields x hx .next rfl, hg1]
    obtain ⟨hinv2, hm⟩ := hinv1.merge hx mem_cons_self (hg1 .next x) hnfl
    have hxfl : x ∉ fl := fun hin => (hinv1.listed x hin).2.1 mem_cons_self
    refine ⟨bs.erase n, fl.erase n, hinv2, (mem_erase_of_ne (by omega)).mpr hx,
      fun y hy f hf => (hm.frame.fields y hy f hf).trans (hg1 f y), hm.prev.trans (hg1 _ _),
      fun f hf => (hm.links x hx hxfl f hf).trans (hg1 _ _), ?_,
      hk1.trans (keeps_merged hinv1.shape hm hx (zero_le _) (.inl rfl) (by rw [hfn1]; decide)),
      fun c hc => mem_of_mem_erase hc, fun c hc =>
      ?_, (Headers.of_same hsame1).trans hm.frame.bytes⟩
    swap
    · by_cases hcn : c = n
      · exact .inr hcn
      · exact .inl ((mem_erase_of_ne hcn).mpr hc)
    refine hm.next_not_free hinv1 hnb hfn1 fun y hy => ?_
    rw [mem_singleton.mp hy]
    exact hlt
  · rw [if_neg hn]
    refine ⟨bs, fl, hinv, hx, fun y _ f _ => rfl, rfl, fun f _ => rfl, ?_, Keeps.refl,
      fun _ hc => hc, fun _ hc => .inl hc, fun _ _ => rfl⟩
    intro hn0 hfn
    exact hn ⟨hn0, by rw [hfn]; decide⟩

/-- What freeing the block `x` leaves. -/
structure Freed (x : Nat) (h : HeapState) (bs : List Nat) (h' : HeapState) (bs' fl' : List Nat) :
    Prop where
  inv : HeapInv [] [] h' bs' fl'
  gone : ¬ (x ∈ bs' ∧ h'.get .free x = 0)
  keeps : Keeps x 0 h bs h' bs'
  erased : ∀ c ∈ bs, c ∈ bs' ∨ c = x ∨ c = h.get .next x
  headers : Headers bs h h'

/-- Absorbing a block is seen by the owners of the two blocks only. -/
theorem keeps_absorbed {a c : List Nat} (hs : Shape h (a ++ b :: x :: c))
    (habs : Absorbed (a ++ b :: x :: c) b x h h') (hb : h.get .free b ≠ 0) :
    Keeps x 0 h (a ++ b :: x :: c) h' (a ++ b :: c) where
  live y hyx := by
    have hiff : y ∈ a ++ b :: c ↔ y ∈ a ++ b :: x :: c := by
      simp only [mem_append, mem_cons, hyx, false_or]
    rw [hiff]
    exact and_congr_right fun hy => by rw [habs.frame.fields y hy .free rfl]
  reqSize y hy _ _ := habs.frame.fields y hy _ rfl
  size y hy _ hfy := habs.sizeOther y hy fun e => hb (e ▸ hfy)
  bytes y hy _ _ i hi hi' := habs.frame.bytes i (hs.payload_outside hy hi hi')
  body i hi hi' := absurd hi' (by omega)

section

variable (hinv : HeapInv [x] [x] h bs fl) (hx : x ∈ bs)

include hinv hx

/-- Merging backwards: the free block before `x` takes it in and stays on the free list. -/
theorem coalescePrev_spec (hlinks : h.get .freeNext x = 0 ∧ h.get .freePrev x = 0)
    (hp : h.get .prev x ≠ 0) (hfp : h.get .free (h.get .prev x) ≠ 0)
    (hnext : h.get .next x ≠ 0 → h.get .free (h.get .next x) ≠ 1) :
    ∃ bs', Freed x h bs (markFree (h.get .prev x) (absorb (h.get .prev x) x (flRemove x h))) bs' fl
      ∧ ∀ d ∈ bs, d ∈ bs' ∨ d = x := by
  have hs := hinv.shape
  have hxfl : x ∉ fl := fun hin => (hinv.listed x hin).2.1 mem_cons_self
  obtain ⟨hinv1, hf1⟩ := hinv.unlist_idle hx hxfl hlinks.1 hlinks.2
  have hk1 := keeps_links hs hf1 hx (zero_le _)
  obtain ⟨hpb, -⟩ := hs.prev_mem hx hp
  have hfp1 : h.get .free (h.get .prev x) = 1 := (hinv.free_ne_zero hpb).mp hfp
  obtain ⟨a, c, rfl⟩ : ∃ a c, bs = a ++ h.get .prev x :: x :: c := by
    obtain ⟨a, c, rfl⟩ := append_of_mem hx
    rcases (dlist_neighbours hs.blocks).2 with ⟨h1, -⟩ | ⟨-, -, a', rfl⟩
    · exact absurd h1 hp
    · exact ⟨a', c, by simp⟩
  set p := h.get .prev x
  set h1 := flRemove x h
  have hfree1 : ∀ y ∈ a ++ p :: x :: c, h1.get .free y = h.get .free y := fun y hy =>
    hf1.fields y hy _ rfl
  have hm1 : h1.get .next x ≠ 0 → h1.get .free (h1.get .next x) ≠ 1 := by
    rw [hf1.fields x hx .next rfl]
    intro hn0
    rw [hfree1 _ (hs.next_mem hx hn0).1]
    exact hnext hn0
  obtain ⟨hinv2, habs⟩ := hinv1.absorb (.inr hm1)
  have hk2 := keeps_absorbed hinv1.shape habs (by rw [hfree1 p hpb, hfp1]; decide)
  set h2 := absorb p x h1
  have hgone : x ∉ a ++ p :: c := not_mem_of_nodup (dlist_nodup hs.blocks)
  have hinv3 : HeapInv [] [] h2 (a ++ p :: c) fl := by
    refine hinv2.drop fun b hb hn _ _ => ⟨fun e => hgone (e ▸ hb), fun e => hgone ?_⟩
    rw [← e]
    exact (hinv2.shape.next_mem hb hn).1
  have hpb2 : p ∈ a ++ p :: c := by simp
  have hfp2 : h2.get .free p = 1 := by
    rw [habs.frame.fields p hpb .free rfl, hfree1 p hpb, hfp1]
  have hinv4 : HeapInv [] [] (markFree p h2) (a ++ p :: c) fl := by
    refine hinv3.retag hpb2 (markFree_local p h2) hfp2 ?_
    rintro f (rfl | rfl | hf)
    · exact markFree_free p h2
    · rw [markFree_magic, hinv3.magic_free hpb2 hfp2]
    · exact markFree_link p h2 hf
  have hwrite : Headers (a ++ p :: x :: c) h (markFree p h2) := by
    have hput := fun (g : HeapState) (f : Field) (v : Nat) => headers_put (h := g) (f := f) hpb v
    exact ((Headers.trans hf1.bytes habs.frame.bytes).trans (hput _ _ _)).trans
      ((hput _ _ _).trans (hput _ _ _))
  have herased : ∀ d ∈ a ++ p :: x :: c, d ∈ a ++ p :: c ∨ d = x :=
    fun d hd => (mem_behind.mp hd).symm
  refine ⟨_,
    ⟨hinv4, fun hin => hgone hin.1, (hk1.trans hk2).trans ?_,
    fun d hd => (herased d hd).imp id .inl, hwrite⟩, herased⟩
  -- the surviving block is free before and after
  have hk3 := keeps_local_zero hinv3.shape hpb2 (markFree_local p h2)
  have hfp3 : (markFree p h2).get .free p = 1 := (markFree_free p h2).trans hfp2
  have hne : ∀ {g : HeapState} {y : Nat}, g.get .free p = 1 → g.get .free y = 0 → y ≠ p := by
    rintro g y h1 h2 rfl
    rw [h1] at h2
    cases h2
  refine ⟨fun y _ => ?_, fun y hy _ hfy => hk3.reqSize y hy (hne hfp2 hfy) hfy,
    fun y hy _ hfy => hk3.size y hy (hne hfp2 hfy) hfy,
    fun y hy _ hfy => hk3.bytes y hy (hne hfp2 hfy) hfy, fun i h3 h4 => absurd h4 (by omega)⟩
  exact ⟨fun hy => (hk3.live y (hne hfp3 hy.2)).mp hy,
    fun hy => (hk3.live y (hne hfp2 hy.2)).mpr hy⟩

/-- Without a free block on either side, `x` goes on the free list. -/
theorem insertFreed_spec (hfx : h.get .free x = 1)
    (hprev : h.get .prev x ≠ 0 → h.get .free (h.get .prev x) = 0)
    (hnext : h.get .next x ≠ 0 → h.get .free (h.get .next x) ≠ 1) :
    Freed x h bs (flInsert x (markFree x h)) bs (x :: fl) := by
  have hs := hinv.shape
  have hl := markFree_local x h
  have hfx1 : (markFree x h).get .free x = 1 := (markFree_free x h).trans hfx
  have hinv1 := hinv.touch hx hl (.inl ⟨hfx1, markFree_magic x h⟩)
  have hk1 := keeps_local_zero hs hx hl
  obtain ⟨hinv2, hf2⟩ := hinv1.list hx not_mem_nil hfx1
  have hk2 := keeps_links hinv1.shape hf2 hx (zero_le _)
  set h2 := flInsert x (markFree x h)
  have hget : ∀ b ∈ bs, ∀ f, f = .free ∨ f = .next ∨ f = .prev → h2.get f b = h.get f b := by
    intro b hb f hf
    have hlink : linkFields f = false := by rcases hf with rfl | rfl | rfl <;> rfl
    rw [hf2.fields b hb f hlink]
    by_cases hbx : b = x
    · rw [hbx]
      rcases hf with rfl | rfl | rfl
      · exact markFree_free x h
      · exact hl.shape _ rfl
      · exact hl.shape _ rfl
    · exact hl.other hs hx hb hbx f
  have hwrite : Headers bs h h2 := by
    have hput := fun (g : HeapState) (f : Field) (v : Nat) => headers_put (h := g) (f := f) hx v
    exact ((hput _ _ _).trans ((hput _ _ _).trans (hput _ _ _))).trans hf2.bytes
  refine ⟨hinv2.drop fun b hb hn hfb hfn => ⟨?_, ?_⟩, ?_, hk1.trans hk2,
    fun _ hc => .inl hc, hwrite⟩
  · rintro rfl
    rw [hget b hb .next (.inr (.inl rfl))] at hn hfn
    rw [hget _ (hs.next_mem hb hn).1 .free (.inl rfl)] at hfn
    exact hnext hn hfn
  · intro e
    have hnb := hinv2.shape.next_mem hb hn
    have hpx : h.get .prev x = b := by
      rw [← hget x hx .prev (.inr (.inr rfl)), ← e, hnb.2.1]
    have hb0 : b ≠ 0 := fun e0 => hs.ne_zero (e0 ▸ hb)
    have := hprev (by rw [hpx]; exact hb0)
    rw [hpx, ← hget b hb .free (.inl rfl), hfb] at this
    cases this
  · rintro ⟨-, h3⟩
    rw [hget x hx .free (.inl rfl), hfx] at h3
    cases h3

/-- **`coalesce` and the insertion after it**, for a block just marked free. -/
theorem coalesce_spec (hfx : h.get .free x = 1)
    (hlinks : h.get .freeNext x = 0 ∧ h.get .freePrev x = 0) :
    ∃ bs' fl',
        Freed x h bs (if h.get .prev x ≠ 0 ∧ h.get .free (h.get .prev x) ≠ 0 then (coalesce x h).2
        else flInsert (coalesce x h).1 (coalesce x h).2) bs' fl' := by
  obtain ⟨bs1, fl1, hj⟩ := coalesceNext_spec hinv hx
  -- the test before the forward merge and the one after it agree
  have hiff : (coalesceNext x h).get .prev x ≠ 0
      ∧ (coalesceNext x h).get .free ((coalesceNext x h).get .prev x) ≠ 0
      ↔ h.get .prev x ≠ 0 ∧ h.get .free (h.get .prev x) ≠ 0 := by
    rw [hj.prev]
    refine and_congr_right fun hp => ?_
    rw [hj.tags _ (hinv.shape.prev_mem hx hp).1 .free rfl]
  have hlinks1 : (coalesceNext x h).get .freeNext x = 0
      ∧ (coalesceNext x h).get .freePrev x = 0 := by
    rw [hj.links _ rfl, hj.links _ rfl]
    exact hlinks
  unfold coalesce
  dsimp only
  set h1 := coalesceNext x h
  by_cases hp : h.get .prev x ≠ 0 ∧ h.get .free (h.get .prev x) ≠ 0
  · obtain ⟨hp0, hfp⟩ := hiff.mpr hp
    rw [if_pos hp, if_pos ⟨hp0, hfp⟩]
    set h2 := (if h1.rover = x then h1.withRover (h1.get .prev x) else h1)
    have hsame : SameHeap h1 h2 := sameHeap_ite (sameHeap_withRover _ h1)
    have hg := hsame.get
    have hinv2 := hj.inv.of_same hsame
    obtain ⟨bs', hfreed, herased⟩ := coalescePrev_spec hinv2 hj.mem (by rw [hg, hg]; exact hlinks1)
      (by rw [hg]; exact hp0) (by rw [hg, hg]; exact hfp) (by rw [hg, hg]; exact hj.next)
    have hxfl : x ∉ fl1 := fun hin => (hinv2.listed x hin).2.1 mem_cons_self
    obtain ⟨-, hf⟩ := hinv2.unlist_idle hj.mem hxfl (by rw [hg]; exact hlinks1.1)
      (by rw [hg]; exact hlinks1.2)
    rw [hf.fields x hj.mem .prev rfl]
    refine ⟨bs', fl1, hfreed.inv, hfreed.gone,
      hj.keeps.trans ((Keeps.of_same hsame).trans hfreed.keeps), ?_,
      hj.headers.trans ((Headers.of_same hsame).trans (hfreed.headers.mono hj.sub))⟩
    intro c hc
    rcases hj.erased c hc with hc1 | hcn
    · exact (herased c hc1).imp id .inl
    · exact .inr (.inr hcn)
  · rw [if_neg hp, if_neg (fun e => hp (hiff.mp e))]
    have hprev : h1.get .prev x ≠ 0 → h1.get .free (h1.get .prev x) = 0 := fun hp0 => by
      by_contra hfp
      exact hp (hiff.mp ⟨hp0, hfp⟩)
    have hfreed := insertFreed_spec hj.inv hj.mem ((hj.tags x hx .free rfl).trans hfx) hprev hj.next
    refine ⟨bs1, x :: fl1, hfreed.inv, hfreed.gone, hj.keeps.trans hfreed.keeps, fun c hc => ?_,
      hj.headers.trans (hfreed.headers.mono hj.sub)⟩
    exact (hj.erased c hc).imp id .inr

end

theorem Shape.ptr_in_range (hs : Shape h bs) (h1 : h.base ≤ p) (h2 : p < h.lim) :
    heapPtrInRange h p = true := by
  have hb := hs.base
  have hl := hs.lim
  unfold HeapState.lim at h2 hl
  unfold heapPtrInRange
  rw [if_neg (by omega), mod_eq_of_lt hl]
  simp [h1, h2]

/-- The header of an allocated block passes the checks of `kfree` and `krealloc`. -/
theorem HeapInv.checks (hinv : HeapInv [] [] h bs fl) (hx : x ∈ bs) (hfx : h.get .free x = 0) :
    heapPtrInRange h (x + HDR) = true ∧ heapPtrInRange h x = true
    ∧ h.get .magic x = HEAP_MAGIC_ALLOC := by
  have hs := hinv.shape
  have hbase := hs.base_le x hx
  have hfin := (hs.tile x hx).1
  have hg := (hinv.guard x hx not_mem_nil hfx).1
  unfold fin at hfin
  refine ⟨hs.ptr_in_range (by omega) (by omega), hs.ptr_in_range hbase (by omega), ?_⟩
  rcases hinv.flags x hx with ⟨h1, -⟩ | ⟨-, h1⟩
  · rw [hfx] at h1
    cases h1
  · exact h1

theorem tagFreed_tags (blk : Nat) (h : HeapState) :
    (tagFreed blk h).get .free blk = 1 ∧ (tagFreed blk h).get .magic blk = HEAP_MAGIC_FREE
    ∧ (tagFreed blk h).get .freeNext blk = 0 ∧ (tagFreed blk h).get .freePrev blk = 0 := by
  refine ⟨?_, ?_, ?_, ?_⟩
  · simp [tagFreed, get_put_field, get_put_self, Field.width]
  · simp [tagFreed, get_put_field, get_put_self, Field.width, HEAP_MAGIC_FREE]
  · simp [tagFreed, get_put_field, get_put_self]
  · simp [tagFreed, get_put_self]

theorem kfree_spec (hinv : HeapInv [] [] h bs fl) (hx : x ∈ bs) (hfx : h.get .free x = 0) :
    ∃ bs' fl', Freed x h bs (kfreeNolock (x + HDR) h) bs' fl'
      ∧ (Accounted h bs → Accounted (kfreeNolock (x + HDR) h) bs') := by
  have hs := hinv.shape
  obtain ⟨c1, c2, c3⟩ := hinv.checks hx hfx
  unfold kfreeNolock
  rw [if_neg (by unfold HDR; omega), if_neg (by rw [c1]; decide), Nat.add_sub_cancel,
    if_neg (by rw [c2]; decide), if_neg (by rw [c3, hfx]; simp)]
  obtain ⟨t1, t2, t3, t4⟩ := tagFreed_tags x h
  have hl : Local x h (tagFreed x h) :=
    (((local_put rfl _).trans (local_put rfl _)).trans (local_put rfl _)).trans (local_put rfl _)
  set h1 := tagFreed x h
  set h2 := discountUsed (h1.get .size x) h1
  have hsame : SameHeap h1 h2 := sameHeap_discountUsed _ h1
  have hg := hsame.get
  have hl2 : Local x h h2 := hl.trans (local_same hsame)
  have hinv2 := (hinv.except (hinv.not_listed hfx)).touch hx hl2
    (.inl ⟨(hg _ _).trans t1, (hg _ _).trans t2⟩)
  obtain ⟨bs', fl', hfreed⟩ :=
    coalesce_spec hinv2 hx ((hg _ _).trans t1) ⟨(hg _ _).trans t3, (hg _ _).trans t4⟩
  have hk := (keeps_local_zero hs hx hl2).trans hfreed.keeps
  have hused2 : h2.used = if h.get .size x ≤ h.used then h.used - h.get .size x else 0 := by
    rw [← hl.shape .size rfl]
    rfl
  have hinsert : (flInsert (coalesce x h2).1 (coalesce x h2).2).used = h2.used :=
    (flInsert_used _ _).trans (coalesce_used x h2)
  have hused := (used_ite (coalesce_used x h2) hinsert
    (c := h2.get .prev x ≠ 0 ∧ h2.get .free (h2.get .prev x) ≠ 0)).trans hused2
  generalize (if h2.get .prev x ≠ 0 ∧ h2.get .free (h2.get .prev x) ≠ 0 then (coalesce x h2).2
    else flInsert (coalesce x h2).1 (coalesce x h2).2) = h3 at *
  have hwrite : Headers bs h h2 := by
    have hput := fun (g : HeapState) (f : Field) (v : Nat) => headers_put (h := g) (f := f) hx v
    exact (((hput _ _ _).trans ((hput _ _ _).trans (hput _ _ _))).trans (hput _ _ _)).trans
      (Headers.of_same hsame)
  have herased : ∀ c ∈ bs, c ∈ bs' ∨ c = x ∨ c = h.get .next x := by
    rw [← hl2.shape .next rfl]
    exact hfreed.erased
  refine ⟨bs', fl', ⟨hfreed.inv, hfreed.gone, hk, herased, hwrite.trans hfreed.headers⟩,
    fun ha => ?_⟩
  have htotal := hk.allocatedSize (dlist_nodup hs.blocks) (dlist_nodup hfreed.inv.shape.blocks)
  rw [share_live ⟨hx, hfx⟩, share_gone hfreed.gone] at htotal
  unfold Accounted at ha ⊢
  rw [hused, if_pos (by omega)]
  omega

end AxonOS.Heap

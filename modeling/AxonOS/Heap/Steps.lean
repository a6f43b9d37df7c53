import AxonOS.Heap.Invariant

/-! # The steps of the allocator

Every call is a sequence of five kinds of steps, each of which moves `HeapInv U X` to other
exceptions: taking a block off the free list and putting one on it, absorbing a block into its
neighbour, carving a new block out of one, and writing to the tags and the payload of one block.
`Keeps x k` is what a caller other than the owner of `x` sees of a sequence of steps: the same
live blocks with the same contents, and the first `k` bytes of `x`.
-/

namespace AxonOS.Heap

open Lib List

variable {U X bs fl : List Nat} {h h' h'' : HeapState} {x k : Nat}

variable {b n new blk size : Nat} {f : Field} {a c : List Nat}

theorem not_mem_cons_iff : b ∉ n :: U ↔ b ≠ n ∧ b ∉ U := by
  rw [mem_cons, not_or]

theorem shape_not_link (hf : shapeFields f = true) : linkFields f = false := by
  cases f <;> first | rfl | cases hf

section

variable (hinv : HeapInv U X h bs fl) {V gl : List Nat}

include hinv

theorem HeapInv.fl_sub : ∀ b ∈ fl, b ∈ bs :=
  fun b hb => (hinv.listed b hb).1

theorem HeapInv.not_listed (hb : h.get .free b = 0) : b ∉ fl := by
  intro hin
  rw [(hinv.listed b hin).2.2] at hb
  cases hb

/-- `free` is a flag, so the test `b->free` is `b->free = 1`. -/
theorem HeapInv.free_ne_zero (hb : b ∈ bs) : h.get .free b ≠ 0 ↔ h.get .free b = 1 := by
  rcases hinv.flags b hb with ⟨h1, -⟩ | ⟨h1, -⟩ <;> simp [h1]

theorem HeapInv.magic_free (hb : b ∈ bs) (hfb : h.get .free b = 1) :
    h.get .magic b = HEAP_MAGIC_FREE := by
  rcases hinv.flags b hb with ⟨-, h1⟩ | ⟨h1, -⟩
  · exact h1
  · rw [h1] at hfb
    cases hfb

/-! ## Links of the free list -/

/-- The invariant of a heap whose blocks, `free` and `magic` tags are those of another one. -/
theorem HeapInv.regard (hs : Shape h' bs) (hfree : ∀ b ∈ bs, h'.get .free b = h.get .free b)
    (hmagic : ∀ b ∈ bs, h'.get .magic b = h.get .magic b)
    (hnext : ∀ b ∈ bs, h'.get .next b = h.get .next b)
    (hdl : DList (h'.get .freeNext) (h'.get .freePrev) h'.freeHead gl)
    (hlisted : ∀ b ∈ gl, b ∈ bs ∧ b ∉ V ∧ h.get .free b = 1)
    (hcomplete : ∀ b ∈ bs, b ∉ V → h.get .free b = 1 → b ∈ gl)
    (hguard : ∀ b ∈ bs, b ∉ V → h.get .free b = 0 → Guarded h' b) : HeapInv V X h' bs gl := by
  refine ⟨hs, fun b hb => (hinv.flags b hb).congr (hfree b hb) (hmagic b hb), hdl, ?_, ?_, ?_, ?_⟩
  · intro b hb
    obtain ⟨h1, h2, h3⟩ := hlisted b hb
    exact ⟨h1, h2, by rw [hfree b h1]; exact h3⟩
  · intro b hb hbV hfb
    rw [hfree b hb] at hfb
    exact hcomplete b hb hbV hfb
  · intro b hb hn hfb hfn
    rw [hnext b hb] at hn hfn ⊢
    rw [hfree b hb] at hfb
    rw [hfree _ (hinv.shape.next_mem hb hn).1] at hfn
    exact hinv.noAdj b hb hn hfb hfn
  · intro b hb hbV hfb
    rw [hfree b hb] at hfb
    exact hguard b hb hbV hfb

/-- Changing links only, so that they spell another list. -/
theorem HeapInv.relink (hf : Frame linkFields bs h h')
    (hdl : DList (h'.get .freeNext) (h'.get .freePrev) h'.freeHead gl)
    (hlisted : ∀ b ∈ gl, b ∈ bs ∧ b ∉ V ∧ h.get .free b = 1)
    (hcomplete : ∀ b ∈ bs, b ∉ V → h.get .free b = 1 → b ∈ gl)
    (hguard : ∀ b ∈ bs, b ∉ V → h.get .free b = 0 → b ∉ U) :
    HeapInv V X h' bs gl := by
  refine hinv.regard (hinv.shape.frame hf fun f => shape_not_link)
    (fun b hb => hf.fields b hb _ rfl) (fun b hb => hf.fields b hb _ rfl)
    (fun b hb => hf.fields b hb _ rfl) hdl hlisted hcomplete ?_
  intro b hb hbV hfb
  exact guarded_frame hinv.shape hf rfl hb (by rw [hf.fields b hb .size rfl])
    (hinv.guard b hb (hguard b hb hbV hfb) hfb)

/-- The neighbours of a listed block are listed. -/
theorem HeapInv.links_listed (hn : n ∈ fl) : (h.get .freeNext n ≠ 0 → h.get .freeNext n ∈ fl)
    ∧ (h.get .freePrev n ≠ 0 → h.get .freePrev n ∈ fl ∧ h.get .freePrev n ≠ n) := by
  have hfl := hinv.freeList
  have hnd := dlist_nodup hfl
  obtain ⟨a, c, rfl⟩ := append_of_mem hn
  obtain ⟨hnext, hprev⟩ := dlist_neighbours hfl
  refine ⟨fun e => ?_, fun e => ?_⟩
  · rcases hnext with ⟨h1, -⟩ | ⟨-, -, c', hc'⟩
    · exact absurd h1 e
    · rw [hc']; simp
  rcases hprev with ⟨h1, -⟩ | ⟨-, -, a', ha'⟩
  · exact absurd h1 e
  · refine ⟨by rw [ha']; simp, fun e' => ?_⟩
    have hna : n ∈ a := by
      rw [ha', e']
      simp
    exact (nodup_append.mp hnd).2.2 n hna n (by simp) rfl

/-- `fl_remove` of a listed block leaves the links of blocks off the list alone. -/
theorem HeapInv.unlist_links {y : Nat} (hn : n ∈ fl) (hy : y ∈ bs) (hyf : y ∉ fl)
    (hf : linkFields f = true) :
    (flRemove n h).get f y = h.get f y := by
  have hs := hinv.shape
  have hyn : y ≠ n := fun e => hyf (e ▸ hn)
  have hy0 : y ≠ 0 := fun e => hs.ne_zero (e ▸ hy)
  obtain ⟨hnext, hprev⟩ := hinv.links_listed hn
  have hun := flRemove_unlinks hs.spaced (hinv.fl_sub n hn) hs.ne_zero
    (fun e => ⟨hinv.fl_sub _ (hprev e).1, (hprev e).2⟩) (fun e => hinv.fl_sub _ (hnext e))
  cases f with
  | freeNext =>
    rw [hun.freeNext y hy hyn, if_neg]
    rintro rfl
    exact hyf (hprev hy0).1
  | freePrev =>
    rw [hun.freePrev y hy hyn, if_neg]
    rintro rfl
    exact hyf (hnext hy0)
  | _ => cases hf

theorem HeapInv.unlist (hn : n ∈ fl) :
    HeapInv (n :: U) X (flRemove n h) bs (fl.erase n) ∧ Frame linkFields bs h (flRemove n h) := by
  have hs := hinv.shape
  have hnd := dlist_nodup hinv.freeList
  obtain ⟨hdl, hf⟩ := flRemove_listed hs.spaced hs.ne_zero hinv.freeList hinv.fl_sub hn
  refine ⟨hinv.relink hf hdl ?_ ?_ ?_, hf⟩
  · intro b hb
    obtain ⟨h1, h2, h3⟩ := hinv.listed b (mem_of_mem_erase hb)
    have hbn : b ≠ n := by
      rintro rfl
      exact hnd.not_mem_erase hb
    exact ⟨h1, by simp [hbn, h2], h3⟩
  · intro b hb hbU hfb
    obtain ⟨hbn, hbU⟩ := not_mem_cons_iff.mp hbU
    exact (mem_erase_of_ne hbn).mpr (hinv.complete b hb hbU hfb)
  · intro b hb hbU _
    exact (not_mem_cons_iff.mp hbU).2

end

theorem HeapInv.list (hinv : HeapInv (n :: U) X h bs fl) (hn : n ∈ bs) (hnU : n ∉ U)
    (hfree : h.get .free n = 1) :
    HeapInv U X (flInsert n h) bs (n :: fl) ∧ Frame linkFields bs h (flInsert n h) := by
  have hs := hinv.shape
  have hnfl : n ∉ fl := fun hin => (hinv.listed n hin).2.1 mem_cons_self
  obtain ⟨hdl, hf⟩ := flInsert_spec hs.spaced hs.ne_zero hinv.freeList hinv.fl_sub hn hnfl
    fun c hc => hs.lt hc
  refine ⟨hinv.relink hf hdl ?_ ?_ ?_, hf⟩
  · intro b hb
    rcases mem_cons.mp hb with rfl | hb
    · exact ⟨hn, hnU, hfree⟩
    · obtain ⟨h1, h2, h3⟩ := hinv.listed b hb
      exact ⟨h1, (not_mem_cons_iff.mp h2).2, h3⟩
  · intro b hb hbU hfb
    by_cases hbn : b = n
    · rw [hbn]; exact mem_cons_self
    · exact mem_cons_of_mem n (hinv.complete b hb (by simp [hbn, hbU]) hfb)
  · intro b hb hbU hfb
    refine not_mem_cons_iff.mpr ⟨?_, hbU⟩
    rintro rfl
    rw [hfree] at hfb
    cases hfb

/-- `fl_remove` of a block that is not listed and has no links does nothing. -/
theorem HeapInv.unlist_idle (hinv : HeapInv U X h bs fl) (hn : n ∈ bs) (hnfl : n ∉ fl)
    (h1 : h.get .freeNext n = 0) (h2 : h.get .freePrev n = 0) :
    HeapInv U X (flRemove n h) bs fl ∧ Frame linkFields bs h (flRemove n h) := by
  have hs := hinv.shape
  have hun := flRemove_unlinks hs.spaced hn hs.ne_zero (fun e => absurd h2 e) (fun e => absurd h1 e)
  have hn0 : n ≠ 0 := fun e => hs.ne_zero (e ▸ hn)
  have hhead : (flRemove n h).freeHead = h.freeHead := by
    rw [hun.freeHead, if_neg]
    rintro ⟨-, e⟩
    obtain ⟨t, ht⟩ := dlist_head hinv.freeList (by rw [e]; exact hn0)
    exact hnfl (by rw [ht, e]; exact mem_cons_self)
  have hne : ∀ y ∈ fl, y ≠ n ∧ y ≠ 0 := fun y hy =>
    ⟨fun e => hnfl (e ▸ hy), dlist_ne_zero hinv.freeList y hy⟩
  refine ⟨hinv.relink hun.frame ?_ hinv.listed hinv.complete (fun b _ hb _ => hb), hun.frame⟩
  rw [hhead]
  refine dlist_congr (fun y hy => ?_) (fun y hy => ?_) hinv.freeList
  · rw [hun.freeNext y (hinv.fl_sub y hy) (hne y hy).1, h2, if_neg (hne y hy).2]
  · rw [hun.freePrev y (hinv.fl_sub y hy) (hne y hy).1, h1, if_neg (hne y hy).2]

/-! ## Absorbing a block -/

/-- **A block off the free list disappears in the one before it.** -/
theorem HeapInv.absorb (hinv : HeapInv (n :: U) X h (a ++ b :: n :: c) fl)
    (hm : b ∈ X ∨ (h.get .next n ≠ 0 → h.get .free (h.get .next n) ≠ 1)) :
    HeapInv U X (absorb b n h) (a ++ b :: c) fl
      ∧ Absorbed (a ++ b :: n :: c) b n h (absorb b n h) := by
  have hs := hinv.shape
  have hnd := dlist_nodup hs.blocks
  obtain ⟨hs', habs⟩ := absorb_shape hs
  have hnb : n ∈ a ++ b :: n :: c := by simp
  have hsub : ∀ y ∈ a ++ b :: c, y ∈ a ++ b :: n :: c ∧ y ≠ n := fun y => mem_of_behind hnd
  have hfree : ∀ y ∈ a ++ b :: n :: c, (Heap.absorb b n h).get .free y = h.get .free y :=
    fun y hy => habs.frame.fields y hy _ rfl
  refine ⟨⟨hs', ?_, ?_, ?_, ?_, ?_, ?_⟩, habs⟩
  · intro y hy
    have hyb := (hsub y hy).1
    exact (hinv.flags y hyb).congr (hfree y hyb) (habs.frame.fields y hyb .magic rfl)
  · rw [habs.freeHead]
    exact dlist_congr (fun y hy => habs.frame.fields y (hinv.fl_sub y hy) _ rfl)
      (fun y hy => habs.frame.fields y (hinv.fl_sub y hy) _ rfl) hinv.freeList
  · intro y hy
    obtain ⟨h1, h2, h3⟩ := hinv.listed y hy
    obtain ⟨hyn, hyU⟩ := not_mem_cons_iff.mp h2
    exact ⟨(mem_behind.mp h1).resolve_left hyn, hyU, by rw [hfree y h1]; exact h3⟩
  · intro y hy hyU hfy
    obtain ⟨hyb, hyn⟩ := hsub y hy
    rw [hfree y hyb] at hfy
    exact hinv.complete y hyb (not_mem_cons_iff.mpr ⟨hyn, hyU⟩) hfy
  · intro y hy hnz hfy hfn
    obtain ⟨hyb, hyn⟩ := hsub y hy
    rw [hfree y hyb] at hfy
    by_cases he : y = b
    · -- the block after the merged one used to be the one after `n`
      subst he
      rcases hm with hm | hm
      · exact .inl hm
      · rw [habs.next] at hnz hfn
        rw [hfree _ (hs.next_mem hnb hnz).1] at hfn
        exact absurd hfn (hm hnz)
    · rw [habs.nextOther y hyb he] at hnz hfn ⊢
      rw [hfree _ (hs.next_mem hyb hnz).1] at hfn
      exact hinv.noAdj y hyb hnz hfy hfn
  · intro y hy hyU hfy
    obtain ⟨hyb, hyn⟩ := hsub y hy
    rw [hfree y hyb] at hfy
    refine guarded_frame hs habs.frame rfl hyb ?_
      (hinv.guard y hyb (not_mem_cons_iff.mpr ⟨hyn, hyU⟩) hfy)
    by_cases he : y = b
    · rw [he, habs.size]; omega
    · rw [habs.sizeOther y hyb he]

/-- The fields a merge or a split changes. -/
def placeFields (f : Field) : Bool := linkFields f || shapeFields f

theorem place_not_link (hf : placeFields f = false) : linkFields f = false := by
  cases f <;> first | rfl | cases hf

theorem place_not_shape (hf : placeFields f = false) : shapeFields f = false := by
  cases f <;> first | rfl | cases hf

theorem link_not_shape (hf : linkFields f = true) : shapeFields f = false := by
  cases f <;> first | rfl | cases hf

/-- What taking `n` off the free list and absorbing it into `b` does. -/
structure Merged (bs fl : List Nat) (b n : Nat) (h h' : HeapState) : Prop where
  frame : Frame placeFields bs h h'
  size : h'.get .size b = h.get .size b + HDR + h.get .size n
  sizeOther : ∀ y ∈ bs, y ≠ b → h'.get .size y = h.get .size y
  next : h'.get .next b = h.get .next n
  nextOther : ∀ y ∈ bs, y ≠ b → h'.get .next y = h.get .next y
  prev : h'.get .prev b = h.get .prev b
  links : ∀ y ∈ bs, y ∉ fl → ∀ f, linkFields f = true → h'.get f y = h.get f y

/-- The block behind a merged one is not free, where no other exception is near. -/
theorem Merged.next_not_free (hm : Merged bs fl b n h h') (hinv : HeapInv U X h bs fl) (hn : n ∈ bs)
    (hfn : h.get .free n = 1) (hX : ∀ y ∈ X, y < n) :
    h'.get .next b ≠ 0 → h'.get .free (h'.get .next b) ≠ 1 := by
  intro hm0 hfm
  rw [hm.next] at hm0 hfm
  have hnext := hinv.shape.next_mem hn hm0
  rw [hm.frame.fields _ hnext.1 .free rfl] at hfm
  rcases hinv.noAdj n hn hm0 hfn hfm with h1 | h1
  · exact absurd (hX n h1) (Nat.lt_irrefl n)
  · have hlt := hX _ h1
    rw [hnext.2.2, HeapState.fin] at hlt
    omega

/-- **A free block is merged into the one before it**, which may have free neighbours. -/
theorem HeapInv.merge (hinv : HeapInv U X h bs fl) (hb : b ∈ bs) (hbX : b ∈ X)
    (hbn : h.get .next b = n) (hn : n ∈ fl) :
    HeapInv U X (Heap.absorb b n (flRemove n h)) (bs.erase n) (fl.erase n)
      ∧ Merged bs fl b n h (Heap.absorb b n (flRemove n h)) := by
  have hs := hinv.shape
  have hnbs := hinv.fl_sub n hn
  have hn0 : n ≠ 0 := fun e => hs.ne_zero (e ▸ hnbs)
  obtain ⟨h1, hf1⟩ := hinv.unlist hn
  have hlinks := fun y hy hyf f hf => hinv.unlist_links (y := y) hn hy hyf (f := f) hf
  -- `n` stands right behind `b`
  obtain ⟨a, c, rfl⟩ : ∃ a c, bs = a ++ b :: n :: c := by
    obtain ⟨a, c, rfl⟩ := append_of_mem hb
    rcases (dlist_neighbours hs.blocks).1 with ⟨h2, -⟩ | ⟨-, -, c', rfl⟩
    · exact absurd (hbn.symm.trans h2) hn0
    · exact ⟨a, c', by rw [hbn]⟩
  have herase : (a ++ b :: n :: c).erase n = a ++ b :: c := by
    have hnot := not_mem_of_nodup (dlist_nodup hs.blocks)
    have hna : n ∉ a ++ [b] := fun hin => hnot (by
      rw [show a ++ b :: c = (a ++ [b]) ++ c by simp]
      exact mem_append_left c hin)
    rw [show a ++ b :: n :: c = (a ++ [b]) ++ n :: c by simp, erase_append_right _ hna]
    simp
  obtain ⟨h2, habs⟩ := h1.absorb (.inl hbX)
  rw [herase]
  have hsz : ∀ y ∈ a ++ b :: n :: c, (flRemove n h).get .size y = h.get .size y := fun y hy =>
    hf1.fields y hy _ rfl
  refine ⟨h2, (hf1.mono fun f => place_not_link).trans (habs.frame.mono fun f => place_not_shape),
    ?_, ?_, ?_, ?_, ?_, ?_⟩
  · rw [habs.size, hsz b (by simp), hsz n (by simp)]
  · intro y hy hyb; rw [habs.sizeOther y hy hyb, hsz y hy]
  · rw [habs.next, hf1.fields n (by simp) .next rfl]
  · intro y hy hyb; rw [habs.nextOther y hy hyb, hf1.fields y hy .next rfl]
  · rw [habs.prev, hf1.fields b (by simp) .prev rfl]
  · intro y hy hyf f hf
    rw [habs.frame.fields y hy f (link_not_shape hf), hlinks y hy hyf f hf]

/-! ## Writing to one block -/

theorem get_congr {c : Nat} (f : Field) (hm : ∀ y, c ≤ y → y < c + HDR → h'.mem y = h.mem y) :
    h'.get f c = h.get f c := by
  have hfit := f.fits
  unfold HeapState.get
  exact loadLE_congr fun y h1 h2 => hm y (by omega) (by omega)

/-- At most the payload and the tags and links of the block `x` differ. -/
structure Local (x : Nat) (h h' : HeapState) : Prop where
  shape : ∀ f, shapeFields f = true → h'.get f x = h.get f x
  outside : ∀ y, y < x ∨ h.fin x ≤ y → h'.mem y = h.mem y
  base : h'.base = h.base
  capacity : h'.capacity = h.capacity
  head : h'.head = h.head
  freeHead : h'.freeHead = h.freeHead

theorem Local.fin (hl : Local x h h') : h'.fin x = h.fin x := by
  rw [HeapState.fin, hl.shape .size rfl]
  rfl

theorem Local.trans (h1 : Local x h h') (h2 : Local x h' h'') : Local x h h'' where
  shape f hf := (h2.shape f hf).trans (h1.shape f hf)
  outside y hy := (h2.outside y (by rw [h1.fin]; exact hy)).trans (h1.outside y hy)
  base := h2.base.trans h1.base
  capacity := h2.capacity.trans h1.capacity
  head := h2.head.trans h1.head
  freeHead := h2.freeHead.trans h1.freeHead

theorem local_put (hf : shapeFields f = false) (v : Nat) : Local x h (h.put f x v) := by
  refine ⟨fun g hg => get_put_field h x v ?_, fun y hy => put_mem_outside h f v ?_,
    rfl, rfl, rfl, rfl⟩
  · rintro rfl
    rw [hf] at hg
    cases hg
  · unfold HeapState.fin at hy
    omega

theorem local_payload (hm : ∀ y, y < x + HDR ∨ h.fin x ≤ y → h'.mem y = h.mem y)
    (hb : h'.base = h.base) (hc : h'.capacity = h.capacity) (hh : h'.head = h.head)
    (hfh : h'.freeHead = h.freeHead) : Local x h h' := by
  refine ⟨fun f _ => get_congr f fun y _ h2 => hm y (.inl h2), fun y hy => hm y ?_, hb, hc, hh, hfh⟩
  rcases hy with hy | hy
  · left; omega
  · exact .inr hy

theorem local_same (hm : SameHeap h h') : Local x h h' :=
  local_payload (fun y _ => by rw [hm.mem]) hm.base hm.capacity hm.head hm.freeHead

section

variable (hl : Local x h h') (hs : Shape h bs) (hx : x ∈ bs)

include hl hs hx

theorem Local.other {c : Nat} (hc : c ∈ bs) (hcx : c ≠ x) (f : Field) : h'.get f c = h.get f c := by
  refine get_congr f fun y h1 h2 => hl.outside y ?_
  rcases hs.ext hx hc with h3 | h3 | h3
  · exact absurd h3 hcx
  · right; omega
  · unfold HeapState.fin at h3
    left; omega

theorem Local.congr_shape : Shape h' bs := by
  refine hs.congr hl.base hl.capacity hl.head fun b hb f hf => ?_
  by_cases hbx : b = x
  · rw [hbx]; exact hl.shape f hf
  · exact hl.other hs hx hb hbx f

theorem Local.guarded (hb : b ∈ bs) (hbx : b ≠ x) (hg : Guarded h b) : Guarded h' b := by
  exact hg.congr (hl.other hs hx hb hbx _) (by rw [hl.other hs hx hb hbx]) fun y h1 h2 =>
    hl.outside y (hs.payload_apart hx hb hbx h1 h2)

end

/-- **Writing to an excepted block** keeps the invariant as long as its flags agree. -/
theorem HeapInv.touch (hinv : HeapInv (x :: U) (x :: X) h bs fl) (hx : x ∈ bs)
    (hl : Local x h h') (hflag : Flagged h' x) : HeapInv (x :: U) (x :: X) h' bs fl := by
  have hs := hinv.shape
  have hother : ∀ b ∈ bs, b ≠ x → ∀ f, h'.get f b = h.get f b := fun b hb hbx f =>
    hl.other hs hx hb hbx f
  have hflx : ∀ b ∈ fl, b ≠ x := fun b hb => (not_mem_cons_iff.mp (hinv.listed b hb).2.1).1
  refine ⟨hl.congr_shape hs hx, ?_, ?_, ?_, ?_, ?_, ?_⟩
  · intro b hb
    by_cases hbx : b = x
    · rw [hbx]; exact hflag
    · exact (hinv.flags b hb).congr (hother b hb hbx _) (hother b hb hbx _)
  · rw [hl.freeHead]
    exact dlist_congr (fun b hb => hother b (hinv.fl_sub b hb) (hflx b hb) _)
      (fun b hb => hother b (hinv.fl_sub b hb) (hflx b hb) _) hinv.freeList
  · intro b hb
    obtain ⟨h1, h2, h3⟩ := hinv.listed b hb
    exact ⟨h1, h2, by rw [hother b h1 (hflx b hb)]; exact h3⟩
  · intro b hb hbU hfb
    rw [hother b hb (not_mem_cons_iff.mp hbU).1] at hfb
    exact hinv.complete b hb hbU hfb
  · intro b hb hn hfb hfn
    by_cases hbx : b = x
    · exact .inl (by rw [hbx]; exact mem_cons_self)
    · rw [hother b hb hbx] at hn hfb hfn ⊢
      by_cases hnx : h.get .next b = x
      · exact .inr (by rw [hnx]; exact mem_cons_self)
      · rw [hother _ (hs.next_mem hb hn).1 hnx] at hfn
        exact hinv.noAdj b hb hn hfb hfn
  · intro b hb hbU hfb
    have hbx := (not_mem_cons_iff.mp hbU).1
    rw [hother b hb hbx] at hfb
    exact hl.guarded hs hx hb hbx (hinv.guard b hb hbU hfb)

theorem HeapInv.except (hinv : HeapInv U X h bs fl) (hx : x ∉ fl) :
    HeapInv (x :: U) (x :: X) h bs fl where
  __ := hinv
  listed b hb := by
    obtain ⟨h1, h2, h3⟩ := hinv.listed b hb
    exact ⟨h1, not_mem_cons_iff.mpr ⟨fun e => hx (e ▸ hb), h2⟩, h3⟩
  complete b hb hbU hfb := hinv.complete b hb (not_mem_cons_iff.mp hbU).2 hfb
  noAdj b hb hn hfb hfn := by
    rcases hinv.noAdj b hb hn hfb hfn with h1 | h1
    · exact .inl (mem_cons_of_mem x h1)
    · exact .inr (mem_cons_of_mem x h1)
  guard b hb hbU hfb := hinv.guard b hb (not_mem_cons_iff.mp hbU).2 hfb

/-- **Done with an allocated block**: it has to have its canary. -/
theorem HeapInv.settle (hinv : HeapInv (x :: U) (x :: X) h bs fl) (hfree : h.get .free x = 0)
    (hg : Guarded h x) : HeapInv U X h bs fl := by
  have hne : ∀ b, h.get .free b = 1 → b ≠ x := by
    rintro b hb rfl
    rw [hfree] at hb
    cases hb
  refine ⟨hinv.shape, hinv.flags, hinv.freeList, ?_, ?_, ?_, ?_⟩
  · intro b hb
    obtain ⟨h1, h2, h3⟩ := hinv.listed b hb
    exact ⟨h1, (not_mem_cons_iff.mp h2).2, h3⟩
  · intro b hb hbU hfb
    exact hinv.complete b hb (not_mem_cons_iff.mpr ⟨hne b hfb, hbU⟩) hfb
  · intro b hb hn hfb hfn
    have h1 := hinv.noAdj b hb hn hfb hfn
    simpa only [mem_cons, hne b hfb, hne _ hfn, false_or] using h1
  · intro b hb hbU hfb
    by_cases hbx : b = x
    · rw [hbx]; exact hg
    · exact hinv.guard b hb (not_mem_cons_iff.mpr ⟨hbx, hbU⟩) hfb

/-! ## Carving a block out of another one -/

/-- What `split_block` has written before it lists the remainder. -/
def carve (blk new remaining size : Nat) (h : HeapState) : HeapState :=
  let h := initRemainder blk new remaining h
  let h := h.putIf .prev (h.get .next new) new
  let h := h.put .next blk new
  h.put .size blk size

theorem spaced_singleton (b : Nat) : Spaced [b] := by
  intro c hc d hd
  left
  rw [mem_singleton.mp hc, mem_singleton.mp hd]

theorem initRemainder_frame (blk new remaining : Nat) (h : HeapState) :
    Frame (fun _ => true) [new] h (initRemainder blk new remaining h) := by
  have hput : ∀ (g : HeapState) (f : Field) (v : Nat), Frame (fun _ => true) [new] g
    (g.put f new v) :=
    fun g f v => frame_put (spaced_singleton new) mem_cons_self rfl v
  exact ((((((((hput _ _ _).trans (hput _ _ _)).trans (hput _ _ _)).trans (hput _ _ _)).trans
    (hput _ _ _)).trans (hput _ _ _)).trans (hput _ _ _)).trans (hput _ _ _)).trans (hput _ _ _)

theorem initRemainder_apart {remaining c : Nat} (f : Field) (hc : Apart new c) :
    (initRemainder blk new remaining h).get f c = h.get f c := by
  refine get_congr f fun y h1 h2 => (initRemainder_frame blk new remaining h).bytes y fun d hd => ?_
  rw [mem_singleton.mp hd]
  unfold Apart at hc
  omega

theorem initRemainder_tags {r : Nat} (hb : Apart new blk) (hr : r < 2 ^ 64) (hw : blk < 2 ^ 64)
    (hh : initRemainder blk new r h = h') : h'.get .size new = r - HDR ∧ h'.get .free new = 1
      ∧ h'.get .magic new = HEAP_MAGIC_FREE ∧ h'.get .next new = h.get .next blk
      ∧ h'.get .prev new = blk := by
  subst hh
  have hn := get_word_lt h (f := .next) blk rfl
  have hsub : r - HDR < 2 ^ 64 := by omega
  norm_num at hsub hw hn
  refine ⟨?_, ?_, ?_, ?_, ?_⟩
  · simp [initRemainder, get_put_field, get_put_self, Field.width, Nat.mod_eq_of_lt hsub]
  · simp [initRemainder, get_put_field, get_put_self, Field.width]
  · simp [initRemainder, get_put_field, get_put_self, Field.width, HEAP_MAGIC_FREE]
  · simp [initRemainder, get_put_field, get_put_self, get_put_apart _ _ _ _ hb, Field.width,
      Nat.mod_eq_of_lt hn]
  · simp [initRemainder, get_put_field, get_put_self, Field.width, Nat.mod_eq_of_lt hw]

/-- What `carve` does to the headers: `blk` shrinks and `new` appears behind it. -/
structure Carved (bs : List Nat) (blk new size : Nat) (h h' : HeapState) : Prop where
  fields : ∀ y ∈ bs, ∀ f, shapeFields f = false → h'.get f y = h.get f y
  sizeOther : ∀ y ∈ bs, y ≠ blk → h'.get .size y = h.get .size y
  nextOther : ∀ y ∈ bs, y ≠ blk → h'.get .next y = h.get .next y
  newSize : h'.get .size new = h.get .size blk - size - HDR
  size : h'.get .size blk = size
  next : h'.get .next blk = new
  newNext : h'.get .next new = h.get .next blk
  newFree : h'.get .free new = 1
  newMagic : h'.get .magic new = HEAP_MAGIC_FREE
  bytes : ∀ y, (∀ c ∈ bs, y < c ∨ c + HDR ≤ y) → y < new ∨ new + HDR ≤ y → h'.mem y = h.mem y
  freeHead : h'.freeHead = h.freeHead

/-- The place of the new header is apart from all headers there are. -/
theorem Shape.apart_inside (hs : Shape h bs) (hx : x ∈ bs) (h1 : x + HDR ≤ new)
    (h2 : new + HDR ≤ h.fin x) : ∀ y ∈ bs, Apart new y := by
  intro y hy
  rcases hs.ext hx hy with rfl | h3 | h3
  · right; omega
  · left; omega
  · unfold HeapState.fin at h3
    right; omega

theorem spaced_insert (hsp : Spaced (a ++ x :: c)) (hap : ∀ y ∈ a ++ x :: c, Apart new y) :
    Spaced (a ++ x :: new :: c) := by
  intro b hb d hd
  rcases mem_behind.mp hb with rfl | hb' <;> rcases mem_behind.mp hd with rfl | hd'
  · exact .inl rfl
  · exact .inr (hap d hd')
  · exact .inr (Or.symm (hap b hb'))
  · exact hsp b hb' d hd'

/-- **Carving keeps the shape**, with the new block in it. -/
theorem carve_shape (hs : Shape h (a ++ x :: c)) (hrem : size + HDR ≤ h.get .size x) :
    Shape (carve x (x + HDR + size) (h.get .size x - size) size h) (a ++ x :: (x + HDR + size) :: c)
      ∧ Carved (a ++ x :: c) x (x + HDR + size) size h
        (carve x (x + HDR + size) (h.get .size x - size) size h) := by
  set new := x + HDR + size
  set rem := h.get .size x - size
  set bs := a ++ x :: c with hbs
  have hx : x ∈ bs := by simp [hbs]
  have hfinx := hs.fin_lt hx
  have hfin : h.fin x = new + rem := by
    unfold HeapState.fin
    omega
  have hap : ∀ y ∈ bs, Apart new y := hs.apart_inside hx (by omega) (by omega)
  have hapx := hap x hx
  have hx0 : x ≠ 0 := fun e => hs.ne_zero (e ▸ hx)
  have hsp : Spaced (a ++ x :: new :: c) := spaced_insert hs.spaced hap
  have hsub : ∀ y ∈ bs, y ∈ a ++ x :: new :: c ∧ y ≠ new := by
    intro y hy
    refine ⟨mem_behind.mpr (.inr hy), ?_⟩
    rintro rfl
    have := hap new hy
    unfold Apart HDR at this
    omega
  have hx1 := (hsub x hx).1
  have hn1 : new ∈ a ++ x :: new :: c := by simp
  have h0 : 0 ∉ a ++ x :: new :: c := by
    intro hin
    rcases mem_behind.mp hin with h1 | h1
    · omega
    · exact hs.ne_zero h1
  obtain ⟨t1, t2, t3, t4, t5⟩ := initRemainder_tags (r := rem) hapx (by omega) (hs.lt hx) rfl
  have hfr := initRemainder_frame x new rem h
  have hg1 : ∀ y ∈ bs, ∀ g, (initRemainder x new rem h).get g y = h.get g y := fun y hy g =>
    initRemainder_apart g (hap y hy)
  have hcarve : carve x new rem size h = (((initRemainder x new rem h).putIf .prev
      ((initRemainder x new rem h).get .next new) new).put .next x new).put .size x size := rfl
  rw [hcarve, t4]
  set h1 := initRemainder x new rem h
  set m := h.get .next x
  have hmmem : m ≠ 0 → m ∈ a ++ x :: new :: c := fun e => (hsub m (hs.next_mem hx e).1).1
  obtain ⟨hf2, hg2, hhead2⟩ := putIf_spec (F := fun _ => true) (f := .prev) hsp h0
    hmmem rfl (fits_word rfl (show new < 2 ^ 64 by omega))
  set h2 := h1.putIf .prev m new
  have hfitn : Field.Fits .next new := fits_word rfl (by omega)
  have hfits : Field.Fits .size size := fits_word rfl (by omega)
  set h4 := (h2.put .next x new).put .size x size with hh4
  have hget : ∀ y ∈ a ++ x :: new :: c, ∀ g, h4.get g y = if y = x ∧ g = .size then size
      else if y = x ∧ g = .next then new else if y = m ∧ g = .prev then new else h1.get g y := by
    intro y hy g
    rw [get_put_of_spaced hsp hx1 hy g hfits, get_put_of_spaced hsp hx1 hy g hfitn, hg2 y hy]
  have hbase : h4.base = h.base := hf2.base.trans hfr.base
  have hcap : h4.capacity = h.capacity := hf2.capacity.trans hfr.capacity
  have hhd : h4.head = h.head := hf2.head.trans hfr.head
  have hlim : h4.lim = h.lim := by rw [HeapState.lim, hbase, hcap]; rfl
  have hnx : new ≠ x := (hsub x hx).2.symm
  have hmn : m ≠ new := by
    intro e
    by_cases hm0 : m = 0
    · omega
    · exact (hsub m (hs.next_mem hx hm0).1).2 e
  have hsize : ∀ y ∈ bs, h4.get .size y = if y = x then size else h.get .size y := by
    intro y hy
    rw [hget y (hsub y hy).1, if_own, if_other (by decide), if_other (by decide), hg1 y hy]
  have hnext : ∀ y ∈ bs, h4.get .next y = if y = x then new else h.get .next y := by
    intro y hy
    rw [hget y (hsub y hy).1, if_other (by decide), if_own, if_other (by decide), hg1 y hy]
  have hprev : ∀ y ∈ bs, h4.get .prev y = if y = m then new else h.get .prev y := by
    intro y hy
    rw [hget y (hsub y hy).1, if_other (by decide), if_other (by decide), if_own, hg1 y hy]
  have hgnew : ∀ g, h4.get g new = h1.get g new := by
    intro g
    rw [hget new hn1, if_neg (fun e => hnx e.1), if_neg (fun e => hnx e.1),
      if_neg (fun e => hmn e.1.symm)]
  refine ⟨⟨by rw [hbase]; exact hs.base, by rw [hlim]; exact hs.lim,
    by rw [hhd, hbase]; exact hs.head, ?_, ?_⟩, ?_, ?_, ?_, (hgnew _).trans t1, ?_, ?_,
    (hgnew _).trans t4, ?_, ?_, ?_, hhead2⟩
  · rw [hbase]
    exact dlist_insertAfter hs.blocks (by omega) ((hgnew _).trans t4) ((hgnew _).trans t5)
      (fun y hy => hnext y hy) (fun y hy => hprev y hy)
  · -- the two halves of `x` tile what `x` did
    intro y hy
    have htx := hs.tile x hx
    unfold Tiled at htx ⊢
    rw [hlim]
    by_cases hyn : y = new
    · have hfn : h4.fin new = h.fin x := by
        rw [HeapState.fin, hgnew]
        omega
      rw [hyn, hfn, hgnew, t4]
      exact htx
    · have hyb : y ∈ bs := (mem_behind.mp hy).resolve_left hyn
      unfold HeapState.fin
      rw [hsize y hyb, hnext y hyb]
      by_cases he : y = x
      · rw [if_pos he, if_pos he, he]
        have hpos : 0 < HDR := by decide
        exact ⟨by omega, (if_neg (by omega)).symm⟩
      · rw [if_neg he, if_neg he]
        exact hs.tile y hyb
  · intro y hy f hf
    rw [hget y (hsub y hy).1, if_neg (by rintro ⟨-, rfl⟩; cases hf),
      if_neg (by rintro ⟨-, rfl⟩; cases hf), if_neg (by rintro ⟨-, rfl⟩; cases hf), hg1 y hy]
  · intro y hy hyx; rw [hsize y hy, if_neg hyx]
  · intro y hy hyx; rw [hnext y hy, if_neg hyx]
  · rw [hsize x hx, if_pos rfl]
  · rw [hnext x hx, if_pos rfl]
  · exact (hgnew _).trans t2
  · exact (hgnew _).trans t3
  · intro y hy hyn
    have hall : ∀ d ∈ a ++ x :: new :: c, y < d ∨ d + HDR ≤ y := by
      intro d hd
      rcases mem_behind.mp hd with rfl | hd
      · exact hyn
      · exact hy d hd
    calc h4.mem y = (h2.put .next x new).mem y := put_mem_outside _ _ _ (hall x hx1)
      _ = h2.mem y := put_mem_outside _ _ _ (hall x hx1)
      _ = h1.mem y := hf2.bytes y hall
      _ = h.mem y := hfr.bytes y fun d hd => by rw [mem_singleton.mp hd]; exact hyn

/-- **Carving keeps the invariant**; the new block is not listed yet. -/
theorem HeapInv.carve (hinv : HeapInv (x :: U) (x :: X) h (a ++ x :: c) fl)
    (hrem : size + HDR ≤ h.get .size x) :
    HeapInv ((x + HDR + size) :: x :: U) ((x + HDR + size) :: x :: X)
        (Heap.carve x (x + HDR + size) (h.get .size x - size) size h)
        (a ++ x :: (x + HDR + size) :: c) fl
      ∧ Carved (a ++ x :: c) x (x + HDR + size) size h
        (Heap.carve x (x + HDR + size) (h.get .size x - size) size h) := by
  have hs := hinv.shape
  obtain ⟨hs', hc⟩ := carve_shape hs hrem
  set new := x + HDR + size
  set h1 := Heap.carve x new (h.get .size x - size) size h
  have hsub : ∀ y ∈ a ++ x :: new :: c, y ≠ new → y ∈ a ++ x :: c := fun y hy =>
    (mem_behind.mp hy).resolve_left
  have hsup : ∀ y ∈ a ++ x :: c, y ∈ a ++ x :: new :: c ∧ y ≠ new := fun y =>
    mem_of_behind (dlist_nodup hs'.blocks)
  have hfree : ∀ y ∈ a ++ x :: c, h1.get .free y = h.get .free y := fun y hy =>
    hc.fields y hy _ rfl
  refine ⟨⟨hs', ?_, ?_, ?_, ?_, ?_, ?_⟩, hc⟩
  · intro y hy
    by_cases hyn : y = new
    · rw [hyn]
      exact .inl ⟨hc.newFree, hc.newMagic⟩
    · have hyb := hsub y hy hyn
      exact (hinv.flags y hyb).congr (hfree y hyb) (hc.fields y hyb .magic rfl)
  · rw [hc.freeHead]
    exact dlist_congr (fun y hy => hc.fields y (hinv.fl_sub y hy) _ rfl)
      (fun y hy => hc.fields y (hinv.fl_sub y hy) _ rfl) hinv.freeList
  · intro y hy
    obtain ⟨h1, h2, h3⟩ := hinv.listed y hy
    exact ⟨(hsup y h1).1, not_mem_cons_iff.mpr ⟨(hsup y h1).2, h2⟩, by rw [hfree y h1]; exact h3⟩
  · intro y hy hyU hfy
    obtain ⟨hyn, hyU⟩ := not_mem_cons_iff.mp hyU
    rw [hfree y (hsub y hy hyn)] at hfy
    exact hinv.complete y (hsub y hy hyn) hyU hfy
  · intro y hy hnz hfy hfn
    by_cases hyn : y = new
    · exact .inl (by rw [hyn]; exact mem_cons_self)
    by_cases hyx : y = x
    · exact .inl (by rw [hyx]; simp)
    have hyb := hsub y hy hyn
    rw [hc.nextOther y hyb hyx] at hnz hfn ⊢
    rw [hfree _ (hs.next_mem hyb hnz).1] at hfn
    rw [hfree y hyb] at hfy
    rcases hinv.noAdj y hyb hnz hfy hfn with h4 | h4
    · exact .inl (mem_cons_of_mem new h4)
    · exact .inr (mem_cons_of_mem new h4)
  · intro y hy hyU hfy
    obtain ⟨hyn, hyU⟩ := not_mem_cons_iff.mp hyU
    have hyb := hsub y hy hyn
    have hyx := (not_mem_cons_iff.mp hyU).1
    rw [hfree y hyb] at hfy
    refine (hinv.guard y hyb hyU hfy).congr (hc.fields y hyb _ rfl) (by rw [hc.sizeOther y hyb hyx])
      fun i h1 h2 => hc.bytes i (hs.payload_outside hyb h1 h2) ?_
    have hout := hs.payload_apart (by simp) hyb hyx h1 h2
    rw [HeapState.fin] at hout
    omega

end AxonOS.Heap

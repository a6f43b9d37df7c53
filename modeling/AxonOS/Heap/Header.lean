import AxonOS.Heap.Alloc
import AxonOS.Lib.DList

/-! # Headers in memory

Reading a field after a store to a header: the store is seen in its own field and nowhere else
among headers that do not overlap. `Frame F bs h h'` says that `h'` differs from `h` at most
in the fields `F` of the headers `bs`; everything the heap functions do is described by such
frames.
-/

namespace AxonOS.Heap

open Lib List

theorem Field.fits (f : Field) : f.off + f.width ≤ HDR := by cases f <;> decide

variable {f g : Field} {b v : Nat} {α : Type} {p c : Prop} {h' h : HeapState} {u w : α}

theorem Field.disjoint (h : f ≠ g) : g.off + g.width ≤ f.off ∨ f.off + f.width ≤ g.off := by
  cases f <;> cases g <;> first | exact absurd rfl h | decide

/-- The headers at `b` and `c` do not overlap. -/
def Apart (b c : Nat) : Prop := b + HDR ≤ c ∨ c + HDR ≤ b

section Put

variable (h : HeapState) (f g : Field) (b c v : Nat)

theorem get_lt : h.get f b < 256 ^ f.width := by
  unfold HeapState.get
  exact loadLE_lt h.mem f.width (b + f.off)

theorem get_put_self : (h.put f b v).get f b = v % 256 ^ f.width := by
  unfold HeapState.get
  exact loadLE_storeLE h.mem (b + f.off) f.width v

theorem get_put_field {f g : Field} (hfg : f ≠ g) : (h.put f b v).get g b = h.get g b := by
  unfold HeapState.get
  exact loadLE_storeLE_ne (by have := Field.disjoint hfg; omega)

theorem get_put_apart {b c : Nat} (hbc : Apart b c) : (h.put f b v).get g c = h.get g c := by
  have h1 := f.fits
  have h2 := g.fits
  unfold Apart at hbc
  unfold HeapState.get
  exact loadLE_storeLE_ne (by omega)

theorem put_mem_outside {b y : Nat} (hy : y < b ∨ b + HDR ≤ y) : (h.put f b v).mem y = h.mem y :=
  storeLE_outside (by have := f.fits; omega)

theorem get_of_mem {h : HeapState} (hm : h'.mem = h.mem) : h'.get f b = h.get f b := by
  unfold HeapState.get
  rw [hm]

@[simp] theorem get_withFreeHead (p : Nat) : (h.withFreeHead p).get f b = h.get f b :=
  get_of_mem f b rfl

@[simp] theorem put_base : (h.put f b v).base = h.base := rfl
@[simp] theorem put_capacity : (h.put f b v).capacity = h.capacity := rfl

end Put

/-- A value fits a field. -/
def Field.Fits (f : Field) (v : Nat) : Prop := v < 256 ^ f.width

theorem fits_word (hf : f.width = 8) (hv : v < 2 ^ 64) : f.Fits v := by
  unfold Field.Fits
  rw [hf]
  norm_num
  exact hv

theorem get_word_lt (h : HeapState) (b : Nat) (hf : f.width = 8) : h.get f b < 2 ^ 64 := by
  have := get_lt h f b
  rw [hf] at this
  norm_num at this
  exact this

theorem get_put_fits (hv : f.Fits v) : (h.put f b v).get f b = v := by
  rw [get_put_self]
  exact Nat.mod_eq_of_lt hv

/-- Headers that pairwise do not overlap. -/
def Spaced (bs : List Nat) : Prop := ∀ b ∈ bs, ∀ c ∈ bs, c = b ∨ Apart b c

/-- A field of one of several spaced headers after a store to one of them. -/
theorem get_put_of_spaced {bs : List Nat} (hsp : Spaced bs) {c : Nat} (hb : b ∈ bs) (hc : c ∈ bs)
    (g : Field) (hv : f.Fits v) : (h.put f b v).get g c = if c = b ∧ g = f then v
    else h.get g c := by
  rcases hsp b hb c hc with rfl | hapart
  · by_cases hg : g = f
    · subst hg; rw [if_pos ⟨rfl, rfl⟩, get_put_fits hv]
    · rw [if_neg (fun e => hg e.2), get_put_field h c v (fun e => hg e.symm)]
  · rw [get_put_apart h f g v hapart, if_neg]
    rintro ⟨rfl, -⟩
    unfold Apart HDR at hapart
    omega

/-- The test above, for the field of the store and for another one. -/
theorem if_own [Decidable p] : (if p ∧ f = f then u else w) = if p then u else w := by
  simp only [and_true]

theorem if_other [Decidable p] (hg : g ≠ f) : (if p ∧ g = f then u else w) = w :=
  if_neg fun e => hg e.2

/-! ## Frames -/

/-- At most the counters and the rover differ. -/
structure SameHeap (h h' : HeapState) : Prop where
  mem : h'.mem = h.mem
  base : h'.base = h.base
  capacity : h'.capacity = h.capacity
  head : h'.head = h.head
  freeHead : h'.freeHead = h.freeHead

theorem SameHeap.get (hm : SameHeap h h') (f : Field) (b : Nat) : h'.get f b = h.get f b :=
  get_of_mem f b hm.mem

theorem sameHeap_countUsed (n : Nat) (h : HeapState) : SameHeap h (countUsed n h) :=
  ⟨rfl, rfl, rfl, rfl, rfl⟩

theorem sameHeap_discountUsed (n : Nat) (h : HeapState) : SameHeap h (discountUsed n h) :=
  ⟨rfl, rfl, rfl, rfl, rfl⟩

theorem sameHeap_withRover (p : Nat) (h : HeapState) : SameHeap h (h.withRover p) :=
  ⟨rfl, rfl, rfl, rfl, rfl⟩

theorem sameHeap_ite [Decidable c] (hm : SameHeap h h') : SameHeap h (if c then h' else h) := by
  split
  · exact hm
  · exact ⟨rfl, rfl, rfl, rfl, rfl⟩

/-- At most the fields `F` of the headers `bs` differ. -/
structure Frame (F : Field → Bool) (bs : List Nat) (h h' : HeapState) : Prop where
  fields : ∀ c ∈ bs, ∀ f, F f = false → h'.get f c = h.get f c
  bytes : ∀ y, (∀ c ∈ bs, y < c ∨ c + HDR ≤ y) → h'.mem y = h.mem y
  base : h'.base = h.base
  capacity : h'.capacity = h.capacity
  head : h'.head = h.head

variable {F : Field → Bool} {bs fl : List Nat} {h h' h'' : HeapState}

theorem Frame.refl : Frame F bs h h := ⟨fun _ _ _ _ => rfl, fun _ _ => rfl, rfl, rfl, rfl⟩

theorem Frame.trans (h1 : Frame F bs h h') (h2 : Frame F bs h' h'') : Frame F bs h h'' where
  fields c hc f hf := (h2.fields c hc f hf).trans (h1.fields c hc f hf)
  bytes y hy := (h2.bytes y hy).trans (h1.bytes y hy)
  base := h2.base.trans h1.base
  capacity := h2.capacity.trans h1.capacity
  head := h2.head.trans h1.head

/-- At most headers of the blocks `bs` are written. -/
def Headers (bs : List Nat) (h h' : HeapState) : Prop :=
  ∀ y, (∀ c ∈ bs, y < c ∨ c + HDR ≤ y) → h'.mem y = h.mem y

theorem Headers.trans (h1 : Headers bs h h') (h2 : Headers bs h' h'') : Headers bs h h'' :=
  fun y hy => (h2 y hy).trans (h1 y hy)

theorem Headers.mono {bs' : List Nat} (h1 : Headers bs h h') (hsub : ∀ c ∈ bs, c ∈ bs') :
    Headers bs' h h' :=
  fun y hy => h1 y fun c hc => hy c (hsub c hc)

theorem Headers.of_same (hm : SameHeap h h') : Headers bs h h' := fun y _ => by rw [hm.mem]

theorem headers_put (hb : b ∈ bs) (v : Nat) :
    Headers bs h (h.put f b v) := fun _ hy => put_mem_outside h f v (hy b hb)

/-- A frame may be widened to more fields and, for other headers, to nothing. -/
theorem Frame.mono {G : Field → Bool} (h1 : Frame F bs h h')
    (hFG : ∀ f, G f = false → F f = false) :
    Frame G bs h h' :=
  { h1 with fields := fun c hc f hf => h1.fields c hc f (hFG f hf) }

theorem frame_put (hsp : Spaced bs) (hb : b ∈ bs) (hf : F f = true) (v : Nat) :
    Frame F bs h (h.put f b v) := by
  refine ⟨fun c hc g hg => ?_, fun y hy => put_mem_outside h f v (hy b hb), rfl, rfl, rfl⟩
  have hfg : f ≠ g := by
    rintro rfl
    rw [hf] at hg
    cases hg
  rcases hsp b hb c hc with rfl | hapart
  · exact get_put_field h c v hfg
  · exact get_put_apart h f g v hapart

/-- A frame only speaks about memory and the static variables it names. -/
theorem Frame.of_mem (hm : h'.mem = h.mem) (hb : h'.base = h.base)
    (hc : h'.capacity = h.capacity) (hh : h'.head = h.head) : Frame F bs h h' :=
  ⟨fun c _ f _ => get_of_mem f c hm, fun y _ => by rw [hm], hb, hc, hh⟩

/-- `if (p) p->f = v` for a `p` that is null or one of the headers. -/
theorem putIf_spec (hsp : Spaced bs) (h0 : 0 ∉ bs) {p : Nat} (hp : p ≠ 0 → p ∈ bs) (hf : F f = true)
    (hv : f.Fits v) : Frame F bs h (h.putIf f p v)
    ∧ (∀ x ∈ bs, ∀ g, (h.putIf f p v).get g x = if x = p ∧ g = f then v else h.get g x)
    ∧ (h.putIf f p v).freeHead = h.freeHead := by
  unfold HeapState.putIf
  by_cases hp0 : p = 0
  · rw [if_pos hp0]
    refine ⟨Frame.refl, fun x hx g => ?_, rfl⟩
    rw [if_neg]
    rintro ⟨e, -⟩
    exact h0 ((e.trans hp0) ▸ hx)
  · rw [if_neg hp0]
    exact ⟨frame_put hsp (hp hp0) hf v, fun x hx g => get_put_of_spaced hsp (hp hp0) hx g hv, rfl⟩

/-! The counter changes in `countUsed` and `discountUsed` alone. -/

theorem used_ite [Decidable c] {h1 h2 : HeapState} {u : Nat} (e1 : h1.used = u) (e2 : h2.used = u) :
    (if c then h1 else h2).used = u := by
  split
  · exact e1
  · exact e2

theorem putIf_used (h : HeapState) (f : Field) (p v : Nat) : (h.putIf f p v).used = h.used :=
  used_ite rfl rfl

theorem flRemove_used (b : Nat) (h : HeapState) : (flRemove b h).used = h.used :=
  used_ite rfl ((putIf_used _ _ _ _).trans (used_ite rfl (used_ite rfl rfl)))

theorem flInsert_used (b : Nat) (h : HeapState) : (flInsert b h).used = h.used :=
  used_ite rfl (putIf_used _ _ _ _)

theorem absorb_used (b n : Nat) (h : HeapState) : (absorb b n h).used = h.used := putIf_used _ _ _ _

theorem splitBlock_used (b n : Nat) (h : HeapState) : (splitBlock b n h).used = h.used := by
  refine used_ite rfl (used_ite ?_ ?_)
  · rw [absorb_used, flRemove_used, flInsert_used]
    exact putIf_used _ _ _ _
  · rw [flInsert_used]
    exact putIf_used _ _ _ _

theorem coalesceNext_used (b : Nat) (h : HeapState) : (coalesceNext b h).used = h.used := by
  refine used_ite ?_ rfl
  rw [absorb_used, flRemove_used]
  exact used_ite rfl rfl

theorem coalesce_used (b : Nat) (h : HeapState) : (coalesce b h).2.used = h.used := by
  unfold coalesce
  rw [apply_ite Prod.snd]
  refine used_ite ?_ (coalesceNext_used b h)
  refine (absorb_used _ _ _).trans ?_
  rw [flRemove_used]
  exact used_ite (coalesceNext_used b h) (coalesceNext_used b h)

/-- The links of the free list. -/
def linkFields : Field → Bool
  | .freeNext => true
  | .freePrev => true
  | _ => false

/-- The fields that describe the address-ordered list. -/
def shapeFields : Field → Bool
  | .size => true
  | .next => true
  | .prev => true
  | _ => false

/-! ## The free list -/

/-- What `fl_remove` does to the links of blocks other than its argument. -/
structure Unlinked (bs : List Nat) (b : Nat) (h h' : HeapState) : Prop where
  frame : Frame linkFields bs h h'
  freeNext : ∀ x ∈ bs, x ≠ b →
    h'.get .freeNext x = if x = h.get .freePrev b then h.get .freeNext b else h.get .freeNext x
  freePrev : ∀ x ∈ bs, x ≠ b →
    h'.get .freePrev x = if x = h.get .freeNext b then h.get .freePrev b else h.get .freePrev x
  freeHead : h'.freeHead = if h.get .freePrev b = 0
      ∧ h.freeHead = b then h.get .freeNext b else h.freeHead

theorem unlinkForward_spec (hsp : Spaced bs) (h0 : 0 ∉ bs)
    (hp : h.get .freePrev b ≠ 0 → h.get .freePrev b ∈ bs) :
    Frame linkFields bs h (unlinkForward b h)
    ∧ (∀ x ∈ bs, ∀ g, (unlinkForward b h).get g x
        = if x = h.get .freePrev b ∧ g = .freeNext then h.get .freeNext b else h.get g x)
    ∧ (unlinkForward b h).freeHead
        = (if h.get .freePrev b = 0 ∧ h.freeHead = b then h.get .freeNext b else h.freeHead) := by
  unfold unlinkForward
  by_cases hp0 : h.get .freePrev b = 0
  · rw [if_neg (fun e => e hp0)]
    have hnot : ∀ x ∈ bs, ∀ g, ¬ (x = h.get .freePrev b ∧ g = Field.freeNext) := fun x hx g e =>
      h0 ((e.1.trans hp0) ▸ hx)
    by_cases hh : h.freeHead = b
    · rw [if_pos hh, if_pos ⟨hp0, hh⟩]
      refine ⟨Frame.of_mem rfl rfl rfl rfl, fun x hx g => ?_, rfl⟩
      rw [if_neg (hnot x hx g), get_withFreeHead]
    · rw [if_neg hh, if_neg (fun e => hh e.2)]
      exact ⟨Frame.refl, fun x hx g => by rw [if_neg (hnot x hx g)], rfl⟩
  · rw [if_pos hp0, if_neg (fun e => hp0 e.1)]
    exact ⟨frame_put hsp (hp hp0) rfl _, fun x hx g =>
      get_put_of_spaced hsp (hp hp0) hx g (fits_word rfl (get_word_lt h b rfl)), rfl⟩

theorem flRemove_unlinks (hsp : Spaced bs) (hb : b ∈ bs) (h0 : 0 ∉ bs)
    (hp : h.get .freePrev b ≠ 0 → h.get .freePrev b ∈ bs ∧ h.get .freePrev b ≠ b)
    (hn : h.get .freeNext b ≠ 0 → h.get .freeNext b ∈ bs) : Unlinked bs b h (flRemove b h) := by
  have hb0 : b ≠ 0 := fun e => h0 (e ▸ hb)
  obtain ⟨hf1, hg1, hhead1⟩ := unlinkForward_spec hsp h0 fun e => (hp e).1
  unfold flRemove
  rw [if_neg hb0]
  dsimp only
  have hbn : (unlinkForward b h).get .freeNext b = h.get .freeNext b := by
    rw [hg1 b hb, if_neg]
    rintro ⟨e, -⟩
    exact (hp (fun e0 => hb0 (e.trans e0))).2 e.symm
  have hbp : (unlinkForward b h).get .freePrev b = h.get .freePrev b := by
    rw [hg1 b hb, if_other (by decide)]
  rw [hbn, hbp]
  obtain ⟨hf2, hg2, hhead2⟩ := putIf_spec (F := linkFields)
    (f := .freePrev) hsp h0 hn rfl (fits_word rfl (get_word_lt h (f := .freePrev) b rfl))
  set h2 := (unlinkForward b h).putIf .freePrev (h.get .freeNext b) (h.get .freePrev b)
  have hz : ∀ f : Field, f.Fits 0 := fun f => Nat.pos_of_ne_zero (by positivity)
  have hlast : ∀ x ∈ bs, x ≠ b → ∀ g, ((h2.put .freeNext b 0).put .freePrev b 0).get g x
      = h2.get g x := by
    intro x hx hxb g
    rw [get_put_of_spaced hsp hb hx g (hz _), if_neg (fun e => hxb e.1),
      get_put_of_spaced hsp hb hx g (hz _), if_neg (fun e => hxb e.1)]
  refine ⟨hf1.trans (hf2.trans ((frame_put hsp hb rfl 0).trans (frame_put hsp hb rfl 0))),
    fun x hx hxb => ?_, fun x hx hxb => ?_, hhead2.trans hhead1⟩
  · rw [hlast x hx hxb, hg2 x hx, if_other (by decide), hg1 x hx, if_own]
  · rw [hlast x hx hxb, hg2 x hx, if_own, hg1 x hx, if_other (by decide)]

/-- **`fl_remove` of a listed block** takes it off the list and changes links only. -/
theorem flRemove_listed (hsp : Spaced bs) (h0 : 0 ∉ bs)
    (hfl : DList (h.get .freeNext) (h.get .freePrev) h.freeHead fl)
    (hsub : ∀ b ∈ fl, b ∈ bs) (hb : b ∈ fl) :
    DList ((flRemove b h).get .freeNext) ((flRemove b h).get .freePrev)
      (flRemove b h).freeHead (fl.erase b)
      ∧ Frame linkFields bs h (flRemove b h) := by
  obtain ⟨a, c, rfl⟩ := append_of_mem hb
  have hnd := dlist_nodup hfl
  obtain ⟨-, hndbc, hdisj⟩ := nodup_append.mp hnd
  have hba : b ∉ a := fun hin => hdisj b hin b (by simp) rfl
  have hbc : b ∉ c := (nodup_cons.mp hndbc).1
  obtain ⟨hnext, hprev⟩ := dlist_neighbours hfl
  have hun : Unlinked bs b h (flRemove b h) := by
    refine flRemove_unlinks hsp (hsub b hb) h0 (fun hp => ?_) fun hn => ?_
    · rcases hprev with ⟨h1, -⟩ | ⟨-, -, a', rfl⟩
      · exact absurd h1 hp
      · exact ⟨hsub _ (by simp), fun e => hba (by simp [e])⟩
    · rcases hnext with ⟨h1, -⟩ | ⟨-, -, c', rfl⟩
      · exact absurd h1 hn
      · exact hsub _ (by simp)
  refine ⟨?_, hun.frame⟩
  rw [erase_append_right _ hba, erase_cons_head]
  have hmem : ∀ x ∈ a ++ c, x ∈ bs ∧ x ≠ b := by
    intro x hx
    rcases mem_append.mp hx with hx | hx
    · exact ⟨hsub x (by simp [hx]), fun e => hba (e ▸ hx)⟩
    · exact ⟨hsub x (by simp [hx]), fun e => hbc (e ▸ hx)⟩
  have hhead : (flRemove b h).freeHead = if h.get .freePrev b = 0 then h.get .freeNext b
      else h.freeHead := by
    rw [hun.freeHead]
    by_cases hp0 : h.get .freePrev b = 0
    · -- without a previous block it is the head of the list
      rw [if_pos hp0]
      rcases hprev with ⟨-, rfl⟩ | ⟨h1, -⟩
      · obtain ⟨q, hq⟩ := hfl
        rw [if_pos ⟨hp0, hq.1⟩]
      · exact absurd hp0 h1
    · rw [if_neg hp0, if_neg (fun e => hp0 e.1)]
  rw [hhead]
  exact dlist_remove hfl (fun x hx => hun.freeNext x (hmem x hx).1 (hmem x hx).2)
    (fun x hx => hun.freePrev x (hmem x hx).1 (hmem x hx).2)

theorem flInsert_eq (hb : b ≠ 0) :
    flInsert b h = (((h.put .freePrev b 0).put .freeNext b h.freeHead).putIf .freePrev h.freeHead
      b).withFreeHead b :=
  if_neg hb

/-- **`fl_insert`** puts the block in front and changes links only. -/
theorem flInsert_spec (hsp : Spaced bs) (h0 : 0 ∉ bs)
    (hfl : DList (h.get .freeNext) (h.get .freePrev) h.freeHead fl) (hsub : ∀ b ∈ fl, b ∈ bs)
    (hb : b ∈ bs) (hbf : b ∉ fl) (hw : ∀ c ∈ bs, c < 2 ^ 64) :
    DList ((flInsert b h).get .freeNext) ((flInsert b h).get .freePrev)
      (flInsert b h).freeHead (b :: fl)
      ∧ Frame linkFields bs h (flInsert b h) := by
  have hb0 : b ≠ 0 := fun e => h0 (e ▸ hb)
  have hheadw : h.freeHead < 2 ^ 64 := by
    by_cases hh : h.freeHead = 0
    · omega
    · obtain ⟨t, rfl⟩ := dlist_head hfl hh
      exact hw _ (hsub _ (by simp))
  have hz : ∀ f : Field, f.Fits 0 := fun f => Nat.pos_of_ne_zero (by positivity)
  rw [flInsert_eq hb0]
  set h1 := (h.put .freePrev b 0).put .freeNext b h.freeHead with hh1
  have hf1 : Frame linkFields bs h h1 := (frame_put hsp hb rfl 0).trans (frame_put hsp hb rfl _)
  have hg1 : ∀ x ∈ bs, x ≠ b → ∀ g, h1.get g x = h.get g x := by
    intro x hx hxb g
    rw [hh1, get_put_of_spaced hsp hb hx g (fits_word rfl hheadw), if_neg (fun e => hxb e.1),
      get_put_of_spaced hsp hb hx g (hz _), if_neg (fun e => hxb e.1)]
  have hn1 : h1.get .freeNext b = h.freeHead := get_put_fits (fits_word rfl hheadw)
  have hp1 : h1.get .freePrev b = 0 := by
    rw [get_put_field _ _ _ (by decide), get_put_fits (hz _)]
  have hne : ∀ x ∈ fl, x ≠ b := fun x hx e => hbf (e ▸ hx)
  have hheadmem : h.freeHead ≠ 0 → h.freeHead ∈ fl := by
    intro hh
    obtain ⟨t, ht⟩ := dlist_head hfl hh
    rw [ht]
    exact mem_cons_self
  have hhb : h.freeHead ≠ b := by
    intro e
    exact hbf (e ▸ hheadmem (fun e0 => hb0 (e.symm.trans e0)))
  obtain ⟨hf2, hg2, -⟩ := putIf_spec (F := linkFields)
    (f := .freePrev) hsp h0 (fun e => hsub _ (hheadmem e)) rfl (fits_word rfl (hw b hb))
  refine ⟨?_, (hf1.trans hf2).trans (Frame.of_mem rfl rfl rfl rfl)⟩
  refine dlist_push (x := b) hfl hb0 ?_ ?_ ?_ ?_
  · rw [get_withFreeHead, hg2 b hb, if_neg (fun e => hhb e.1.symm), hn1]
  · rw [get_withFreeHead, hg2 b hb, if_neg (fun e => hhb e.1.symm), hp1]
  · intro x hx
    rw [get_withFreeHead, hg2 x (hsub x hx), if_other (by decide), hg1 x (hsub x hx) (hne x hx)]
  · intro x hx
    rw [get_withFreeHead, hg2 x (hsub x hx), if_own, hg1 x (hsub x hx) (hne x hx)]

end AxonOS.Heap

import AxonOS.Heap.Header

/-! # The invariant of the heap

`Shape` is the address-ordered list: it starts at the base, every block's `next` is its own
end, and the last block ends at the end of the region. `HeapInv U X` adds the free list, the
flags, the canaries and that no two neighbours are free, with exceptions for work in progress:
the blocks `U` are not on the free list and need no canary, and the blocks `X` may have free
neighbours. Between two calls there are no exceptions (`HeapInv [] []`).
-/

namespace AxonOS.Heap

open Lib List HeapState

def HeapState.lim (h : HeapState) : Nat := h.base + h.capacity

def HeapState.fin (h : HeapState) (b : Nat) : Nat := b + HDR + h.get .size b

/-- A block ends where the next one starts, or at the end of the region. -/
def Tiled (h : HeapState) (b : Nat) : Prop :=
  h.fin b ≤ h.lim ∧ h.get .next b = if h.fin b = h.lim then 0 else h.fin b

structure Shape (h : HeapState) (bs : List Nat) : Prop where
  base : 0 < h.base
  lim : h.lim < 2 ^ 64
  head : h.head = h.base
  blocks : DList (h.get .next) (h.get .prev) h.base bs
  tile : ∀ b ∈ bs, Tiled h b

/-- An allocated block has room for what was asked and its canary behind it, and at least 16
bytes. -/
def Guarded (h : HeapState) (b : Nat) : Prop :=
  h.get .reqSize b + 8 ≤ h.get .size b
  ∧ loadLE h.mem (b + HDR + h.get .reqSize b) 8 = HEAP_CANARY_QWORD ∧ 16 ≤ h.get .size b

/-- The two states a header can be in. -/
def Flagged (h : HeapState) (b : Nat) : Prop :=
  (h.get .free b = 1 ∧ h.get .magic b = HEAP_MAGIC_FREE)
  ∨ (h.get .free b = 0 ∧ h.get .magic b = HEAP_MAGIC_ALLOC)

structure HeapInv (U X : List Nat) (h : HeapState) (bs fl : List Nat) : Prop where
  shape : Shape h bs
  flags : ∀ b ∈ bs, Flagged h b
  freeList : DList (h.get .freeNext) (h.get .freePrev) h.freeHead fl
  listed : ∀ b ∈ fl, b ∈ bs ∧ b ∉ U ∧ h.get .free b = 1
  complete : ∀ b ∈ bs, b ∉ U → h.get .free b = 1 → b ∈ fl
  noAdj : ∀ b ∈ bs, h.get .next b ≠ 0 → h.get .free b = 1 →
    h.get .free (h.get .next b) = 1 → b ∈ X ∨ h.get .next b ∈ X
  guard : ∀ b ∈ bs, b ∉ U → h.get .free b = 0 → Guarded h b

/-! ## The blocks in address order -/

/-- Along the list every block starts at or after the end of the ones before it. -/
theorem dseg_ordered {h : HeapState} :
    ∀ {l : List Nat} {p a q : Nat}, DSeg (h.get .next) (h.get .prev) p a l q 0 →
      (∀ b ∈ l, Tiled h b) → (∀ y ∈ l, a ≤ y) ∧ l.Pairwise fun b c => h.fin b ≤ c := by
  intro l
  induction l with
  | nil => intro p a q _ _; exact ⟨fun y hy => absurd hy not_mem_nil, List.Pairwise.nil⟩
  | cons x l ih =>
    intro p a q ⟨h1, h2, h3, h4⟩ ht
    obtain ⟨ih1, ih2⟩ := ih h4 fun b hb => ht b (by simp [hb])
    have hle : ∀ y ∈ l, h.fin x ≤ y := by
      intro y hy
      have hn := (ht x (by simp)).2
      split at hn
      · -- a block that ends the region has nothing after it
        rw [hn] at h4
        cases l with
        | nil => cases hy
        | cons z l => exact absurd h4.1.symm h4.2.1
      · rw [← hn]
        exact ih1 y hy
    refine ⟨?_, List.Pairwise.cons hle ih2⟩
    intro y hy
    rcases mem_cons.mp hy with rfl | hy
    · omega
    · have := hle y hy
      unfold fin at this
      omega

variable {b : Nat}

section Shape

variable {h h' : HeapState} {bs : List Nat} {F : Field → Bool}

section

variable (hs : Shape h bs) {y : Nat}

include hs

theorem Shape.base_le : ∀ b ∈ bs, h.base ≤ b := by
  obtain ⟨q, hq⟩ := hs.blocks
  exact (dseg_ordered hq hs.tile).1

/-- The extents of two blocks do not overlap. -/
theorem Shape.ext {c : Nat} (hb : b ∈ bs) (hc : c ∈ bs) : c = b ∨ h.fin b ≤ c ∨ h.fin c ≤ b := by
  obtain ⟨q, hq⟩ := hs.blocks
  by_cases hcb : c = b
  · exact .inl hcb
  · right
    have hpw := (dseg_ordered hq hs.tile).2.imp (S := fun b c => h.fin b ≤ c ∨ h.fin c ≤ b)
      fun hle => .inl hle
    have : Std.Symm fun b c => h.fin b ≤ c ∨ h.fin c ≤ b := ⟨fun _ _ => Or.symm⟩
    exact hpw.forall hb hc (fun e => hcb e.symm)

theorem Shape.ne_zero : 0 ∉ bs := fun h0 => dlist_ne_zero hs.blocks 0 h0 rfl

theorem Shape.spaced : Spaced bs := by
  intro b hb c hc
  rcases hs.ext hb hc with h1 | h1 | h1
  · exact .inl h1
  · refine .inr (.inl ?_)
    unfold fin at h1
    omega
  · refine .inr (.inr ?_)
    unfold fin at h1
    omega

theorem Shape.fin_lt (hb : b ∈ bs) : h.fin b < 2 ^ 64 := by
  have h1 := (hs.tile b hb).1
  have h2 := hs.lim
  omega

theorem Shape.lt (hb : b ∈ bs) : b < 2 ^ 64 := by
  have := hs.fin_lt hb
  unfold fin at this
  omega

theorem Shape.payload_outside (hb : b ∈ bs) (h1 : b + HDR ≤ y) (h2 : y < h.fin b) :
    ∀ c ∈ bs, y < c ∨ c + HDR ≤ y := by
  intro c hc
  rcases hs.ext hb hc with rfl | h3 | h3
  · exact .inr h1
  · left; omega
  · right
    unfold fin at h3
    omega

/-- A byte of the payload of one block lies outside another block. -/
theorem Shape.payload_apart {x : Nat} (hx : x ∈ bs) (hb : b ∈ bs) (hbx : b ≠ x) (h1 : b + HDR ≤ y)
    (h2 : y < h.fin b) :
    y < x ∨ h.fin x ≤ y := by
  rcases hs.ext hx hb with h3 | h3 | h3
  · exact absurd h3 hbx
  · right; omega
  · left; omega

theorem Shape.next_mem (hb : b ∈ bs) (hn : h.get .next b ≠ 0) :
    h.get .next b ∈ bs ∧ h.get .prev (h.get .next b) = b ∧ h.get .next b = h.fin b := by
  obtain ⟨a, c, rfl⟩ := append_of_mem hb
  have hfin : h.get .next b = h.fin b := by
    have := (hs.tile b hb).2
    split at this
    · exact absurd this hn
    · exact this
  rcases (dlist_neighbours hs.blocks).1 with ⟨h1, -⟩ | ⟨-, h2, c', rfl⟩
  · exact absurd h1 hn
  · exact ⟨by simp, h2, hfin⟩

theorem Shape.prev_mem (hb : b ∈ bs) (hp : h.get .prev b ≠ 0) :
    h.get .prev b ∈ bs ∧ h.get .next (h.get .prev b) = b := by
  obtain ⟨a, c, rfl⟩ := append_of_mem hb
  rcases (dlist_neighbours hs.blocks).2 with ⟨h1, -⟩ | ⟨-, h2, a', rfl⟩
  · exact absurd h1 hp
  · exact ⟨by simp, h2⟩

/-- Changes that spare sizes and address links keep the shape. -/
theorem Shape.congr (hb : h'.base = h.base) (hc : h'.capacity = h.capacity) (hh : h'.head = h.head)
    (hg : ∀ b ∈ bs, ∀ f, shapeFields f = true → h'.get f b = h.get f b) : Shape h' bs := by
  have hlim : h'.lim = h.lim := by rw [HeapState.lim, HeapState.lim, hb, hc]
  refine ⟨by rw [hb]; exact hs.base, by rw [hlim]; exact hs.lim,
    by rw [hh, hb]; exact hs.head, ?_, ?_⟩
  · rw [hb]
    exact dlist_congr (fun b hb' => hg b hb' .next rfl) (fun b hb' => hg b hb' .prev rfl) hs.blocks
  · intro b hb'
    have := hs.tile b hb'
    unfold Tiled fin at this ⊢
    rw [hlim, hg b hb' .size rfl, hg b hb' .next rfl]
    exact this

theorem Shape.frame (hf : Frame F bs h h') (hF : ∀ f, shapeFields f = true → F f = false) :
    Shape h' bs :=
  hs.congr hf.base hf.capacity hf.head fun b hb f hsf => hf.fields b hb f (hF f hsf)

end

theorem Flagged.congr (hb : Flagged h b) (hf : h'.get .free b = h.get .free b)
    (hm : h'.get .magic b = h.get .magic b) :
    Flagged h' b := by
  unfold Flagged at hb ⊢
  rw [hf, hm]
  exact hb

/-- The canary of a block stays where it is when its sizes and its payload do. -/
theorem Guarded.congr (hg : Guarded h b) (hr : h'.get .reqSize b = h.get .reqSize b)
    (hsz : h.get .size b ≤ h'.get .size b)
    (hbytes : ∀ y, b + HDR ≤ y → y < h.fin b → h'.mem y = h.mem y) :
    Guarded h' b := by
  obtain ⟨h1, h2, h3⟩ := hg
  refine ⟨by rw [hr]; omega, ?_, by omega⟩
  rw [hr]
  rw [← h2]
  refine loadLE_congr fun y hy1 hy2 => hbytes y (by omega) ?_
  unfold fin
  omega

theorem guarded_frame (hs : Shape h bs) (hf : Frame F bs h h') (hr : F .reqSize = false)
    (hb : b ∈ bs) (hsz : h.get .size b ≤ h'.get .size b) (hg : Guarded h b) : Guarded h' b :=
  hg.congr (hf.fields b hb _ hr) hsz fun y h1 h2 => hf.bytes y (hs.payload_outside hb h1 h2)

end Shape

/-! ## Merging two neighbours -/

section Neighbours

variable {a c : List Nat} {b n y : Nat}

theorem not_mem_of_nodup (hnd : (a ++ b :: n :: c).Nodup) : n ∉ a ++ b :: c := by
  have hmid : ((a ++ [b]) ++ n :: c).Nodup := by simpa using hnd
  simpa using (nodup_cons.mp (nodup_middle.mp hmid)).1

theorem mem_behind : y ∈ a ++ b :: n :: c ↔ y = n ∨ y ∈ a ++ b :: c := by
  simp only [mem_append, mem_cons]
  tauto

theorem mem_of_behind (hnd : (a ++ b :: n :: c).Nodup) (hy : y ∈ a ++ b :: c) :
    y ∈ a ++ b :: n :: c ∧ y ≠ n := by
  refine ⟨mem_behind.mpr (.inr hy), ?_⟩
  rintro rfl
  exact not_mem_of_nodup hnd hy

end Neighbours

/-- What `absorb b n` does to the headers. -/
structure Absorbed (bs : List Nat) (b n : Nat) (h h' : HeapState) : Prop where
  frame : Frame shapeFields bs h h'
  size : h'.get .size b = h.get .size b + HDR + h.get .size n
  sizeOther : ∀ y ∈ bs, y ≠ b → h'.get .size y = h.get .size y
  next : h'.get .next b = h.get .next n
  nextOther : ∀ y ∈ bs, y ≠ b → h'.get .next y = h.get .next y
  prev : h'.get .prev b = h.get .prev b
  freeHead : h'.freeHead = h.freeHead

theorem absorb_eq (b n : Nat) (h : HeapState) : absorb b n h
      = (((h.put .size b (h.get .size b + HDR + h.get .size n)).put .next b
          ((h.put .size b (h.get .size b + HDR + h.get .size n)).get .next n)).putIf .prev
          (((h.put .size b (h.get .size b + HDR + h.get .size n)).put .next b
            ((h.put .size b (h.get .size b + HDR + h.get .size n)).get .next n)).get .next b) b) :=
  rfl

/-- **Absorbing the next block keeps the shape**, without that block. -/
theorem absorb_shape {h : HeapState} {a c : List Nat} {n : Nat} (hs : Shape h (a ++ b :: n :: c)) :
    Shape (absorb b n h) (a ++ b :: c) ∧ Absorbed (a ++ b :: n :: c) b n h (absorb b n h) := by
  set bs := a ++ b :: n :: c with hbs
  have hb : b ∈ bs := by simp [hbs]
  have hn : n ∈ bs := by simp [hbs]
  have hsp := hs.spaced
  have h0 := hs.ne_zero
  have hnd := dlist_nodup hs.blocks
  have hnb : n ≠ b := by
    rintro rfl
    simp [hbs, nodup_append] at hnd
  have hb0 : b ≠ 0 := fun e => h0 (e ▸ hb)
  -- `n` is the block after `b`
  have hbn : h.get .next b = n ∧ h.get .prev n = b := by
    rcases (dlist_neighbours hs.blocks).1 with ⟨-, h1⟩ | ⟨-, h2, c', h3⟩
    · cases h1
    · injection h3 with h3 h4
      exact ⟨h3.symm, by rw [h3]; exact h2⟩
  have hfin : n = h.fin b := by
    have := (hs.next_mem hb (by rw [hbn.1]; exact fun e => h0 (e ▸ hn))).2.2
    rw [hbn.1] at this
    exact this
  have hfinn := hs.fin_lt hn
  have hsizefit : Field.Fits .size (h.get .size b + HDR + h.get .size n) :=
    fits_word rfl (by unfold fin at hfin hfinn; omega)
  rw [absorb_eq]
  set h1 := h.put .size b (h.get .size b + HDR + h.get .size n)
  have hg1 : ∀ y ∈ bs, ∀ g, h1.get g y = if y = b ∧ g = .size
      then h.get .size b + HDR + h.get .size n else h.get g y := fun y hy g =>
    get_put_of_spaced hsp hb hy g hsizefit
  have hnn : h1.get .next n = h.get .next n := by
    rw [hg1 n hn, if_neg (fun e => hnb e.1)]
  rw [hnn]
  set m := h.get .next n
  have hmfit : Field.Fits .next m := fits_word rfl (get_word_lt h n rfl)
  set h2 := h1.put .next b m
  have hg2 : ∀ y ∈ bs, ∀ g, h2.get g y = if y = b ∧ g = .next then m else h1.get g y :=
    fun y hy g => get_put_of_spaced hsp hb hy g hmfit
  have hbm : h2.get .next b = m := by rw [hg2 b hb, if_pos ⟨rfl, rfl⟩]
  rw [hbm]
  have hmmem : m ≠ 0 → m ∈ bs := fun e => (hs.next_mem hn e).1
  obtain ⟨hf3, hg3, hhead3⟩ := putIf_spec (F := shapeFields) (f := .prev) hsp h0
    hmmem rfl (fits_word rfl (hs.lt hb))
  set h3 := h2.putIf .prev m b
  have hframe : Frame shapeFields bs h h3 :=
    ((frame_put hsp hb rfl _).trans (frame_put hsp hb rfl _)).trans hf3
  have hsize : ∀ y ∈ bs, h3.get .size y = if y = b then h.get .size b + HDR + h.get .size n
      else h.get .size y := by
    intro y hy
    rw [hg3 y hy, if_other (by decide), hg2 y hy, if_other (by decide), hg1 y hy, if_own]
  have hnext : ∀ y ∈ bs, h3.get .next y = if y = b then m else h.get .next y := by
    intro y hy
    rw [hg3 y hy, if_other (by decide), hg2 y hy, if_own, hg1 y hy, if_other (by decide)]
  have hprev : ∀ y ∈ bs, h3.get .prev y = if y = m then b else h.get .prev y := by
    intro y hy
    rw [hg3 y hy, if_own, hg2 y hy, if_other (by decide), hg1 y hy, if_other (by decide)]
  have hsub : ∀ y ∈ a ++ b :: c, y ∈ bs ∧ y ≠ n := fun y => mem_of_behind hnd
  have hlim : h3.lim = h.lim := by rw [HeapState.lim, hframe.base, hframe.capacity]; rfl
  refine ⟨⟨by rw [hframe.base]; exact hs.base, by rw [hlim]; exact hs.lim,
    by rw [hframe.head, hframe.base]; exact hs.head, ?_, ?_⟩, hframe, ?_, ?_, ?_, ?_, ?_, hhead3⟩
  · -- the address list loses `n`
    rw [hframe.base]
    have hl : DList (h.get .next) (h.get .prev) h.base ((a ++ [b]) ++ n :: c) := by
      simpa [hbs] using hs.blocks
    have hrem : DList (h3.get .next) (h3.get .prev) _ ((a ++ [b]) ++ c) :=
        dlist_remove hl (fun y hy => by
        rw [hnext y (hsub y (by simpa using hy)).1, hbn.2])
      (fun y hy => by
        rw [hprev y (hsub y (by simpa using hy)).1, hbn.2])
    rw [if_neg (by rw [hbn.2]; exact hb0)] at hrem
    simpa using hrem
  · intro y hy
    obtain ⟨hyb, hyn⟩ := hsub y hy
    unfold Tiled fin
    rw [hlim, hsize y hyb, hnext y hyb]
    by_cases he : y = b
    · subst he
      rw [if_pos rfl, if_pos rfl]
      have ht := hs.tile n hn
      rw [show y + HDR + (h.get .size y + HDR + h.get .size n) = h.fin n by
        rw [fin, hfin, fin]; omega]
      exact ht
    · rw [if_neg he, if_neg he]
      exact hs.tile y hyb
  · rw [hsize b hb, if_pos rfl]
  · intro y hy hyb; rw [hsize y hy, if_neg hyb]
  · rw [hnext b hb, if_pos rfl]
  · intro y hy hyb; rw [hnext y hy, if_neg hyb]
  · rw [hprev b hb, if_neg]
    intro e
    have hbm := (hs.next_mem hn (fun e0 => hb0 (e.trans e0))).2.2
    unfold fin at hfin hbm
    omega

end AxonOS.Heap

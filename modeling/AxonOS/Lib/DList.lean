import AxonOS.Lib.Chain

/-! # Doubly linked lists of pointers

`DSeg next prev p h l q t` is a segment of a doubly linked list: it is entered from `p` at
`h`, runs through the nodes `l`, ends at its last node `q` (which is `p` when `l` is empty)
and leaves to `t`. A list is a segment entered from the null pointer and left to it. Pointers
are numbers and `0` is null. Pushing a node, inserting one behind another and unlinking one
are stated for the new link functions, in the form the assignments of a program give them.
-/

namespace AxonOS.Lib

open List

variable {next prev next' prev' : Nat → Nat} {p q t : Nat}

/-- A segment of a doubly linked list. -/
def DSeg (next prev : Nat → Nat) : Nat → Nat → List Nat → Nat → Nat → Prop
  | p, h, [], q, t => q = p ∧ t = h
  | p, h, x :: l, q, t => h = x ∧ x ≠ 0 ∧ prev x = p ∧ DSeg next prev x (next x) l q t

/-- A whole list with head `h`. -/
def DList (next prev : Nat → Nat) (h : Nat) (l : List Nat) : Prop :=
  ∃ q, DSeg next prev 0 h l q 0

theorem dseg_append {a b : List Nat} {h : Nat} :
    DSeg next prev p h (a ++ b) q t ↔ ∃ m u, DSeg next prev p h a m u
    ∧ DSeg next prev m u b q t := by
  induction a generalizing b p h q t with
  | nil =>
    constructor
    · intro hs; exact ⟨p, h, ⟨rfl, rfl⟩, hs⟩
    · rintro ⟨m, u, ⟨rfl, rfl⟩, hs⟩; exact hs
  | cons x a ih =>
    constructor
    · rintro ⟨h1, h2, h3, h4⟩
      obtain ⟨m, u, h5, h6⟩ := ih.mp h4
      exact ⟨m, u, ⟨h1, h2, h3, h5⟩, h6⟩
    · rintro ⟨m, u, ⟨h1, h2, h3, h5⟩, h6⟩
      exact ⟨h1, h2, h3, ih.mpr ⟨m, u, h5, h6⟩⟩

theorem dseg_congr {l : List Nat} {h : Nat} (hn : ∀ x ∈ l, next' x = next x)
    (hp : ∀ x ∈ l, prev' x = prev x) (hs : DSeg next prev p h l q t) :
    DSeg next' prev' p h l q t := by
  induction l generalizing p h q t with
  | nil => exact hs
  | cons x l ih =>
    obtain ⟨h1, h2, h3, h4⟩ := hs
    refine ⟨h1, h2, by rw [hp x (by simp)]; exact h3, ?_⟩
    rw [hn x (by simp)]
    exact ih (fun y hy => hn y (by simp [hy])) (fun y hy => hp y (by simp [hy])) h4

variable {b h x : Nat} {a c l : List Nat}

theorem dlist_congr (hn : ∀ x ∈ l, next' x = next x) (hp : ∀ x ∈ l, prev' x = prev x)
    (hl : DList next prev h l) : DList next' prev' h l := by
  obtain ⟨q, hq⟩ := hl
  exact ⟨q, dseg_congr hn hp hq⟩

theorem dseg_chain (hs : DSeg next prev p h l q 0) :
    Chain (fun x => ofPtr (next x)) (ofPtr h) l := by
  induction l generalizing p h with
  | nil =>
    obtain ⟨-, rfl⟩ := hs
    rfl
  | cons x l ih =>
    obtain ⟨rfl, h2, -, h4⟩ := hs
    exact ⟨if_neg h2, ih h4⟩

/-- A list visits no node twice, and not the null pointer. -/
theorem dlist_nodup (hl : DList next prev h l) : l.Nodup := by
  obtain ⟨q, hq⟩ := hl
  exact chain_nodup (dseg_chain hq)

theorem dlist_ne_zero (hl : DList next prev h l) : ∀ x ∈ l, x ≠ 0 := by
  intro x hx
  obtain ⟨a, b, rfl⟩ := append_of_mem hx
  obtain ⟨q, hq⟩ := hl
  obtain ⟨m, u, -, -, h0, -⟩ := dseg_append.mp hq
  exact h0

theorem dlist_head (hl : DList next prev h l) (hh : h ≠ 0) : ∃ t, l = h :: t := by
  obtain ⟨q, hq⟩ := hl
  cases l with
  | nil => exact absurd hq.2.symm hh
  | cons x t =>
    obtain ⟨rfl, -⟩ := hq
    exact ⟨t, rfl⟩

/-- The neighbours of a node: it is the last one or the next one points back to it, and it is
the first one or the previous one points forward to it. -/
theorem dlist_neighbours (hl : DList next prev h (a ++ b :: c)) :
    ((next b = 0 ∧ c = []) ∨ next b ≠ 0 ∧ prev (next b) = b ∧ ∃ c', c = next b :: c')
    ∧ ((prev b = 0 ∧ a = []) ∨ prev b ≠ 0 ∧ next (prev b) = b ∧ ∃ a', a = a' ++ [prev b]) := by
  obtain ⟨q, hq⟩ := hl
  obtain ⟨m, u, ha, h1, -, hbp, hc⟩ := dseg_append.mp hq
  subst h1
  refine ⟨?_, ?_⟩
  · cases c with
    | nil => exact .inl ⟨hc.2.symm, rfl⟩
    | cons y c =>
      obtain ⟨h1, h2, h3, -⟩ := hc
      subst h1
      exact .inr ⟨h2, h3, c, rfl⟩
  · rcases eq_nil_or_concat' a with rfl | ⟨a', y, rfl⟩
    · exact .inl ⟨hbp.trans ha.1, rfl⟩
    · obtain ⟨m', u', -, h1, h2, -, h4⟩ := dseg_append.mp ha
      obtain ⟨h5, h6⟩ := h4
      rw [hbp, h5]
      exact .inr ⟨h2, h6.symm, a', rfl⟩

/-- The last node of a segment is its only node that links out of it. -/
theorem dseg_last (hs : DSeg next prev p h l q t) (hne : l ≠ []) : q ∈ l := by
  obtain ⟨a, x, rfl⟩ := (eq_nil_or_concat' l).resolve_left hne
  obtain ⟨m, u, -, -, -, -, h4⟩ := dseg_append.mp hs
  rw [h4.1]
  exact mem_concat_self

/-- Directing the last link of a segment elsewhere. -/
theorem dseg_retarget {t' : Nat} :
      ∀ {l : List Nat} {p h q t : Nat}, DSeg next prev p h l q t → l.Nodup →
      (∀ x ∈ l, next' x = if x = q then t' else next x) → (∀ x ∈ l, prev' x = prev x) →
      DSeg next' prev' p (if l = [] then t' else h) l q t' := by
  intro l
  induction l with
  | nil => rintro p h q t ⟨rfl, rfl⟩ _ _ _; exact ⟨rfl, rfl⟩
  | cons x l ih =>
    intro p h q t ⟨h1, h2, h3, h4⟩ hnd hn hp
    refine ⟨h1, h2, by rw [hp x (by simp)]; exact h3, ?_⟩
    have hrest := ih h4 (nodup_cons.mp hnd).2 (fun y hy => hn y (by simp [hy]))
      (fun y hy => hp y (by simp [hy]))
    have hx := hn x (by simp)
    cases l with
    | nil =>
      obtain ⟨rfl, rfl⟩ := h4
      rw [if_pos rfl] at hx
      exact ⟨rfl, hx.symm⟩
    | cons y l =>
      have hxq : x ≠ q := by
        rintro rfl
        exact (nodup_cons.mp hnd).1 (dseg_last h4 (by simp))
      rw [if_neg hxq] at hx
      rw [hx]
      exact hrest

/-- Entering a segment from elsewhere: only the back link of its first node changes. -/
theorem dseg_reenter {p' : Nat} (hs : DSeg next prev p h l q t) (hnd : l.Nodup)
    (hn : ∀ x ∈ l, next' x = next x) (hp : ∀ x ∈ l, prev' x = if x = h then p' else prev x) :
    ∃ q', DSeg next' prev' p' h l q' t := by
  cases l with
  | nil => exact ⟨p', rfl, hs.2⟩
  | cons x l =>
    obtain ⟨rfl, h2, -, h4⟩ := hs
    have hx := hp h (by simp)
    rw [if_pos rfl] at hx
    refine ⟨q, rfl, h2, hx, ?_⟩
    rw [hn h (by simp)]
    refine dseg_congr (fun y hy => hn y (by simp [hy])) (fun y hy => ?_) h4
    have hyh : y ≠ h := fun e => (nodup_cons.mp hnd).1 (e ▸ hy)
    rw [hp y (by simp [hy]), if_neg hyh]

/-- **Unlinking the node `b`**: the node before it takes its forward link and the node after it
its backward link. -/
theorem dlist_remove (hl : DList next prev h (a ++ b :: c))
    (hn : ∀ x ∈ a ++ c, next' x = if x = prev b then next b else next x)
    (hp : ∀ x ∈ a ++ c, prev' x = if x = next b then prev b else prev x) :
    DList next' prev' (if prev b = 0 then next b else h) (a ++ c) := by
  have hnd := dlist_nodup hl
  have hnz := dlist_ne_zero hl
  obtain ⟨q, hq⟩ := hl
  obtain ⟨m, u, ha, h1, -, hbp, hc⟩ := dseg_append.mp hq
  subst h1
  obtain ⟨hnda, hndbc, hdisj⟩ := nodup_append.mp hnd
  obtain ⟨hbc, hndc⟩ := nodup_cons.mp hndbc
  -- the first part now leaves to the node after `b`, the second one is entered from before it
  have ha' : DSeg next' prev' 0 (if a = [] then next u else h) a m (next u) := by
    refine dseg_retarget ha hnda (fun x hx => ?_) fun x hx => ?_
    · rw [hn x (by simp [hx]), hbp]
    rw [hp x (by simp [hx])]
    by_cases hxn : x = next u
    · -- the node after `b` is in the second part, not in the first
      exfalso
      cases c with
      | nil =>
        rw [← hc.2] at hxn
        exact hnz x (by simp [hx]) hxn
      | cons y c =>
        have : x = y := hxn.trans hc.1
        exact hdisj x hx y (by simp) this
    · rw [if_neg hxn]
  have hc' : ∃ q', DSeg next' prev' m (next u) c q' 0 := by
    refine dseg_reenter hc hndc (fun x hx => ?_) fun x hx => ?_
    · rw [hn x (by simp [hx])]
      by_cases hxp : x = prev u
      · exfalso
        rw [hbp] at hxp
        cases a with
        | nil =>
          rw [ha.1] at hxp
          exact hnz x (by simp [hx]) hxp
        | cons y a =>
          have hm := dseg_last ha (by simp)
          exact hdisj m hm x (by simp [hx]) hxp.symm
      · rw [if_neg hxp]
    · rw [hp x (by simp [hx]), hbp]
  obtain ⟨q', hq'⟩ := hc'
  refine ⟨q', dseg_append.mpr ⟨m, next u, ?_, hq'⟩⟩
  have hhead : (if prev u = 0 then next u else h) = if a = [] then next u else h := by
    rw [hbp]
    cases a with
    | nil => rw [if_pos ha.1, if_pos rfl]
    | cons y a =>
      have hm := dseg_last ha (by simp)
      rw [if_neg (hnz m (by simp only [mem_append]; exact .inl hm)), if_neg (by simp)]
  rw [hhead]
  exact ha'

theorem dlist_insertAfter (hl : DList next prev h (a ++ b :: c)) (hx : x ≠ 0)
    (hxn : next' x = next b) (hxp : prev' x = b) (hn : ∀ y ∈ a ++ b :: c, next' y = if y = b then x
    else next y) (hp : ∀ y ∈ a ++ b :: c, prev' y = if y = next b then x else prev y) :
    DList next' prev' h (a ++ b :: x :: c) := by
  have hnd := dlist_nodup hl
  have hnz := dlist_ne_zero hl
  obtain ⟨q, hq⟩ := hl
  obtain ⟨m, u, ha, h1, hb0, hbp, hc⟩ := dseg_append.mp hq
  subst h1
  obtain ⟨hnda, hndbc, hdisj⟩ := nodup_append.mp hnd
  obtain ⟨hbc, hndc⟩ := nodup_cons.mp hndbc
  -- the node after `b`, if any, is the first one of `c`
  have hnext : ∀ y, y ∈ a ∨ y = u → y ≠ next u := by
    intro y hy hyn
    cases c with
    | nil =>
      rw [← hc.2] at hyn
      rcases hy with hy | rfl
      · exact hnz y (by simp [hy]) hyn
      · exact hb0 hyn
    | cons z c =>
      have hyz : y = z := hyn.trans hc.1
      rcases hy with hy | rfl
      · exact hdisj y hy z (by simp) hyz
      · exact hbc (by simp [hyz])
  have ha' : DSeg next' prev' 0 h a m u := by
    refine dseg_congr (fun y hy => ?_) (fun y hy => ?_) ha
    · have : y ≠ u := fun e => hdisj y hy u (by simp) e
      rw [hn y (by simp [hy]), if_neg this]
    · rw [hp y (by simp [hy]), if_neg (hnext y (.inl hy))]
  have hc' : ∃ q', DSeg next' prev' x (next u) c q' 0 := by
    refine dseg_reenter hc hndc (fun y hy => ?_) fun y hy => hp y (by simp [hy])
    have : y ≠ u := fun e => hbc (e ▸ hy)
    rw [hn y (by simp [hy]), if_neg this]
  obtain ⟨q', hq'⟩ := hc'
  refine ⟨q', dseg_append.mpr ⟨m, u, ha', rfl, hb0, ?_, ?_⟩⟩
  · rw [hp u (by simp), if_neg (hnext u (.inr rfl))]
    exact hbp
  · rw [hn u (by simp), if_pos rfl]
    exact ⟨rfl, hx, hxp, by rw [hxn]; exact hq'⟩

theorem dlist_push (hl : DList next prev h l) (hx : x ≠ 0) (hxn : next' x = h) (hxp : prev' x = 0)
    (hn : ∀ y ∈ l, next' y = next y) (hp : ∀ y ∈ l, prev' y = if y = h then x else prev y) :
    DList next' prev' x (x :: l) := by
  have hnd := dlist_nodup hl
  obtain ⟨q, hq⟩ := hl
  obtain ⟨q', hq'⟩ := dseg_reenter hq hnd hn hp
  exact ⟨q', rfl, hx, hxp, by rw [hxn]; exact hq'⟩

end AxonOS.Lib

import Mathlib.Tactic

/-! # Trees of parent and child links

A tree as linked records hold it: every element has a list of children and perhaps a parent.
`Rooted` says that the two are inverse to each other and that every element with a parent is reached
from the root. Three changes keep it: a new leaf (`Rooted.attach`), taking a whole subtree away
(`Rooted.prune`), and moving a subtree under an element that is not in it (`Rooted.move`).
-/

namespace AxonOS.Lib

open List Option

variable {α : Type}

structure Links (α : Type) where
  children : α → List α
  parent : α → Option α

/-- `r` or beneath it. -/
inductive Below (L : Links α) (r : α) : α → Prop
  | self : Below L r r
  | child {p c : α} : Below L r p → c ∈ L.children p → Below L r c

/-- The chain of children that leads from the root to an element, the last one first. -/
inductive ChainTo (L : Links α) (root : α) : List α → α → Prop
  | root : ChainTo L root [] root
  | child {l : List α} {p c : α} : ChainTo L root l p → c ∈ L.children p → ChainTo L root (c :: l) c

structure Rooted (L : Links α) (root : α) : Prop where
  root_parent : L.parent root = none
  nodup : ∀ p, (L.children p).Nodup
  mem_children : ∀ p c, c ∈ L.children p ↔ L.parent c = some p
  reached : ∀ c, L.parent c ≠ none → Below L root c

namespace Below

variable {L L' : Links α} {r n p c : α}

theorem trans (h : Below L r n) (h' : Below L n c) : Below L r c := by
  induction h' with
  | self => exact h
  | child _ hmem ih => exact ih.child hmem

/-- Children that are not the taken element are still there. -/
theorem mono (hsub : ∀ p c, c ∈ L.children p → c ≠ r → c ∈ L'.children p) (h : Below L r c) :
    Below L' r c := by
  induction h with
  | self => exact .self
  | @child p c _ hmem ih =>
    by_cases hc : c = r
    · rw [hc]
      exact .self
    · exact ih.child (hsub p c hmem hc)

/-- An element is beneath `n`, or it is reached without `n`. -/
theorem avoid_or (h : Below L r c)
    (hsub : ∀ p c, ¬ Below L n p → c ∈ L.children p → c ≠ n → c ∈ L'.children p) :
    Below L n c ∨ Below L' r c := by
  induction h with
  | self => exact .inr .self
  | @child p c _ hmem ih =>
    by_cases hc : c = n
    · rw [hc]
      exact .inl .self
    · rcases ih with hbelow | hreach
      · exact .inl (hbelow.child hmem)
      · by_cases hp : Below L n p
        · exact .inl (hp.child hmem)
        · exact .inr (hreach.child (hsub p c hp hmem hc))

theorem iff_child : Below L r c ↔ c = r ∨ ∃ d ∈ L.children r, Below L d c := by
  constructor
  · intro h
    induction h with
    | self => exact .inl rfl
    | @child p c _ hmem ih =>
      rcases ih with rfl | ⟨d, hd, hb⟩
      · exact .inr ⟨c, hmem, .self⟩
      · exact .inr ⟨d, hd, hb.child hmem⟩
  · rintro (rfl | ⟨d, hd, hb⟩)
    · exact .self
    · exact (Below.self.child hd).trans hb

theorem ne_of_not (h : ¬ Below L r c) : c ≠ r := by
  rintro rfl
  exact h .self

theorem of_leaf (hleaf : L.children n = []) (h : Below L n c) : c = n := by
  induction h with
  | self => rfl
  | child _ hmem ih =>
    rw [ih, hleaf] at hmem
    cases hmem

end Below

namespace Rooted

variable {L L' : Links α} {root n c p : α}

theorem ne_root (h : Rooted L root) (hp : L.parent c = some p) : c ≠ root := by
  rintro rfl
  exact absurd (h.root_parent.symm.trans hp) nofun

theorem not_child_root (h : Rooted L root) :
    root ∉ L.children p := fun hmem => h.ne_root ((h.mem_children p root).mp hmem) rfl

/-- The parent of something beneath `n` is beneath `n`, unless it is `n` itself. -/
theorem below_parent (h : Rooted L root) (hbelow : Below L n c) (hp : L.parent c = some p) :
    c = n ∨ Below L n p := by
  cases hbelow with
  | self => exact .inl rfl
  | @child q _ hq hmem =>
    have hpar := (h.mem_children q c).mp hmem
    obtain rfl : q = p := some.inj (hpar.symm.trans hp)
    exact .inr hq

theorem not_below_child (h : Rooted L root) (hp : L.parent c = some p) (hne : c ≠ n)
    (hout : ¬ Below L n p) :
    ¬ Below L n c := fun hbelow => (h.below_parent hbelow hp).elim hne hout

/-- **No loops**: a parent is not beneath its child. -/
theorem not_below_parent (h : Rooted L root) (hp : L.parent c = some p) : ¬ Below L c p := by
  -- along the way from the root, the first element of the loop would have a parent outside
  have hall : ∀ x, Below L root x → ∀ y q, L.parent y = some q → Below L y q → ¬ Below L y x := by
    intro x hx
    induction hx with
    | self =>
      intro y q hy hq hroot
      cases hroot with
      | self => exact h.ne_root hy rfl
      | child _ hmem => exact h.not_child_root hmem
    | @child p x _ hmem ih =>
      intro y q hy hq hyx
      have hpar := (h.mem_children p x).mp hmem
      rcases h.below_parent hyx hpar with rfl | hyp
      · obtain rfl : p = q := some.inj (hpar.symm.trans hy)
        exact ih x p hy hq hq
      · exact ih y q hy hq hyp
  intro hbelow
  exact hall c (h.reached c (by simp [hp])) c p hp hbelow .self

/-- Nothing is beneath two siblings. -/
theorem siblings_apart (h : Rooted L root) {d e x : α} (hd : d ∈ L.children p)
    (he : e ∈ L.children p) (hne : d ≠ e) (hb : Below L d x) : ¬ Below L e x := by
  have hpd := (h.mem_children p d).mp hd
  have hpe := (h.mem_children p e).mp he
  induction hb with
  | self => exact h.not_below_child hpd hne (h.not_below_parent hpe)
  | @child q x hq hmem ih =>
    have hpx := (h.mem_children q x).mp hmem
    refine h.not_below_child hpx ?_ ih
    rintro rfl
    obtain rfl : q = p := some.inj (hpx.symm.trans hpe)
    exact h.not_below_parent hpd hq

theorem chain_unique (h : Rooted L root) {l m : List α} (hl : ChainTo L root l c)
    (hm : ChainTo L root m c) :
    l = m := by
  induction hl generalizing m with
  | root =>
    cases hm with
    | root => rfl
    | child _ hmem => exact absurd hmem h.not_child_root
  | @child l p c _ hmem ih =>
    have hpar := (h.mem_children p c).mp hmem
    cases hm with
    | root => exact absurd hmem h.not_child_root
    | @child m q _ hq hmem' =>
      obtain rfl : p = q := some.inj (hpar.symm.trans ((h.mem_children q c).mp hmem'))
      rw [ih hq]

theorem exists_chain (h : Below L root c) : ∃ l, ChainTo L root l c := by
  induction h with
  | self => exact ⟨[], .root⟩
  | child _ hmem ih =>
    obtain ⟨l, hl⟩ := ih
    exact ⟨_, hl.child hmem⟩

/-- **An element with a parent is reached by one chain.** -/
theorem exists_unique_chain (h : Rooted L root) (hc : L.parent c ≠ none) :
    ∃! l, ChainTo L root l c := by
  obtain ⟨l, hl⟩ := exists_chain (h.reached c hc)
  exact ⟨l, hl, fun m hm => h.chain_unique hm hl⟩

/-! ## Changes -/

variable [DecidableEq α]

/-- With `c` as a further child of `p` the lists say the same as the parents again. -/
theorem mem_insert_iff {l : α → List α} {parent : α → Option α} (hfree : ∀ q, c ∉ l q)
    (hl : ∀ q x, x ≠ c → (x ∈ l q ↔ parent x = some q)) (q x : α) :
    (x ∈ if q = p then c :: l q else l q) ↔ (if x = c then some p else parent x) = some q := by
  by_cases hx : x = c
  · rw [if_pos hx, hx]
    by_cases hq : q = p
    · rw [if_pos hq, hq]
      exact iff_of_true mem_cons_self rfl
    · rw [if_neg hq]
      exact iff_of_false (hfree q) fun e => hq (some.inj e).symm
  · rw [if_neg hx, ← hl q x hx]
    split
    · rw [mem_cons]
      exact ⟨fun e => e.resolve_left hx, .inr⟩
    · exact Iff.rfl

theorem attach (h : Rooted L root) (hp : Below L root p) (hpar : L.parent c = none)
    (hroot : c ≠ root) (hchildren : ∀ q, L'.children q = if q = p then c :: L.children q
    else L.children q) (hparent : ∀ q, L'.parent q = if q = c then some p else L.parent q) :
    Rooted L' root := by
  have hfree : ∀ q, c ∉ L.children q := fun q hq => by
    rw [(h.mem_children q c).mp hq] at hpar
    cases hpar
  have hsub : ∀ q x, x ∈ L.children q → x ∈ L'.children q := by
    intro q x hx
    rw [hchildren]
    split
    · exact mem_cons_of_mem _ hx
    · exact hx
  have hreach : ∀ {x}, Below L root x → Below L' root x :=
    fun hx => hx.mono fun q x hx _ => hsub q x hx
  refine ⟨?_, fun q => ?_, fun q x => ?_, fun x hx => ?_⟩
  · rw [hparent, if_neg (Ne.symm hroot), h.root_parent]
  · rw [hchildren]
    split
    · exact nodup_cons.mpr ⟨hfree q, h.nodup q⟩
    · exact h.nodup q
  · rw [hchildren, hparent]
    exact mem_insert_iff hfree (fun q x _ => h.mem_children q x) q x
  · rw [hparent] at hx
    by_cases hxc : x = c
    · rw [hxc]
      refine (hreach hp).child ?_
      rw [hchildren, if_pos rfl]
      exact mem_cons_self
    · rw [if_neg hxc] at hx
      exact hreach (h.reached x hx)

theorem prune (h : Rooted L root) (hroot : n ≠ root)
    (hchildren : ∀ q, ¬ Below L n q → L'.children q = (L.children q).erase n)
    (hgone : ∀ q, Below L n q → L'.children q = [] ∧ L'.parent q = none)
    (hparent : ∀ q, ¬ Below L n q → L'.parent q = L.parent q) : Rooted L' root := by
  have hout : ¬ Below L n root := by
    intro hbelow
    cases hbelow with
    | self => exact hroot rfl
    | child _ hmem => exact absurd hmem h.not_child_root
  refine ⟨?_, fun q => ?_, fun q x => ?_, fun x hx => ?_⟩
  · rw [hparent root hout, h.root_parent]
  · by_cases hq : Below L n q
    · rw [(hgone q hq).1]
      exact nodup_nil
    · rw [hchildren q hq]
      exact (h.nodup q).erase n
  · by_cases hq : Below L n q
    · rw [(hgone q hq).1]
      refine iff_of_false not_mem_nil fun hpar => ?_
      by_cases hx : Below L n x
      · rw [(hgone x hx).2] at hpar
        cases hpar
      · rw [hparent x hx] at hpar
        exact hx (hq.child ((h.mem_children q x).mpr hpar))
    · rw [hchildren q hq, (h.nodup q).mem_erase_iff, h.mem_children]
      by_cases hx : Below L n x
      · rw [(hgone x hx).2]
        refine iff_of_false (fun hmem => ?_) (by simp)
        rcases h.below_parent hx hmem.2 with rfl | hbelow
        · exact hmem.1 rfl
        · exact hq hbelow
      · rw [hparent x hx]
        exact ⟨fun hmem => hmem.2, fun hpar => ⟨Below.ne_of_not hx, hpar⟩⟩
  · have hxout : ¬ Below L n x := fun hbelow => hx (hgone x hbelow).2
    rw [hparent x hxout] at hx
    have hkept : ∀ q c, ¬ Below L n q → c ∈ L.children q → c ≠ n → c ∈ L'.children q := by
      intro q c hq hmem hc
      rw [hchildren q hq]
      exact (mem_erase_of_ne hc).mpr hmem
    exact ((h.reached x hx).avoid_or hkept).resolve_left hxout

theorem move (h : Rooted L root) {o : α} (ho : L.parent o ≠ none) (hp : Below L root p)
    (hout : ¬ Below L o p)
    (hchildren : ∀ q, L'.children q = if q = p then o :: (L.children q).erase o
    else (L.children q).erase o) (hparent : ∀ q, L'.parent q = if q = o then some p
    else L.parent q) : Rooted L' root := by
  have hroot : o ≠ root := by
    rintro rfl
    exact ho h.root_parent
  have hfree : ∀ q, o ∉ (L.children q).erase o :=
    fun q hmem => ((h.nodup q).mem_erase_iff.mp hmem).1 rfl
  have hsub : ∀ q c, c ∈ L.children q → c ≠ o → c ∈ L'.children q := by
    intro q c hmem hc
    have herase : c ∈ (L.children q).erase o := (mem_erase_of_ne hc).mpr hmem
    rw [hchildren]
    split
    · exact mem_cons_of_mem _ herase
    · exact herase
  have hreach : ∀ {x}, Below L root x → Below L o x ∨ Below L' root x := fun hx =>
    hx.avoid_or fun q c _ => hsub q c
  have hp' : Below L' root p := (hreach hp).resolve_left hout
  have ho' : Below L' root o := by
    refine hp'.child ?_
    rw [hchildren, if_pos rfl]
    exact mem_cons_self
  refine ⟨?_, fun q => ?_, fun q x => ?_, fun x hx => ?_⟩
  · rw [hparent, if_neg (Ne.symm hroot), h.root_parent]
  · rw [hchildren]
    split
    · exact nodup_cons.mpr ⟨hfree q, (h.nodup q).erase o⟩
    · exact (h.nodup q).erase o
  · rw [hchildren, hparent]
    refine mem_insert_iff hfree (fun q x hx => ?_) q x
    rw [mem_erase_of_ne hx, h.mem_children]
  · by_cases hxo : x = o
    · rw [hxo]
      exact ho'
    · rw [hparent, if_neg hxo] at hx
      rcases hreach (h.reached x hx) with hbelow | hroot'
      · exact ho'.trans (hbelow.mono hsub)
      · exact hroot'

end Rooted

end AxonOS.Lib

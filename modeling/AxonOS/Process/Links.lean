import AxonOS.Process.Tree

/-! # Linking and unlinking processes

`Tree` says that the child list of a process is a list of exactly the processes that have it as
parent. Between two writes a process may be in no list; `TreeOff` is `Tree` with the exception of
one process.
-/

namespace AxonOS.Process

open Lib List Option
open Function (update)

/-! ## The tree -/

/-- Following the links from the first child of an allocated process visits each allocated process
that has it as parent, once, and nothing else; and parents are allocated. -/
structure Tree (s : PState) : Prop where
  lists : ∀ q, s.live q = true → ∃ l, Chain s.nextSibling (s.firstChild q) l
    ∧ ∀ p, p ∈ l ↔ s.live p = true ∧ s.parent p = some q
  parents : ∀ p q, s.live p = true → s.parent p = some q → s.live q = true

/-- `p` is in no list; all the others are where they belong. -/
structure TreeOff (s : PState) (p : Nat) : Prop where
  lists : ∀ q, s.live q = true → ∃ l, Chain s.nextSibling (s.firstChild q) l
    ∧ ∀ x, x ∈ l ↔ s.live x = true ∧ x ≠ p ∧ s.parent x = some q
  parents : ∀ x q, s.live x = true → x ≠ p → s.parent x = some q → s.live q = true

/-- Every allocated process has its slot in the table. -/
structure Tabled (s : PState) : Prop where
  slot : ∀ p, s.live p = true → ∃ i, i < PROCESS_TABLE_MAX ∧ s.processTable i = some p
  entry : ∀ i p, s.processTable i = some p → s.live p = true
  once : ∀ i j p, s.processTable i = some p → s.processTable j = some p → i = j

section Tree

variable {s s' : PState} {p q : Nat}

theorem Tree.congr (h : Tree s) (hlive : s'.live = s.live) (hparent : s'.parent = s.parent)
    (hfirst : s'.firstChild = s.firstChild) (hnext : s'.nextSibling = s.nextSibling) : Tree s' := by
  constructor
  · rw [hlive, hparent, hfirst, hnext]
    exact h.lists
  · rw [hlive, hparent]
    exact h.parents

theorem Tabled.congr (h : Tabled s) (hlive : s'.live = s.live)
    (htable : s'.processTable = s.processTable) : Tabled s' := by
  constructor
  · rw [hlive, htable]
    exact h.slot
  · rw [hlive, htable]
    exact h.entry
  · rw [htable]
    exact h.once

/-- Lists fit into the table, so that no walk along them is cut short. -/
theorem Tabled.length_le (h : Tabled s) {l : List Nat} (hnd : l.Nodup)
    (hl : ∀ p ∈ l, s.live p = true) : l.length ≤ PROCESS_TABLE_MAX := by
  have hsub : l ⊆ (List.range PROCESS_TABLE_MAX).filterMap s.processTable := by
    intro p hp
    obtain ⟨i, hi, htable⟩ := h.slot p (hl p hp)
    exact mem_filterMap.mpr ⟨i, mem_range.mpr hi, htable⟩
  calc l.length ≤ ((List.range PROCESS_TABLE_MAX).filterMap s.processTable).length :=
        (subperm_of_subset hnd hsub).length_le
    _ ≤ (List.range PROCESS_TABLE_MAX).length := length_filterMap_le _ _
    _ = PROCESS_TABLE_MAX := length_range

theorem Tree.length_le (h : Tabled s) {l : List Nat} (hc : Chain s.nextSibling (s.firstChild q) l)
    (hl : ∀ p, p ∈ l ↔ s.live p = true ∧ s.parent p = some q) : l.length ≤ PROCESS_TABLE_MAX :=
  h.length_le (chain_nodup hc) fun p hp => ((hl p).mp hp).1

/-! ## One process out of its list -/

theorem parent_off {x : Nat} (hp : s.parent p = none) :
    s.parent x = some q ↔ x ≠ p ∧ s.parent x = some q := by
  refine ⟨fun hx => ⟨?_, hx⟩, And.right⟩
  rintro rfl
  rw [hp] at hx
  cases hx

theorem Tree.off (h : Tree s) (hp : s.parent p = none) : TreeOff s p := by
  constructor
  · intro q hq
    obtain ⟨l, hc, hl⟩ := h.lists q hq
    exact ⟨l, hc, fun x => (hl x).trans (and_congr_right' (parent_off hp))⟩
  · exact fun x q hx _ hpar => h.parents x q hx hpar

theorem TreeOff.tree (h : TreeOff s p) (hp : s.parent p = none) : Tree s := by
  constructor
  · intro q hq
    obtain ⟨l, hc, hl⟩ := h.lists q hq
    exact ⟨l, hc, fun x => (hl x).trans (and_congr_right' (parent_off hp).symm)⟩
  · exact fun x q hx hpar => h.parents x q hx ((parent_off hp).mp hpar).1 hpar

theorem TreeOff.congr (h : TreeOff s p) (hlive : s'.live = s.live)
    (hfirst : s'.firstChild = s.firstChild) (hparent : ∀ x, x ≠ p → s'.parent x = s.parent x)
    (hnext : ∀ x, x ≠ p → s'.nextSibling x = s.nextSibling x) : TreeOff s' p := by
  constructor
  · intro q hq
    rw [hlive] at hq
    obtain ⟨l, hc, hl⟩ := h.lists q hq
    refine ⟨l, ?_, fun x => (hl x).trans ?_⟩
    · rw [hfirst]
      exact chain_congr (fun x hx => hnext x ((hl x).mp hx).2.1) hc
    · rw [hlive]
      refine and_congr_right fun _ => and_congr_right fun hxp => ?_
      rw [hparent x hxp]
  · intro x q hx hxp hpar
    rw [hlive] at hx ⊢
    rw [hparent x hxp] at hpar
    exact h.parents x q hx hxp hpar

/-- Where the search for the link of a process ends. -/
theorem findLink_of_parent (h : Tree s) (ht : Tabled s) (hp : s.live p = true)
    (hpar : s.parent p = some q) : ∃ prev, s.findLink q p = some (some prev) := by
  obtain ⟨l, hc, hl⟩ := h.lists q (h.parents p q hp hpar)
  have hlen := Tree.length_le ht hc hl
  obtain ⟨a, b, rfl⟩ := append_of_mem ((hl p).mpr ⟨hp, hpar⟩)
  exact ⟨_, chainPred_of_mem hc hlen⟩

theorem findLink_of_not_parent (h : Tree s) (ht : Tabled s) (hq : s.live q = true)
    (hpar : s.parent p ≠ some q) : s.findLink q p = some none := by
  obtain ⟨l, hc, hl⟩ := h.lists q hq
  have hlen := Tree.length_le ht hc hl
  exact chainPred_of_not_mem hc hlen fun hp => hpar ((hl p).mp hp).2

/-- **Unlinking** takes a process out of the list of its parent and leaves the other lists alone. -/
theorem Tree.unlink (h : Tree s) (ht : Tabled s) (hp : s.live p = true) (hpar : s.parent p = some q)
    {prev : Option Nat} (hprev : s.findLink q p = some (some prev)) :
    TreeOff (s.unlink q p prev) p := by
  have hlive : (s.unlink q p prev).live = s.live := by cases prev <;> rfl
  have hparent : (s.unlink q p prev).parent = s.parent := by cases prev <;> rfl
  have hq := h.parents p q hp hpar
  obtain ⟨l, hc, hl⟩ := h.lists q hq
  have hlen := Tree.length_le ht hc hl
  obtain ⟨a, b, rfl⟩ := append_of_mem ((hl p).mpr ⟨hp, hpar⟩)
  -- the link found is the one before `p`
  obtain rfl : prev = a.getLast? := by
    have := some.inj (some.inj (hprev.symm.trans (chainPred_of_mem hc hlen)))
    simpa using this
  constructor
  · intro q' hq'
    rw [hlive] at hq'
    by_cases hqq : q' = q
    · subst hqq
      refine ⟨a ++ b, chain_remove hc ?_ ?_ ?_ ?_, fun x => ?_⟩
      · rintro rfl
        simp [PState.unlink]
      · intro ha
        obtain ⟨y, hy⟩ := isSome_iff_exists.mp (getLast?_isSome.mpr ha)
        rw [hy]
        rfl
      · intro y hy
        rw [hy]
        simp [PState.unlink]
      · intro x _ hx
        cases hy : a.getLast? with
        | none => rfl
        | some y =>
          have hxy : x ≠ y := by
            rintro rfl
            exact hx hy
          simp [PState.unlink, hxy]
      · have hnot := (nodup_cons.mp (nodup_middle.mp (chain_nodup hc))).1
        rw [hlive, hparent, and_left_comm, ← hl x, perm_middle.mem_iff, mem_cons]
        exact ⟨fun hx => ⟨ne_of_mem_of_not_mem hx hnot, .inr hx⟩, fun hx => hx.2.resolve_left hx.1⟩
    · obtain ⟨l', hc', hl'⟩ := h.lists q' hq'
      have hnot : ∀ x ∈ l', s.parent x ≠ some q := by
        intro x hx heq
        have := (hl' x).mp hx
        exact hqq (some.inj (this.2.symm.trans heq))
      refine ⟨l', ?_, fun x => (hl' x).trans ?_⟩
      · have hfirst : (s.unlink q p a.getLast?).firstChild q' = s.firstChild q' := by
          cases a.getLast? with
          | none => simp [PState.unlink, hqq]
          | some y => rfl
        rw [hfirst]
        refine chain_congr (fun x hx => ?_) hc'
        cases hy : a.getLast? with
        | none => rfl
        | some y =>
          have hya : y ∈ a := mem_of_getLast? hy
          have hxy : x ≠ y := by
            rintro rfl
            exact hnot x hx ((hl x).mp (mem_append_left _ hya)).2
          simp [PState.unlink, hxy]
      · rw [hlive, hparent]
        constructor
        · rintro ⟨hx, hpx⟩
          refine ⟨hx, ?_, hpx⟩
          rintro rfl
          exact hqq (some.inj (hpx.symm.trans hpar))
        · rintro ⟨hx, _, hpx⟩
          exact ⟨hx, hpx⟩
  · intro x q' hx _ hpx
    rw [hlive] at hx ⊢
    rw [hparent] at hpx
    exact h.parents x q' hx hpx

/-- **Linking** puts a process that is in no list in front of the list of its parent. -/
theorem TreeOff.link (h : TreeOff s p) (hp : s.live p = true) (hq : s.live q = true)
    (hpar : s.parent p = some q) : Tree (s.link q p) := by
  constructor
  · intro q' hq'
    obtain ⟨l, hc, hl⟩ := h.lists q' hq'
    have hnext : ∀ x ∈ l, (s.link q p).nextSibling x = s.nextSibling x := by
      intro x hx
      simp [PState.link, ((hl x).mp hx).2.1]
    by_cases hqq : q' = q
    · subst hqq
      refine ⟨p :: l, ?_, fun x => ?_⟩
      · have hfirst : (s.link q' p).firstChild q' = some p := by simp [PState.link]
        rw [hfirst]
        exact chain_push hc (by simp [PState.link]) hnext
      · rw [mem_cons, hl x]
        by_cases hxp : x = p
        · subst hxp
          exact ⟨fun _ => ⟨hp, hpar⟩, fun _ => .inl rfl⟩
        · simp [hxp, PState.link]
    · refine ⟨l, ?_, fun x => (hl x).trans ?_⟩
      · have hfirst : (s.link q p).firstChild q' = s.firstChild q' := by simp [PState.link, hqq]
        rw [hfirst]
        exact chain_congr hnext hc
      constructor
      · rintro ⟨hx, _, hpx⟩
        exact ⟨hx, hpx⟩
      · rintro ⟨hx, hpx⟩
        refine ⟨hx, ?_, hpx⟩
        rintro rfl
        exact hqq (some.inj (hpx.symm.trans hpar))
  · intro x q' hx hpx
    by_cases hxp : x = p
    · subst hxp
      obtain rfl := some.inj (hpar.symm.trans hpx)
      exact hq
    · exact h.parents x q' hx hxp hpx

end Tree

end AxonOS.Process

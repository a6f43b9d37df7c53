import AxonOS.Process.Links
import AxonOS.Lib.Run

/-! # When the process tree stays a tree

Creating, adopting and reparenting keep the child lists. Two things do not. The last pass of
`process_find_child` puts a process into the list of the caller without taking it out of the list of
its parent. And a process is freed with whatever children it has. Without these two (`Harmless`) the
tree stays a tree in every run, and either of them breaks it.
-/

namespace AxonOS.Process

open Lib List Option Function PState

variable {s s' : PState} {p q process : Nat} {newParent : Option Nat} {l : List Nat} {op : TreeOp}

/-! ## Creating and freeing -/

theorem Tree.alloc (h : Tree s) (hp : s.live p = false) (slot pid : Nat) (pgid : Int)
    (parent : Option Nat) : TreeOff (s.alloc slot p pid pgid parent) p := by
  have hne : ∀ {x}, s.live x = true → x ≠ p := by
    rintro x hx rfl
    rw [hp] at hx
    cases hx
  have hold : ∀ x q, (s.alloc slot p pid pgid parent).live x = true ∧ x ≠ p
      ∧ (s.alloc slot p pid pgid parent).parent x = some q ↔ s.live x = true
      ∧ s.parent x = some q := by
    intro x q
    by_cases hx : x = p
    · simp [hx, hp]
    · simp [PState.alloc, hx]
  constructor
  · intro q hq
    by_cases hqp : q = p
    · -- nobody has a parent that is not allocated
      subst hqp
      refine ⟨[], by simp [PState.alloc], fun x => iff_of_false not_mem_nil fun hx => ?_⟩
      obtain ⟨hx, hpx⟩ := (hold x q).mp hx
      exact hne (h.parents x q hx hpx) rfl
    · have hq : s.live q = true := by simpa [PState.alloc, hqp] using hq
      obtain ⟨l, hc, hl⟩ := h.lists q hq
      refine ⟨l, ?_, fun x => (hl x).trans (hold x q).symm⟩
      have hfirst : (s.alloc slot p pid pgid parent).firstChild q = s.firstChild q := by
        simp [PState.alloc, hqp]
      rw [hfirst]
      refine chain_congr (fun x hx => ?_) hc
      simp [PState.alloc, hne ((hl x).mp hx).1]
  · intro x q hx hxp hpx
    obtain ⟨hx, hpx⟩ := (hold x q).mp ⟨hx, hxp, hpx⟩
    have hq := h.parents x q hx hpx
    simp [PState.alloc, hne hq, hq]

theorem Tree.create (h : Tree s) {parent : Option Nat}
    (hparent : ∀ q, parent = some q → s.live q = true) (hp : s.live p = false) :
    Tree (s.processCreate parent p) := by
  unfold processCreate
  split
  · exact h
  next slot _ =>
  have halloc : ∀ (n pid : Nat) (pgid : Int) (q : Option Nat),
      TreeOff (PState.alloc { s with nextPid := n } slot p pid pgid q) p :=
    fun n => have hs : Tree { s with nextPid := n } := { h with }
      hs.alloc hp slot
  cases parent with
  | none => exact (halloc _ _ _ _).tree (update_self _ _ _)
  | some q =>
    have hq := hparent q rfl
    refine (halloc _ _ _ _).link (update_self _ _ _) ?_ (update_self _ _ _)
    by_cases hqp : q = p
    · subst hqp
      simp [PState.alloc]
    · simpa [PState.alloc, hqp] using hq

@[simp] theorem free_same : (s.free p).live = update s.live p false
      ∧ (s.free p).parent = update s.parent p none
      ∧ (s.free p).firstChild = s.firstChild ∧ (s.free p).nextSibling = update s.nextSibling p none
      ∧ (s.free p).hung = s.hung := by
  unfold PState.free dropSlot
  dsimp only
  split <;> exact ⟨rfl, rfl, rfl, rfl, rfl⟩

theorem free_live : (s.free p).live = update s.live p false := free_same.1

theorem free_parent : (s.free p).parent = update s.parent p none := free_same.2.1

/-- A process that is in no list, and parent of no other, can go. -/
theorem TreeOff.free (h : TreeOff s p)
    (hchildren : ∀ c, s.live c = true → c ≠ p → s.parent c ≠ some p) : Tree (s.free p) := by
  have hlive : ∀ {x}, (s.free p).live x = true → s.live x = true ∧ x ≠ p := by
    intro x hx
    by_cases hxp : x = p
    · subst hxp
      simp at hx
    · simpa [hxp] using hx
  constructor
  · intro q hq
    obtain ⟨hq, hqp⟩ := hlive hq
    obtain ⟨l, hc, hl⟩ := h.lists q hq
    refine ⟨l, ?_, fun x => (hl x).trans ?_⟩
    · rw [free_same.2.2.1]
      refine chain_congr (fun x hx => ?_) hc
      simp [((hl x).mp hx).2.1]
    · by_cases hxp : x = p
      · subst hxp
        simp
      · simp [hxp]
  · intro x q hx' hpx
    obtain ⟨hx, hxp⟩ := hlive hx'
    rw [free_parent, update_of_ne hxp] at hpx
    have hq := h.parents x q hx hxp hpx
    have hqp : q ≠ p := by
      rintro rfl
      exact hchildren x hx hxp hpx
    rw [free_live, update_of_ne hqp]
    exact hq

/-- Freeing breaks the tree if and only if the process has children. -/
theorem TreeOff.free_iff (h : TreeOff s p) :
    Tree (s.free p) ↔ ∀ c, s.live c = true → c ≠ p → s.parent c ≠ some p := by
  constructor
  · intro htree c hc hcp hpar
    have hlive : (s.free p).live c = true := by
      rw [free_live, update_of_ne hcp]
      exact hc
    have hparent : (s.free p).parent c = some p := by
      rw [free_parent, update_of_ne hcp]
      exact hpar
    have := htree.parents c p hlive hparent
    simp at this
  · exact h.free

/-! ## The table -/

theorem Tabled.link (h : Tabled s) : Tabled (s.link q p) := { h with }

theorem Tabled.create (h : Tabled s) {parent : Option Nat} (hp : s.live p = false) :
    Tabled (s.processCreate parent p) := by
  have hnot : ∀ i, s.processTable i ≠ some p := by
    intro i hi
    have := h.entry i p hi
    rw [hp] at this
    cases this
  unfold processCreate
  split
  · exact h
  next slot hslot =>
  have hspec := firstFree_spec _ _ _ hslot
  have halloc : ∀ (n pid : Nat) (pgid : Int) (q : Option Nat),
      Tabled (PState.alloc { s with nextPid := n } slot p pid pgid q) := by
    intro n pid pgid q
    constructor
    · intro x hx
      by_cases hxp : x = p
      · subst hxp
        exact ⟨slot, by omega, by simp [PState.alloc]⟩
      have hlive : s.live x = true := by simpa [PState.alloc, hxp] using hx
      obtain ⟨i, hi, htable⟩ := h.slot x hlive
      have hne : i ≠ slot := by
        rintro rfl
        rw [hspec.1] at htable
        cases htable
      exact ⟨i, hi, by simpa [PState.alloc, hne] using htable⟩
    · intro i x hx
      by_cases hi : i = slot
      · subst hi
        have : p = x := by simpa [PState.alloc] using hx
        subst this
        simp [PState.alloc]
      · have htable : s.processTable i = some x := by simpa [PState.alloc, hi] using hx
        have hxp : x ≠ p := by
          rintro rfl
          exact hnot i htable
        simpa [PState.alloc, hxp] using h.entry i x htable
    · intro i j x hi hj
      by_cases his : i = slot <;> by_cases hjs : j = slot
      · exact his.trans hjs.symm
      · have hx : p = x := by simpa [PState.alloc, his] using hi
        have hx' : s.processTable j = some x := by simpa [PState.alloc, hjs] using hj
        exact absurd (hx ▸ hx') (hnot j)
      · have hx : p = x := by simpa [PState.alloc, hjs] using hj
        have hx' : s.processTable i = some x := by simpa [PState.alloc, his] using hi
        exact absurd (hx ▸ hx') (hnot i)
      · exact h.once i j x (by simpa [PState.alloc, his] using hi)
          (by simpa [PState.alloc, hjs] using hj)
  cases parent with
  | none => exact halloc _ _ _ _
  | some q => exact (halloc _ _ _ _).link

theorem dropSlot_processTable {k : Nat} (h : (List.range PROCESS_TABLE_MAX).find?
    (fun i => s.processTable i == some p) = some k) :
    (s.dropSlot p).processTable = update s.processTable k none := by
  unfold dropSlot
  rw [h]

theorem Tabled.free (h : Tabled s) (hp : s.live p = true) : Tabled (s.free p) := by
  obtain ⟨i, hi, htable⟩ := h.slot p hp
  -- the slot that is cleared is the only one
  have hfind : ∃ k, (List.range PROCESS_TABLE_MAX).find?
      (fun i => s.processTable i == some p) = some k
      ∧ s.processTable k = some p := by
    cases hf : (List.range PROCESS_TABLE_MAX).find? (fun i => s.processTable i == some p) with
    | none =>
      have := find?_eq_none.mp hf i (mem_range.mpr hi)
      simp [htable] at this
    | some k =>
      have := find?_some hf
      exact ⟨k, rfl, by simpa using this⟩
  obtain ⟨k, hfind, hk⟩ := hfind
  have hproc : (s.free p).processTable = update s.processTable k none := by
    unfold PState.free
    dsimp only
    exact dropSlot_processTable (s := { s with
      parent := update s.parent p none, nextSibling := update s.nextSibling p none }) hfind
  have hlive : ∀ x, x ≠ p → (s.free p).live x = s.live x := by
    intro x hx
    rw [free_live, update_of_ne hx]
  have hold : ∀ {j x}, (s.free p).processTable j = some x → j ≠ k ∧ s.processTable j = some x := by
    intro j x hx
    rw [hproc] at hx
    have hjk : j ≠ k := by
      rintro rfl
      simp at hx
    rw [update_of_ne hjk] at hx
    exact ⟨hjk, hx⟩
  constructor
  · intro x hx
    have hxp : x ≠ p := by
      rintro rfl
      simp at hx
    rw [hlive x hxp] at hx
    obtain ⟨j, hj, hjx⟩ := h.slot x hx
    have hjk : j ≠ k := by
      rintro rfl
      exact hxp (some.inj (hjx.symm.trans hk))
    exact ⟨j, hj, by rw [hproc, update_of_ne hjk, hjx]⟩
  · intro j x hx
    obtain ⟨hjk, hjx⟩ := hold hx
    have hxp : x ≠ p := by
      rintro rfl
      exact hjk (h.once j k x hjx hk)
    rw [hlive x hxp]
    exact h.entry j x hjx
  · exact fun j j' x hj hj' => h.once j j' x (hold hj).2 (hold hj').2

/-! ## Removing -/

theorem unlink_same (s : PState) (q p : Nat) (prev : Option Nat) :
    (s.unlink q p prev).live = s.live ∧ (s.unlink q p prev).parent = s.parent
      ∧ (s.unlink q p prev).processTable = s.processTable ∧ (s.unlink q p prev).hung = s.hung := by
  cases prev <;> exact ⟨rfl, rfl, rfl, rfl⟩

/-- No other process has `p` as parent. -/
def Barren (s : PState) (p : Nat) : Prop := ∀ c, s.live c = true → c ≠ p → s.parent c ≠ some p

/-- What a step does that frees `p` if `frees`, and nothing else: `p` is in no list by then. -/
def Removes (frees : Prop) (s s' : PState) (p : Nat) : Prop :=
  (¬ frees ∧ s' = s) ∨ (frees ∧ ∃ s1, s' = s1.free p ∧ TreeOff s1 p ∧ s1.live = s.live
    ∧ s1.parent = s.parent
    ∧ s1.processTable = s.processTable ∧ s1.hung = s.hung)

section

variable (h : Tree s) (ht : Tabled s)

include h ht

theorem removes_reap (hq : s.live q = true) (hp : s.live p = true) :
    Removes (s.zombie p = true ∧ s.parent p = some q) s (s.processReap q p).1 p := by
  unfold processReap
  split
  next hz => exact .inl ⟨fun hfrees => by simp [hfrees.1] at hz, rfl⟩
  next hz =>
  by_cases hpar : s.parent p = some q
  · obtain ⟨prev, hprev⟩ := findLink_of_parent h ht hp hpar
    obtain ⟨hlive, hparent, htable, hhung⟩ := unlink_same s q p prev
    rw [hprev]
    exact .inr ⟨⟨by simpa using hz, hpar⟩, _, rfl, h.unlink ht hp hpar hprev, hlive,
      hparent, htable, hhung⟩
  · rw [findLink_of_not_parent h ht hq hpar]
    exact .inl ⟨fun hfrees => hpar hfrees.2, rfl⟩

theorem removes_reapZombie (hp : s.live p = true) :
    Removes (s.zombie p = true) s (s.processReapZombie p).1 p := by
  unfold processReapZombie
  split
  next hz => exact .inl ⟨fun hfrees => by simp [hfrees] at hz, rfl⟩
  next hz =>
  have hz : s.zombie p = true := by simpa using hz
  cases hpar : s.parent p with
  | none => exact .inr ⟨hz, s, rfl, h.off hpar, rfl, rfl, rfl, rfl⟩
  | some q =>
    obtain ⟨prev, hprev⟩ := findLink_of_parent h ht hp hpar
    obtain ⟨hlive, hparent, htable, hhung⟩ := unlink_same s q p prev
    dsimp only
    rw [hprev]
    exact .inr ⟨hz, _, rfl, h.unlink ht hp hpar hprev, hlive, hparent, htable, hhung⟩

theorem removes_discard (hq : s.live q = true) (hp : s.live p = true) :
    Removes (s.parent p = some q) s (s.processDiscard q p).1 p := by
  unfold processDiscard
  by_cases hpar : s.parent p = some q
  · obtain ⟨prev, hprev⟩ := findLink_of_parent h ht hp hpar
    obtain ⟨hlive, hparent, htable, hhung⟩ := unlink_same s q p prev
    rw [hprev]
    dsimp only
    rw [if_neg (by simp [hpar])]
    refine .inr ⟨hpar, _, rfl, ?_, hlive, hparent, htable, hhung⟩
    exact (h.unlink ht hp hpar hprev).congr rfl rfl (fun _ _ => rfl) fun _ _ => rfl
  · rw [findLink_of_not_parent h ht hq hpar]
    exact .inl ⟨hpar, rfl⟩

end

theorem Removes.tabled {frees : Prop} (h : Removes frees s s' p) (ht : Tabled s)
    (hp : s.live p = true) :
    Tabled s' := by
  rcases h with ⟨-, rfl⟩ | ⟨-, s1, rfl, _, hlive, _, htable, _⟩
  · exact ht
  · exact (ht.congr hlive htable).free (by rw [hlive]; exact hp)

/-- The tree is a tree and no CPU hangs. -/
structure Intact (s : PState) : Prop where
  tree : Tree s
  running : s.hung = false

/-- A step that may free a process keeps the tree if and only if the process it frees has no
children. -/
theorem Removes.iff {frees : Prop} (h : Removes frees s s' p) (hs : Intact s) :
    Intact s' ↔ (frees → Barren s p) := by
  rcases h with ⟨hnot, rfl⟩ | ⟨hfrees, s1, rfl, hoff, hlive, hparent, _, hhung'⟩
  · exact iff_of_true hs fun hfrees => absurd hfrees hnot
  have hiff := hoff.free_iff
  rw [hlive, hparent] at hiff
  constructor
  · exact fun h _ => hiff.mp h.tree
  · exact fun hbarren => ⟨hiff.mpr (hbarren hfrees), by rw [free_same.2.2.2.2, hhung', hs.running]⟩

/-! ## Moving children -/

/-- Moving the rest `l` of the children of `process`: with the pointer to the rest in its place, the
tree is a tree all the time. -/
theorem moveChildren_tree (hne : newParent ≠ some process) (hprocess : s.live process = true)
    (hnew : ∀ q, newParent = some q → s.live q = true) (ht : Tabled s) :
    ∀ {n : Nat} {child : Option Nat}, l.length ≤ n → s.firstChild process = none →
      Chain s.nextSibling child l → Tree { s with firstChild := update s.firstChild process child }
      → Tree (moveChildren newParent n s child) ∧ (moveChildren newParent n s child).hung = s.hung
        ∧ (moveChildren newParent n s child).live = s.live
        ∧ (moveChildren newParent n s child).processTable = s.processTable := by
  induction l generalizing s with
  | nil =>
    intro n child _ hfirst hc htree
    subst hc
    have hsame : Tree s := by
      refine htree.congr rfl rfl ?_ rfl
      rw [← hfirst, update_eq_self]
    cases n <;> exact ⟨hsame, rfl, rfl, rfl⟩
  | cons c l ih =>
    intro n child hlen hfirst hc htree
    have hnd := chain_nodup hc
    have hcl : ∀ x ∈ l, x ≠ c := by
      rintro x hx rfl
      exact (nodup_cons.mp hnd).1 hx
    obtain ⟨rfl, hc⟩ := hc
    obtain ⟨n, rfl⟩ : ∃ k, n = k + 1 := by
      rw [length_cons] at hlen
      exact ⟨n - 1, by omega⟩
    have hlen' : l.length ≤ n := by simpa using hlen
    -- take `c` out of the list of `process`, where it is the first
    have hmem : s.live c = true ∧ s.parent c = some process := by
      obtain ⟨l', hc', hl'⟩ := htree.lists process hprocess
      simp only [update_self] at hc'
      obtain ⟨t, rfl, _⟩ := chain_some hc'
      exact (hl' c).mp mem_cons_self
    have hprev : findLink { s with firstChild := update s.firstChild process (some c) } process c
        = some (some none) := by
      simp [findLink, PROCESS_TABLE_MAX, chainPred]
    have hoff := htree.unlink { ht with } hmem.1 hmem.2 hprev
    simp only [unlink, update_idem] at hoff
    have hchain : ∀ (next : Nat → Option Nat), (∀ x, x ≠ c → next x = s.nextSibling x) →
        Chain next (s.nextSibling c) l :=
      fun next hnext => chain_congr (fun x hx => hnext x (hcl x hx)) hc
    cases newParent with
    | none =>
      refine ih (s := { s with
        parent := update s.parent c none, nextSibling := update s.nextSibling c none })
        hprocess hnew { ht with } hlen' hfirst (hchain _ fun x hx => ?_) ?_
      · exact update_of_ne hx _ _
      · refine TreeOff.tree (hoff.congr rfl rfl (fun x hx => ?_) fun x hx => ?_) ?_
        · exact update_of_ne hx _ _
        · exact update_of_ne hx _ _
        · exact update_self _ _ _
    | some q =>
      have hqp : q ≠ process := fun heq => hne (congrArg some heq)
      refine ih (s := (s.setParent c (some q)).link q c)
        hprocess hnew { ht with } hlen' ?_ (hchain _ fun x hx => ?_) ?_
      · simp [PState.link, setParent, Ne.symm hqp, hfirst]
      · simp [PState.link, setParent, hx]
      have hlinked := TreeOff.link (s := { s with
        firstChild := update s.firstChild process (s.nextSibling c)
        parent := update s.parent c (some q) })
        (hoff.congr rfl rfl (fun x hx => update_of_ne hx _ _) fun _ _ => rfl)
        hmem.1 (hnew q rfl) (update_self _ _ _)
      refine hlinked.congr rfl rfl ?_ ?_
      · exact update_comm hqp _ _ _
      · simp [PState.link, setParent, hqp]

theorem reparent_spec (h : Tree s) (ht : Tabled s) (hprocess : s.live process = true)
    (hnew : ∀ q, newParent = some q → s.live q = true) {s' : PState}
    (hs' : s.processReparentChildren process newParent = s') :
    Tree s' ∧ s'.hung = s.hung ∧ s'.live = s.live ∧ s'.processTable = s.processTable := by
  subst hs'
  unfold processReparentChildren
  split
  · exact ⟨h, rfl, rfl, rfl⟩
  next hne =>
  obtain ⟨l, hc, hl⟩ := h.lists process hprocess
  refine moveChildren_tree (s := { s with firstChild := update s.firstChild process none }) hne
    hprocess hnew { ht with } (Tree.length_le ht hc hl) (update_self _ _ _) hc ?_
  refine h.congr rfl rfl ?_ rfl
  rw [update_idem, update_eq_self]

/-! ## Repairs -/

/-- Whether a process is listed, as the loop finds it. -/
theorem listed_eq (h : Tree s) (ht : Tabled s) (hq : s.live q = true) (hp : s.live p = true) :
    s.listed q p = some (decide (s.parent p = some q)) := by
  obtain ⟨l, hc, hl⟩ := h.lists q hq
  have hlen := Tree.length_le ht hc hl
  unfold listed
  rw [chainFind_eq _ hc hlen, map_some]
  congr 1
  rw [Bool.eq_iff_iff, find?_isSome, decide_eq_true_iff]
  constructor
  · rintro ⟨x, hx, heq⟩
    obtain rfl := eq_of_beq heq
    exact ((hl x).mp hx).2
  · exact fun hpar => ⟨p, (hl p).mpr ⟨hp, hpar⟩, beq_self_eq_true p⟩

/-- What repairs for `parent` may change: the first child of `parent`, and the links of processes
that get it as parent. -/
structure Repaired (parent : Nat) (s s' : PState) : Prop where
  first : ∀ q, q ≠ parent → s'.firstChild q = s.firstChild q
  same : ∀ x, (s'.parent x = s.parent x ∧ s'.nextSibling x = s.nextSibling x)
    ∨ (s'.parent x = some parent ∧ s.live x = true)
  live : s'.live = s.live
  table : s'.processTable = s.processTable
  rest : s'.leader = s.leader ∧ s'.threads = s.threads ∧ s'.pid = s.pid ∧ s'.pgid = s.pgid

theorem Repaired.refl (parent : Nat) (s : PState) : Repaired parent s s :=
  ⟨fun _ _ => rfl, fun _ => .inl ⟨rfl, rfl⟩, rfl, rfl, rfl, rfl, rfl, rfl⟩

theorem Repaired.trans {parent : Nat} {s1 s2 s3 : PState} (h : Repaired parent s1 s2)
    (h' : Repaired parent s2 s3) : Repaired parent s1 s3 where
  first q hq := (h'.first q hq).trans (h.first q hq)
  same x := by
    rcases h'.same x with ⟨hpar, hnext⟩ | hpar
    · rw [hpar, hnext]
      exact h.same x
    · rw [h.live] at hpar
      exact .inr hpar
  live := h'.live.trans h.live
  table := h'.table.trans h.table
  rest := ⟨h'.rest.1.trans h.rest.1, h'.rest.2.1.trans h.rest.2.1, h'.rest.2.2.1.trans h.rest.2.2.1,
    h'.rest.2.2.2.trans h.rest.2.2.2⟩

theorem Repaired.parent {parent : Nat} (h : Repaired parent s s') (x : Nat) :
    s'.parent x = s.parent x ∨ s'.parent x = some parent := (h.same x).imp And.left And.left

theorem Repaired.forkedBy {parent : Nat} (h : Repaired parent s s') (q : Nat) (pid pgid : Int) :
    forkedBy q pid pgid s' = forkedBy q pid pgid s := by
  obtain ⟨hleader, hthreads, hpid, hpgid⟩ := h.rest
  funext x
  unfold PState.forkedBy processWaitSpecMatch
  rw [hleader, hthreads, hpid, hpgid]

theorem repaired_relink (parent : Nat) (hp : s.live p = true) :
    Repaired parent s (s.relinkChild parent p) := by
  have hset : ∀ s1 : PState, (∀ q, q ≠ parent → s1.firstChild q = s.firstChild q) →
      (∀ x, x ≠ p → s1.nextSibling x = s.nextSibling x) → s1.parent = update s.parent p
      (some parent) → s1.live = s.live → s1.processTable = s.processTable →
      s1.leader = s.leader ∧ s1.threads = s.threads ∧ s1.pid = s.pid ∧ s1.pgid = s.pgid →
      Repaired parent s s1 := by
    intro s1 hfirst hnext hparent hlive htable hrest
    refine ⟨hfirst, fun x => ?_, hlive, htable, hrest⟩
    by_cases hx : x = p
    · subst hx
      exact .inr ⟨by rw [hparent, update_self], hp⟩
    · exact .inl ⟨by rw [hparent, update_of_ne hx], hnext x hx⟩
  unfold relinkChild
  split
  · exact .refl parent s
  dsimp only
  split
  · exact hset _ (fun _ _ => rfl) (fun _ _ => rfl) rfl rfl rfl ⟨rfl, rfl, rfl, rfl⟩
  · exact hset _ (fun _ _ => rfl) (fun _ _ => rfl) rfl rfl rfl ⟨rfl, rfl, rfl, rfl⟩
  · exact hset _ (fun q hq => update_of_ne hq _ _) (fun x hx => update_of_ne hx _ _) rfl rfl rfl
      ⟨rfl, rfl, rfl, rfl⟩

theorem relinkChild_parent (hhung : s.hung = false) (parent p : Nat) :
    (s.relinkChild parent p).parent p = some parent := by
  unfold relinkChild
  rw [if_neg (by simp [hhung])]
  dsimp only
  split <;> exact update_self _ _ _

/-- A process without a parent gets one, or has it already. -/
theorem Intact.relink (h : Intact s) (ht : Tabled s) (hq : s.live q = true) (hp : s.live p = true)
    (hpar : s.parent p = none ∨ s.parent p = some q) : Intact (s.relinkChild q p) := by
  have hlisted : (s.setParent p (some q)).listed q p = some (decide (s.parent p = some q)) :=
    listed_eq h.tree ht hq hp
  unfold relinkChild
  rw [if_neg (by simp [h.running])]
  dsimp only
  rw [hlisted]
  rcases hpar with hnone | hsome
  · rw [hnone]
    refine ⟨TreeOff.link ?_ hp hq (update_self _ _ _), h.running⟩
    exact (h.tree.off hnone).congr rfl rfl (fun x hx => update_of_ne hx _ _) fun _ _ => rfl
  · rw [hsome]
    simp only [decide_true]
    refine ⟨h.tree.congr rfl ?_ rfl rfl, h.running⟩
    rw [setParent, ← hsome, update_eq_self]

section Passes

variable (candidate : PState → Nat → Bool) (parent : Nat) (wanted : Nat → Bool)

/-- A slot of a pass is passed over, or its process gets `parent` as parent. -/
theorem repairSlot_cases (acc : PState × Bool × Option Nat) (i : Nat) :
    (repairSlot candidate parent wanted acc i).1 = acc.1 ∨ ∃ p, acc.1.processTable i = some p
        ∧ (repairSlot candidate parent wanted acc i).1 = acc.1.relinkChild parent p := by
  unfold repairSlot
  split
  · exact .inl rfl
  cases hp : acc.1.processTable i with
  | none => exact .inl rfl
  | some p =>
    dsimp only
    split
    · exact .inr ⟨p, rfl, rfl⟩
    · exact .inl rfl

theorem repaired_slots (slots : List Nat) (acc : PState × Bool × Option Nat) (ht : Tabled acc.1) :
    Repaired parent acc.1 (slots.foldl (repairSlot candidate parent wanted) acc).1 := by
  induction slots generalizing acc with
  | nil => exact .refl parent acc.1
  | cons i slots ih =>
    have hstep : Repaired parent acc.1 (repairSlot candidate parent wanted acc i).1 := by
      rcases repairSlot_cases candidate parent wanted acc i with heq | ⟨p, hp, heq⟩
      · rw [heq]
        exact .refl parent acc.1
      · rw [heq]
        exact repaired_relink parent (ht.entry i p hp)
    exact hstep.trans (ih _ (ht.congr hstep.live hstep.table))

theorem slots_hung (slots : List Nat) (acc : PState × Bool × Option Nat) (h : acc.1.hung = true) :
    (slots.foldl (repairSlot candidate parent wanted) acc).1.hung = true := by
  induction slots generalizing acc with
  | nil => exact h
  | cons i slots ih =>
    refine ih _ ?_
    rcases repairSlot_cases candidate parent wanted acc i with heq | ⟨p, hp, heq⟩
    · rwa [heq]
    · rw [heq, relinkChild, if_pos h]
      exact h

/-- A pass with a result is over. -/
theorem slots_done (slots : List Nat) (acc : PState × Bool × Option Nat)
    (h : acc.2.2.isSome = true) :
    slots.foldl (repairSlot candidate parent wanted) acc = acc := by
  induction slots with
  | nil => rfl
  | cons i slots ih => rw [foldl_cons, repairSlot, if_pos h, ih]

/-- A pass without candidates does nothing. -/
theorem slots_idle (slots : List Nat) (acc : PState × Bool × Option Nat)
    (h : ∀ i p, acc.1.processTable i = some p → candidate acc.1 p = false) :
    slots.foldl (repairSlot candidate parent wanted) acc = acc := by
  induction slots with
  | nil => rfl
  | cons i slots ih =>
    have hslot : repairSlot candidate parent wanted acc i = acc := by
      unfold repairSlot
      split
      · rfl
      cases hp : acc.1.processTable i with
      | none => rfl
      | some p => simp [h i p hp]
    rw [foldl_cons, hslot, ih]

end Passes

section Forked

variable (parent : Nat) (pid pgid : Int) (wanted : Nat → Bool)

/-- The processes in the slots that the last pass takes for children of `parent`. -/
def forked (slots : List Nat) (s : PState) : List Nat :=
  (slots.filterMap s.processTable).filter (forkedBy parent pid pgid s)

/-- The last pass comes to `p`: no process that it takes for a child before `p` ends it. -/
def Reaches (slots : List Nat) (s : PState) (p : Nat) : Prop :=
  ∃ pre post, forked parent pid pgid slots s = pre ++ p :: post ∧ ∀ x ∈ pre, wanted x = false

variable {parent pid pgid wanted} {a : PState × Bool × Option Nat} {i : Nat} {slots : List Nat}

/-- The first slot of the pass holds no process that is taken for a child, or one that is
relinked. -/
theorem forked_slot (wanted : Nat → Bool) (hres : a.2.2 = none) :
    (repairSlot (forkedBy parent pid pgid) parent wanted a i = a
        ∧ forked parent pid pgid (i :: slots) a.1 = forked parent pid pgid slots a.1)
      ∨ ∃ p, a.1.processTable i = some p
        ∧ repairSlot (forkedBy parent pid pgid) parent wanted a i
          = (a.1.relinkChild parent p, true, if wanted p then some p else none)
        ∧ forked parent pid pgid (i :: slots) a.1 = p :: forked parent pid pgid slots a.1 := by
  unfold repairSlot forked
  rw [hres]
  cases hp : a.1.processTable i with
  | none => exact .inl ⟨rfl, by rw [filterMap_cons_none hp]⟩
  | some p =>
    by_cases hc : forkedBy parent pid pgid a.1 p = true
    · exact .inr ⟨p, rfl, by simp [hc], by rw [filterMap_cons_some hp, filter_cons_of_pos hc]⟩
    · exact .inl ⟨by simp [hc], by rw [filterMap_cons_some hp, filter_cons_of_neg hc]⟩

theorem forked_relink {p : Nat} (hp : a.1.live p = true) :
    forked parent pid pgid slots (a.1.relinkChild parent p) = forked parent pid pgid slots a.1 := by
  have hrel := repaired_relink parent hp
  unfold forked
  rw [hrel.table, hrel.forkedBy]

/-- What the pass comes to has `parent` as parent at its end, if there is an end. -/
theorem parent_of_reaches (ht : Tabled a.1) (hres : a.2.2 = none)
    (hend : (slots.foldl (repairSlot (forkedBy parent pid pgid) parent wanted) a).1.hung = false)
    (h : Reaches parent pid pgid wanted slots a.1 p) :
    (slots.foldl (repairSlot (forkedBy parent pid pgid) parent wanted) a).1.parent p
    = some parent := by
  obtain ⟨pre, post, hcs, hpre⟩ := h
  induction slots generalizing a pre with
  | nil => simp [forked] at hcs
  | cons i slots ih =>
    rw [foldl_cons] at hend ⊢
    rcases forked_slot wanted hres with ⟨heq, hsame⟩ | ⟨x, hx, heq, hcons⟩
    · rw [heq] at hend ⊢
      exact ih ht hres hend pre (hsame.symm.trans hcs) hpre
    have hlive := ht.entry i x hx
    have hrel := repaired_relink parent hlive
    have ht' : Tabled (a.1.relinkChild parent x) := ht.congr hrel.live hrel.table
    rw [heq] at hend ⊢
    rw [hcons] at hcs
    cases pre with
    | nil =>
      obtain ⟨rfl, -⟩ := List.cons.inj hcs
      have hrun : a.1.hung = false := by
        by_contra hhung
        rw [slots_hung _ parent wanted slots _ ?_] at hend
        · cases hend
        · rw [relinkChild, if_pos (by simpa using hhung)]
          simpa using hhung
      have hrest := repaired_slots (forkedBy parent pid pgid) parent wanted slots
        (a.1.relinkChild parent x, true, if wanted x then some x else none) ht'
      rcases hrest.parent x with hsame | hnew
      · exact hsame.trans (relinkChild_parent hrun parent x)
      · exact hnew
    | cons y pre =>
      obtain ⟨rfl, htail⟩ := List.cons.inj hcs
      have hnot := hpre x mem_cons_self
      refine ih ht' (by simp [hnot]) hend pre ?_ fun y hy => hpre y (mem_cons_of_mem x hy)
      exact (forked_relink hlive).trans htail

/-- The last pass keeps the tree if the processes that it comes to have no parent, or this one. -/
theorem slots_intact (h : Intact a.1) (ht : Tabled a.1) (hres : a.2.2 = none)
    (hq : a.1.live parent = true) (hall : ∀ p, Reaches parent pid pgid wanted slots a.1 p →
      a.1.parent p = none ∨ a.1.parent p = some parent) :
    Intact (slots.foldl (repairSlot (forkedBy parent pid pgid) parent wanted) a).1 := by
  induction slots generalizing a with
  | nil => exact h
  | cons i slots ih =>
    rw [foldl_cons]
    rcases forked_slot wanted hres with ⟨heq, hsame⟩ | ⟨x, hx, heq, hcons⟩
    · rw [heq]
      refine ih h ht hres hq fun p hp => hall p ?_
      unfold Reaches at hp ⊢
      rwa [hsame]
    have hlive := ht.entry i x hx
    have hrel := repaired_relink parent hlive
    have hintact := h.relink ht hq hlive (hall x ⟨[], _, hcons, nofun⟩)
    rw [heq]
    cases hx' : wanted x with
    | true =>
      rw [slots_done _ _ _ _ _ (by simp)]
      exact hintact
    | false =>
      refine ih hintact (ht.congr hrel.live hrel.table) (by simp)
        (by rw [hrel.live]; exact hq) fun p hp => ?_
      obtain ⟨pre, post, hcs, hpre⟩ := hp
      rw [forked_relink hlive] at hcs
      rcases hrel.parent p with hsame | hnew
      · rw [hsame]
        refine hall p ⟨x :: pre, post, by rw [hcons, hcs]; rfl, ?_⟩
        exact forall_mem_cons.mpr ⟨hx', hpre⟩
      · exact .inr hnew

end Forked

/-! ## Searching for a child -/

/-- The loop over the children comes to an end, and finds out whether one fits. -/
theorem scanChildren_spec {next : Nat → Option Nat} (fits wanted : Nat → Bool) :
    ∀ {h : Option Nat} {n : Nat} (matched : Bool), Chain next h l → l.length ≤ n →
      ∃ r, scanChildren next fits wanted n matched h = some r
        ∧ (r.1 = false ↔ matched = false ∧ ∀ x ∈ l, fits x = false) := by
  induction l with
  | nil =>
    intro h n matched hc _
    subst hc
    cases n <;> exact ⟨_, rfl, by simp⟩
  | cons x l ih =>
    intro h n matched hc hlen
    obtain ⟨rfl, hc⟩ := hc
    cases n with
    | zero => simp at hlen
    | succ n =>
      have hlen' : l.length ≤ n := by simpa using hlen
      unfold scanChildren
      split
      next hfits =>
        obtain ⟨r, hr, hiff⟩ := ih matched hc hlen'
        exact ⟨r, hr, by simp_all⟩
      next hfits =>
        split
        · exact ⟨_, rfl, by simp_all⟩
        · obtain ⟨r, hr, hiff⟩ := ih true hc hlen'
          exact ⟨r, hr, by simp_all⟩

/-- No child of `parent` is one that is searched for. -/
def Misses (s : PState) (parent : Nat) (pid pgid : Int) : Prop :=
  ∀ c, s.live c = true → s.parent c = some parent → s.processWaitSpecMatch pid pgid c = false

section FindChild

variable (h : Tree s) (ht : Tabled s) {parent : Nat} (pid pgid : Int) (zombiesOnly : Bool)

include h ht

/-- What a search does: nothing if a child fits, and else the last pass of repairs. -/
theorem findChild_cases (hq : s.live parent = true) {s' : PState}
    (hs' : (s.processFindChild parent pid pgid zombiesOnly).1 = s') :
      (¬ Misses s parent pid pgid ∧ s' = s)
      ∨ (Misses s parent pid pgid ∧ s' = (repairPass (forkedBy parent pid pgid) parent
              (fun p => !zombiesOnly || s.zombie p) (s, false, none)).1) := by
  subst hs'
  obtain ⟨l, hc, hl⟩ := h.lists parent hq
  obtain ⟨⟨matched, result⟩, hscan, hiff⟩ := scanChildren_spec (s.processWaitSpecMatch pid pgid)
    (fun p => !zombiesOnly || s.zombie p) false hc (Tree.length_le ht hc hl)
  have hmisses : matched = false ↔ Misses s parent pid pgid := by
    refine hiff.trans ⟨fun hall c hc hpar => hall.2 c ((hl c).mpr ⟨hc, hpar⟩),
      fun hmiss => ⟨rfl, fun x hx => ?_⟩⟩
    exact hmiss x ((hl x).mp hx).1 ((hl x).mp hx).2
  unfold processFindChild
  dsimp only
  rw [hscan]
  cases matched with
  | true => exact .inl ⟨fun hmiss => absurd (hmisses.mpr hmiss) (by simp), rfl⟩
  | false =>
    refine .inr ⟨hmisses.mp rfl, ?_⟩
    dsimp only
    -- who has `parent` as parent is in the list, where none fits
    rw [repairPass, slots_idle _ _ _ _ (s, false, none), if_neg (by simp)]
    intro i p hp
    by_contra hcand
    obtain ⟨hpar, hfits⟩ : s.parent p = some parent ∧ s.processWaitSpecMatch pid pgid p = true := by
      simpa [hasParent] using hcand
    rw [hmisses.mp rfl p (ht.entry i p hp) hpar] at hfits
    cases hfits

theorem repaired_findChild (hq : s.live parent = true) :
    Repaired parent s (s.processFindChild parent pid pgid zombiesOnly).1 := by
  rcases findChild_cases h ht pid pgid zombiesOnly hq rfl with ⟨-, heq⟩ | ⟨-, heq⟩
  · rw [heq]
    exact .refl parent s
  · rw [heq]
    exact repaired_slots _ parent _ _ (s, false, none) ht

/-- A search that leaves the tree intact takes no process away from its parent. -/
theorem parent_of_intact (hq : s.live parent = true) {s' : PState}
    (hs' : (s.processFindChild parent pid pgid zombiesOnly).1 = s') (htree : Tree s')
    (hp : s'.parent p ≠ s.parent p) : s.parent p = none := by
  have hrep : Repaired parent s s' := hs' ▸ repaired_findChild h ht pid pgid zombiesOnly hq
  by_contra hnone
  obtain ⟨q, hpq⟩ := ne_none_iff_exists'.mp hnone
  have hlive : s.live p = true := by
    rcases hrep.same p with ⟨heq, _⟩ | ⟨_, hlive⟩
    · exact absurd heq hp
    · exact hlive
  have hqlive := h.parents p q hlive hpq
  obtain ⟨l, hc, hl⟩ := h.lists q hqlive
  -- the first process in the list of `q` that has another parent now
  have hfind : ∃ x, l.find? (fun x => decide (s'.parent x ≠ s.parent x)) = some x := by
    rw [← isSome_iff_exists, find?_isSome]
    exact ⟨p, (hl p).mpr ⟨hlive, hpq⟩, by simpa using hp⟩
  obtain ⟨x, hfind⟩ := hfind
  obtain ⟨hx, a, b, rfl, ha⟩ := find?_eq_some_iff_append.mp hfind
  rw [decide_eq_true_eq] at hx
  have hxq : s.parent x = some q := ((hl x).mp (by simp)).2
  have hnew := (hrep.parent x).resolve_left hx
  have hne : q ≠ parent := by
    rintro rfl
    exact hx (hnew.trans hxq.symm)
  obtain ⟨l', hc', hl'⟩ := htree.lists q (by rw [hrep.live]; exact hqlive)
  rw [hrep.first q hne] at hc'
  have hmem : x ∈ l' := by
    refine mem_of_chain_prefix hc (fun y hy => ?_) hc'
    have hyq : s.parent y = some q := ((hl y).mp (by simp [hy])).2
    have hsame : s'.parent y = s.parent y := by simpa using ha y hy
    rcases hrep.same y with ⟨_, hnext⟩ | ⟨hpar, _⟩
    · exact hnext
    · exact absurd (some.inj (hyq.symm.trans (hsame.symm.trans hpar))) hne
  have := ((hl' x).mp hmem).2
  exact hne (some.inj (this.symm.trans hnew))

/-- **A search keeps the tree if and only if it comes to processes without a parent only.** -/
theorem findChild_iff (hhung : s.hung = false) (hq : s.live parent = true) {s' : PState}
    (hs' : (s.processFindChild parent pid pgid zombiesOnly).1 = s') :
    Intact s' ↔ (Misses s parent pid pgid → ∀ p,
      Reaches parent pid pgid (fun p => !zombiesOnly || s.zombie p) (List.range PROCESS_TABLE_MAX) s
      p → s.parent p = none) := by
  rcases findChild_cases h ht pid pgid zombiesOnly hq hs' with ⟨hnot, heq⟩ | ⟨hmiss, heq⟩
  · rw [heq]
    exact iff_of_true ⟨h, hhung⟩ fun hmiss => absurd hmiss hnot
  constructor
  · intro hintact _ p hreach
    refine parent_of_intact h ht pid pgid zombiesOnly hq hs' hintact.tree fun hsame => ?_
    have hpar : s'.parent p = some parent := by
      have hrun := hintact.running
      rw [heq, repairPass] at hrun ⊢
      exact parent_of_reaches (a := (s, false, none)) ht rfl hrun hreach
    -- then `p` would be a child that fits
    obtain ⟨pre, post, hcs, -⟩ := hreach
    have hmem : p ∈ forked parent pid pgid (List.range PROCESS_TABLE_MAX) s := by
      rw [hcs]
      simp
    obtain ⟨hslot, hforked⟩ := mem_filter.mp hmem
    obtain ⟨i, -, hi⟩ := mem_filterMap.mp hslot
    have hfits := hmiss p (ht.entry i p hi) (hsame ▸ hpar)
    simp [forkedBy, hfits] at hforked
  · intro hall
    rw [heq]
    exact slots_intact (a := (s, false, none)) ⟨h, hhung⟩ ht rfl hq fun p hp =>
      .inl (hall hmiss p hp)

end FindChild

/-! ## Adoption -/

theorem relinkChild_setParent (hhung : s.hung = false) (q p : Nat) (v : Option Nat) :
    s.relinkChild q p = (s.setParent p v).relinkChild q p := by
  have hidem : (s.setParent p v).setParent p (some q) = s.setParent p (some q) := by
    simp [setParent]
  unfold relinkChild
  rw [if_neg (by simp [hhung]), if_neg (by simp [setParent, hhung]), hidem]

theorem adopt_spec (h : Intact s) (ht : Tabled s) (hq : s.live q = true) (hp : s.live p = true)
    {s' : PState} (hs' : (s.processAdoptChild q p).1 = s') :
    Intact s' ∧ s'.live = s.live ∧ s'.processTable = s.processTable := by
  subst hs'
  unfold processAdoptChild
  split
  · exact ⟨h, rfl, rfl⟩
  by_cases hdirect : s.parent p = none ∨ s.parent p = some q
  · have hleave : s.leaveParent q p = s := by
      rcases hdirect with hpar | hpar
      · simp [leaveParent, hpar]
      · simp [leaveParent, hpar]
    have hrel := repaired_relink q hp
    rw [hleave]
    exact ⟨h.relink ht hq hp hdirect, hrel.live, hrel.table⟩
  · obtain ⟨hnone, hother⟩ := not_or.mp hdirect
    obtain ⟨q', hpar⟩ := ne_none_iff_exists'.mp hnone
    have hqq : q' ≠ q := by
      rintro rfl
      exact hother hpar
    obtain ⟨prev, hprev⟩ := findLink_of_parent h.tree ht hp hpar
    obtain ⟨hlive, _, htable, hhung⟩ := unlink_same s q' p prev
    have hleave : s.leaveParent q p = s.unlink q' p prev := by
      simp [leaveParent, hpar, hqq, hprev]
    rw [hleave]
    -- as if its parent had been cleared before
    have hcleared := relinkChild_setParent (hhung.trans h.running) q p none
    have hintact : Intact ((s.unlink q' p prev).setParent p none) := by
      refine ⟨TreeOff.tree ?_ (update_self _ _ _), hhung.trans h.running⟩
      exact (h.tree.unlink ht hp hpar hprev).congr rfl rfl
        (fun x hx => update_of_ne hx _ _) fun _ _ => rfl
    have hlive' : ((s.unlink q' p prev).setParent p none).live = s.live := hlive
    have ht' : Tabled ((s.unlink q' p prev).setParent p none) := ht.congr hlive htable
    have hrel := repaired_relink q (by rw [hlive']; exact hp)
    rw [hcleared]
    refine ⟨hintact.relink ht' ?_ ?_ (.inl (update_self _ _ _)),
      hrel.live.trans hlive, hrel.table.trans htable⟩
    · rw [hlive']
      exact hq
    · rw [hlive']
      exact hp

/-! ## Steps and runs -/

/-- A process that the step frees is parent of no other. And a search for a child that finds none in
the list comes, by the thread ids, to processes without a parent only. -/
def Harmless (s : PState) : TreeOp → Prop
  | .findChild parent pid pgid zombiesOnly => Misses s parent pid pgid → ∀ p,
    Reaches parent pid pgid (fun p => !zombiesOnly || s.zombie p) (List.range PROCESS_TABLE_MAX) s p
    → s.parent p = none
  | .reap parent child => s.zombie child = true ∧ s.parent child = some parent → Barren s child
  | .reapZombie child => s.zombie child = true → Barren s child
  | .discard parent child => s.parent child = some parent → Barren s child
  | _ => True

theorem step_of_running (hhung : s.hung = false) (op : TreeOp) : s.step op = s.call op := by
  unfold PState.step
  rw [if_neg (by simp [hhung])]

theorem create_hung (parent : Option Nat) (p : Nat) : (s.processCreate parent p).hung = s.hung := by
  unfold processCreate
  split
  · rfl
  · cases parent <;> rfl

/-- **A step keeps the tree if and only if it is harmless**, and the table in any case. -/
theorem step_iff (h : Intact s) (ht : Tabled s) (hvalid : s.Valid op) :
    (Intact (s.step op) ↔ Harmless s op) ∧ Tabled (s.step op) := by
  have hhung := h.running
  rw [step_of_running hhung op]
  cases op with
  | create parent p =>
    refine ⟨iff_of_true ?_ trivial, ht.create hvalid.2⟩
    exact ⟨h.tree.create hvalid.1 hvalid.2, (create_hung parent p).trans hhung⟩
  | findChild parent pid pgid zombiesOnly =>
    have hrep := repaired_findChild h.tree ht pid pgid zombiesOnly hvalid
    exact ⟨findChild_iff h.tree ht pid pgid zombiesOnly hhung hvalid rfl,
      ht.congr hrep.live hrep.table⟩
  | reparent process newParent =>
    obtain ⟨htree, hrun, hlive, htable⟩ := reparent_spec h.tree ht hvalid.1 hvalid.2 rfl
    exact ⟨iff_of_true ⟨htree, hrun.trans hhung⟩ trivial, ht.congr hlive htable⟩
  | reap parent child =>
    have hremoves := removes_reap h.tree ht hvalid.1 hvalid.2
    exact ⟨hremoves.iff h, hremoves.tabled ht hvalid.2⟩
  | reapZombie child =>
    have hremoves := removes_reapZombie h.tree ht hvalid
    exact ⟨hremoves.iff h, hremoves.tabled ht hvalid⟩
  | discard parent child =>
    have hremoves := removes_discard h.tree ht hvalid.1 hvalid.2
    exact ⟨hremoves.iff h, hremoves.tabled ht hvalid.2⟩
  | adopt parent child =>
    obtain ⟨hintact, hlive, htable⟩ := adopt_spec h ht hvalid.1 hvalid.2 rfl
    exact ⟨iff_of_true hintact trivial, ht.congr hlive htable⟩
  | attach | markZombie | setIds | setThreads =>
    exact ⟨iff_of_true ⟨{ h.tree with }, hhung⟩ trivial, ht.congr rfl rfl⟩

/-- **The process tree stays a tree, if and only if all steps are harmless**: over all states of a
run with valid pointers. -/
theorem process_tree_iff (s : PState) (ops : List TreeOp) (hs : Intact s) (ht : Tabled s)
    (hvalid : RunMeets PState.step PState.Valid s ops) :
    (∀ pre post, ops = pre ++ post → Intact (s.exec pre)) ↔
    RunMeets PState.step Harmless s ops := by
  refine run_good_iff (fun s op ht hs hop => ?_) ht hs hvalid
  obtain ⟨hiff, ht'⟩ := step_iff hs ht hop
  exact ⟨hiff, fun _ => ht'⟩

/-! ## Two lists with one process -/

/-- After `process_init`. -/
def PState.init : PState where
  live _ := false
  pid _ := 0
  pgid _ := 0
  zombie _ := false
  parent _ := none
  firstChild _ := none
  nextSibling _ := none
  leader _ := none
  processTable _ := none
  nextPid := 1
  threads := ⟨fun _ => none, fun _ => 0, fun _ => none⟩
  hung := false

/-- A process creates a child, which ends, and is found and reaped. -/
def createAndReap : List TreeOp :=
  [.create none 0, .create (some 0) 1, .markZombie 1, .findChild 0 (-1) 0 true, .reap 0 1]

theorem intact_createAndReap :
    Intact (PState.init.exec createAndReap) ∧ (PState.init.exec createAndReap).live 1 = false := by
  have hvalid : RunMeets PState.step PState.Valid PState.init createAndReap := by
    unfold createAndReap
    repeat rw [runMeets_cons]
    refine ⟨⟨nofun, rfl⟩, ⟨fun q hq => ?_, rfl⟩, trivial, rfl, ⟨rfl, rfl⟩, runMeets_nil _⟩
    obtain rfl := some.inj hq
    rfl
  have hharmless : RunMeets PState.step Harmless PState.init createAndReap := by
    unfold createAndReap
    repeat rw [runMeets_cons]
    refine ⟨trivial, trivial, trivial, fun hmiss => ?_, fun _ c _ _ hpar => ?_, runMeets_nil _⟩
    · exact absurd (hmiss 1 rfl rfl) (by decide)
    -- the only process with a parent is 1, and its parent is 0
    change update (update (fun _ => none) 0 none) 1 (some 0) c = some 1 at hpar
    simp only [update_apply] at hpar
    split_ifs at hpar
    cases hpar
  exact ⟨(process_tree_iff PState.init
    _ ⟨⟨fun _ h => Bool.noConfusion h, fun _ _ h => Bool.noConfusion h⟩, rfl⟩
    ⟨fun _ h => Bool.noConfusion h, nofun, nofun⟩ hvalid).mpr hharmless _ [] (by simp), rfl⟩

/-- Process 2 is a child of 0, and its thread 7 was created by the thread with id 5. This id has
been used again, for thread 9 of process 1. -/
def reused : Threads where
  get tid := if tid = 5 then some 9 else none
  parentTid t := if t = 7 then 5 else 0
  process t := if t = 9 then some 1 else none

def beforeWait : PState :=
  PState.init.exec [.create none 0, .create none 1, .create (some 0) 2, .attach 2 7,
    .setThreads reused]

section

set_option maxRecDepth 10000

/-- Process 1 waits for any child, and gets process 2 into its list, which stays in the list of
0. -/
theorem child_in_two_lists : (beforeWait.step (.findChild 1 (-1) 0 false)).firstChild 0 = some 2
      ∧ (beforeWait.step (.findChild 1 (-1) 0 false)).firstChild 1 = some 2
      ∧ (beforeWait.step (.findChild 1 (-1) 0 false)).parent 2 = some 1
      ∧ ¬ Tree (beforeWait.step (.findChild 1 (-1) 0 false)) := by
  have hfirst : (beforeWait.step (.findChild 1 (-1) 0 false)).firstChild 0 = some 2 := by
    decide +kernel
  have hparent : (beforeWait.step (.findChild 1 (-1) 0 false)).parent 2 = some 1 := by
    decide +kernel
  refine ⟨hfirst, by decide +kernel, hparent, fun htree => ?_⟩
  obtain ⟨l, hc, hl⟩ := htree.lists 0 (by decide +kernel)
  rw [hfirst] at hc
  obtain ⟨t, rfl, _⟩ := chain_some hc
  cases hparent.symm.trans ((hl 2).mp mem_cons_self).2

end

end AxonOS.Process

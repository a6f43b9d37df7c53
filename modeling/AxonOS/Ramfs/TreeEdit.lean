import AxonOS.Ramfs.TreeInv

/-! # Taking nodes out of the ramfs tree

Three changes, each said once for the whole heap: a node leaves its directory (`Cut`), a node is
freed with everything beneath it (`Pruned`), a node goes to another directory under a new name
(`Moved`).
-/

namespace AxonOS.Ramfs.Tree

open Lib List Option Function

/-! ## A node out of its directory -/

/-- A node as it is after `n` has left its directory. -/
def cut (n q : Ptr) (m : Node) : Node :=
  if q = n then { m.dropChild n with parent := none } else m.dropChild n

structure Cut (s : Fs) (n : Ptr) (s' : Fs) : Prop where
  fresh : s'.fresh = s.fresh
  nodes : ∀ q, s'.nodes q = (s.nodes q).map (cut n q)

variable {q t d : Ptr} {m' m : Node}

section Cut

variable {s s' : Fs} {opens : Ptr → Nat} {owed : Ptr → Int} {n p : Ptr}

theorem cut_fields (n q : Ptr) (m : Node) :
    (cut n q m).name = m.name ∧ (cut n q m).isDir = m.isDir ∧
    (cut n q m).isFile = m.isFile ∧ (cut n q m).linkTarget = m.linkTarget ∧
    (cut n q m).nlink = m.nlink ∧ (cut n q m).openCount = m.openCount ∧
    (cut n q m).children = m.children.erase n := by
  obtain ⟨hname, -, hdir, hfile, hlink, hnlink, hopen⟩ := Node.dropChild_fields
  have hchild := Node.children_dropChild (n := m) (c := n)
  unfold cut
  split
  · exact ⟨hname, hdir, hfile, hlink, hnlink, hopen, hchild⟩
  · exact ⟨hname, hdir, hfile, hlink, hnlink, hopen, hchild⟩

theorem cut_parent (n q : Ptr) (m : Node) :
    (cut n q m).parent = if q = n then none else m.parent := by
  unfold cut
  split
  · rfl
  · exact Node.dropChild_fields.2.1

section

variable (hs : Shape s) (hpar : s.parent n = some p)

include hs hpar

theorem Shape.not_mem_children (hq : q ≠ p) : n ∉ s.children q := by
  intro hmem
  have hparq := hs.mem_children.mp hmem
  exact hq (some.inj (hparq.symm.trans hpar))

theorem Shape.ne_parent : n ≠ p := by
  rintro rfl
  exact hs.rooted.not_below_parent hpar .self

/-- **`ramfs_unlink_from_parent`** of a node before the guard. -/
theorem unlink_cut (hvis : n ∈ (s.children p).take GUARD) :
    Cut s n (ramfsUnlinkFromParent s n) := by
  have hne := hs.ne_parent hpar
  have hdef : ramfsUnlinkFromParent s n =
      (s.modify p (Node.dropChild n)).modify n fun m => { m with parent := none } := by
    unfold ramfsUnlinkFromParent
    rw [hpar]
    exact if_pos hvis
  have hsame : ∀ q m, q ≠ p → s.nodes q = some m → m.dropChild n = m := by
    intro q m hq hm
    have hmem := hs.not_mem_children hpar hq
    rw [children_eq hm] at hmem
    exact Node.dropChild_of_not_mem hmem
  rw [hdef]
  refine ⟨rfl, fun q => ?_⟩
  by_cases hqn : q = n
  · rw [hqn, modify_self, modify_of_ne hne]
    cases hm : s.nodes n with
    | none => rfl
    | some m =>
      refine congrArg some ?_
      rw [cut, if_pos rfl, hsame n m hne hm]
  · rw [modify_of_ne hqn]
    by_cases hqp : q = p
    · rw [hqp, modify_self]
      refine congrArg (Option.map · (s.nodes p)) (funext fun m => ?_)
      rw [cut, if_neg hne.symm]
    rw [modify_of_ne hqp]
    cases hm : s.nodes q with
    | none => rfl
    | some m =>
      refine congrArg some ?_
      rw [cut, if_neg hqn, hsame q m hqp hm]

end

namespace Cut

variable (hcut : Cut s n s')

include hcut

theorem some_iff : s'.nodes q = some m' ↔ ∃ m, s.nodes q = some m ∧ cut n q m = m' := by
  rw [hcut.nodes, map_eq_some_iff]

theorem children (q : Ptr) : s'.children q = (s.children q).erase n := by
  rw [Fs.children, Fs.children, hcut.nodes]
  cases s.nodes q with
  | none => rfl
  | some m => exact (cut_fields n q m).2.2.2.2.2.2

theorem parent (q : Ptr) : s'.parent q = if q = n then none else s.parent q := by
  rw [Fs.parent, Fs.parent, hcut.nodes]
  cases s.nodes q with
  | none => exact (ite_self _).symm
  | some m => exact cut_parent n q m

theorem nameOf (q : Ptr) : s'.nameOf q = s.nameOf q :=
  map_place (hcut.nodes q) Node.name fun m => (cut_fields n q m).1

theorem isDir (q : Ptr) :
    s'.isDir q = s.isDir q := isDir_place (hcut.nodes q) fun m => (cut_fields n q m).2.1

theorem linkTarget (q : Ptr) : s'.linkTarget q = s.linkTarget q :=
  bind_place (hcut.nodes q) Node.linkTarget fun m => (cut_fields n q m).2.2.2.1

theorem linkers : s'.linkers = s.linkers := linkers_congr hcut.fresh (funext hcut.linkTarget)

/-- Beneath `n` nothing changes. -/
theorem below_iff : Below s'.links n q ↔ Below s.links n q := by
  constructor
  · intro h
    induction h with
    | self => exact .self
    | @child p c _ hmem ih =>
      have hmem' : c ∈ s'.children p := hmem
      rw [hcut.children] at hmem'
      exact ih.child (mem_of_mem_erase hmem')
  · intro h
    refine h.mono fun p c hmem hc => ?_
    change c ∈ s'.children p
    rw [hcut.children]
    exact (mem_erase_of_ne hc).mpr hmem

theorem file (hs : Shape s) (hd : s.linkTarget d = some t) :
    ∃ m, s'.nodes t = some m ∧ m.isFile = true := by
  obtain ⟨m, hm, hfile⟩ := hs.link_file d t hd
  exact ⟨_, hcut.some_iff.mpr ⟨m, hm, rfl⟩, (cut_fields n t m).2.2.1.trans hfile⟩

end Cut

/-- **A file without its own name** may stay, for its other names and its handles. -/
theorem Shape.orphan (hs : Shape s) (hm : s.nodes n = some m) (hfile : m.isFile = true)
    (hcut : Cut s n s') :
    Shape s' := by
  have hdir := not_dir_of_isFile hm hfile
  have hroot : n ≠ ROOT := by
    rintro rfl
    rw [hs.root_dir] at hdir
    cases hdir
  refine ⟨?_, ?_, fun q hq hne => ?_, fun q c d hc hd heq => ?_, fun q hq => ?_, fun d t hd => ?_,
    fun d t hd => ?_⟩
  · refine hs.rooted.prune hroot (fun q _ => hcut.children q) (fun q hq => ?_) fun q hq => ?_
    · obtain rfl := Shape.below_leaf hdir hq
      refine ⟨?_, (hcut.parent q).trans (if_pos rfl)⟩
      change s'.children q = []
      rw [hcut.children, children_of_not_dir hdir]
      rfl
    · exact (hcut.parent q).trans (if_neg (Below.ne_of_not hq))
  · rw [hcut.isDir, hs.root_dir]
  · rw [hcut.isDir] at hq
    rw [hcut.parent, if_neg]
    · exact hs.dir_linked q hq hne
    · rintro rfl
      rw [hdir] at hq
      cases hq
  · rw [hcut.children] at hc hd
    rw [hcut.nameOf, hcut.nameOf] at heq
    exact hs.names q c d (mem_of_mem_erase hc) (mem_of_mem_erase hd) heq
  · rw [hcut.nodes, hs.bounded q (hcut.fresh ▸ hq)]
    rfl
  · rw [hcut.linkTarget] at hd
    rw [hcut.parent, if_neg]
    · exact hs.link_linked d t hd
    · rintro rfl
      rw [linkTarget_eq hm, Node.not_link_of_isFile hfile] at hd
      cases hd
  · rw [hcut.linkTarget] at hd
    exact hcut.file hs hd

theorem Counts.orphan (hc : Counts s opens owed) (hpar : s.parent n = some p) (hcut : Cut s n s') :
    Counts s' opens (owed + Pi.single n 1) := by
  refine ⟨fun i m' hm' hfile => ?_, fun i m' hm' => ?_, fun i hi => ?_⟩
  · obtain ⟨m, hm, rfl⟩ := hcut.some_iff.mp hm'
    obtain ⟨-, -, hf, -, hnlink, -⟩ := cut_fields n i m
    have hcount := hc.counted i m hm (hf.symm.trans hfile)
    rw [hnlink, cut_parent, hcut.linkers, Pi.add_apply]
    by_cases hi : i = n
    · obtain ⟨m0, hm0, hpar0⟩ := exists_of_parent hpar
      rw [hi, hm0] at hm
      obtain rfl := some.inj hm
      rw [hi, hpar0] at hcount
      rw [hi, Pi.single_eq_same]
      simp only [isSome_some, isSome_none, if_true, Bool.false_eq_true, if_false] at hcount ⊢
      omega
    · rw [if_neg hi, Pi.single_eq_of_ne hi, add_zero]
      exact hcount
  · obtain ⟨m, hm, rfl⟩ := hcut.some_iff.mp hm'
    rw [(cut_fields n i m).2.2.2.2.2.1]
    exact hc.opened i m hm
  · obtain ⟨m, hm, hlink⟩ := hc.open_live i hi
    exact ⟨_, hcut.some_iff.mpr ⟨m, hm, rfl⟩, (cut_fields n i m).2.2.2.1.trans hlink⟩

end Cut

/-! ## A subtree freed -/

structure Pruned (s : Fs) (n : Ptr) (s' : Fs) : Prop where
  fresh : s'.fresh = s.fresh
  gone : ∀ q, Below s.links n q → s'.nodes q = none
  rest : ∀ q, ¬ Below s.links n q → s'.nodes q = (s.nodes q).map (Node.dropChild n)

section Pruned

variable {s s' : Fs} {opens : Ptr → Nat} {owed : Ptr → Int} {n : Ptr}

namespace Pruned

variable (hpr : Pruned s n s')

include hpr

theorem exists_old (h : s'.nodes q = some m') :
    ¬ Below s.links n q ∧ ∃ m, s.nodes q = some m ∧ m.dropChild n = m' := by
  by_cases hq : Below s.links n q
  · rw [hpr.gone q hq] at h
    cases h
  · rw [hpr.rest q hq] at h
    exact ⟨hq, map_eq_some_iff.mp h⟩

theorem linkTarget_iff :
    s'.linkTarget d = some t ↔ s.linkTarget d = some t ∧ ¬ Below s.links n d := by
  constructor
  · intro h
    obtain ⟨m', hm', hlink⟩ := exists_of_linkTarget h
    obtain ⟨hout, m, hm, rfl⟩ := hpr.exists_old hm'
    rw [Node.dropChild_fields.2.2.2.2.1] at hlink
    exact ⟨(linkTarget_eq hm).trans hlink, hout⟩
  · rintro ⟨h, hout⟩
    obtain ⟨m, hm, hlink⟩ := exists_of_linkTarget h
    rw [Fs.linkTarget, hpr.rest d hout, hm]
    exact Node.dropChild_fields.2.2.2.2.1.trans hlink

section

variable {q : Ptr} (hq : ¬ Below s.links n q)

include hq

theorem children : s'.children q = (s.children q).erase n := by
  rw [Fs.children, Fs.children, hpr.rest q hq]
  cases s.nodes q with
  | none => rfl
  | some m => exact Node.children_dropChild

theorem parent : s'.parent q = s.parent q :=
  bind_place (hpr.rest q hq) Node.parent fun _ => Node.dropChild_fields.2.1

theorem nameOf : s'.nameOf q = s.nameOf q :=
  map_place (hpr.rest q hq) Node.name fun _ => Node.dropChild_fields.1

theorem isDir :
    s'.isDir q = s.isDir q := isDir_place (hpr.rest q hq) fun _ => Node.dropChild_fields.2.2.1

end

theorem children_gone (hq : Below s.links n q) : s'.children q = [] := by
  rw [Fs.children, hpr.gone q hq]
  rfl

theorem parent_gone (hq : Below s.links n q) : s'.parent q = none := by
  rw [Fs.parent, hpr.gone q hq]
  rfl

theorem mem_children {c : Ptr} (hs : Shape s) (hc : c ∈ s'.children q) :
    ¬ Below s.links n q ∧ c ∈ s.children q ∧ ¬ Below s.links n c := by
  by_cases hq : Below s.links n q
  · rw [hpr.children_gone hq] at hc
    cases hc
  rw [hpr.children hq] at hc
  obtain ⟨hne, hmem⟩ := (hs.rooted.nodup q).mem_erase_iff.mp hc
  exact ⟨hq, hmem, hs.rooted.not_below_child (hs.mem_children.mp hmem) hne hq⟩

end Pruned

/-- **A freed subtree**, when no name that is left leads into it. -/
theorem Shape.prune (hs : Shape s) (hroot : n ≠ ROOT) (hpr : Pruned s n s')
    (hlinks : ∀ d t, ¬ Below s.links n d → s.linkTarget d = some t → ¬ Below s.links n t) :
    Shape s' := by
  have hrout : ¬ Below s.links n ROOT := by
    intro h
    cases h with
    | self => exact hroot rfl
    | child _ hmem =>
      have hpar := hs.mem_children.mp hmem
      exact absurd (hs.rooted.root_parent.symm.trans hpar) nofun
  refine ⟨?_, ?_, fun q hq hne => ?_, fun q c d hc hd heq => ?_, fun q hq => ?_, fun d t hd => ?_,
    fun d t hd => ?_⟩
  · exact hs.rooted.prune hroot (fun q hq => hpr.children hq)
      (fun q hq => ⟨hpr.children_gone hq, hpr.parent_gone hq⟩) fun q hq => hpr.parent hq
  · rw [hpr.isDir hrout, hs.root_dir]
  · obtain ⟨m, hm, -⟩ := exists_of_isDir hq
    obtain ⟨hout, -⟩ := hpr.exists_old hm
    rw [hpr.isDir hout] at hq
    rw [hpr.parent hout]
    exact hs.dir_linked q hq hne
  · obtain ⟨-, hc', hcout⟩ := hpr.mem_children hs hc
    obtain ⟨-, hd', hdout⟩ := hpr.mem_children hs hd
    rw [hpr.nameOf hcout, hpr.nameOf hdout] at heq
    exact hs.names q c d hc' hd' heq
  · by_cases hbelow : Below s.links n q
    · exact hpr.gone q hbelow
    · rw [hpr.rest q hbelow, hs.bounded q (hpr.fresh ▸ hq)]
      rfl
  · obtain ⟨hd', hout⟩ := hpr.linkTarget_iff.mp hd
    rw [hpr.parent hout]
    exact hs.link_linked d t hd'
  · obtain ⟨hd', hout⟩ := hpr.linkTarget_iff.mp hd
    obtain ⟨m, hm, hfile⟩ := hs.link_file d t hd'
    rw [hpr.rest t (hlinks d t hout hd'), hm]
    exact ⟨_, rfl, Node.dropChild_fields.2.2.2.1.trans hfile⟩

section

variable (hc : Counts s opens owed) (hpr : Pruned s n s')
    (hopen : ∀ q, Below s.links n q → opens q = 0)

include hc hpr hopen

/-- The names of a file that are left, with `k` of them gone. -/
theorem Counts.prune {lost : Ptr → Int}
    (hlost : ∀ i, ¬ Below s.links n i → ((s.linkers i).card : Int) = (s'.linkers i).card + lost i) :
    Counts s' opens (owed + lost) := by
  refine ⟨fun i m' hm' hfile => ?_, fun i m' hm' => ?_, fun i hi => ?_⟩
  · obtain ⟨hout, m, hm, rfl⟩ := hpr.exists_old hm'
    obtain ⟨-, hpar, -, hf, -, hnlink, -⟩ := Node.dropChild_fields
    have hcount := hc.counted i m hm (hf.symm.trans hfile)
    have hl := hlost i hout
    rw [hpar, Pi.add_apply]
    omega
  · obtain ⟨-, m, hm, rfl⟩ := hpr.exists_old hm'
    rw [Node.dropChild_fields.2.2.2.2.2.2]
    exact hc.opened i m hm
  · obtain ⟨m, hm, hlink⟩ := hc.open_live i hi
    have hout : ¬ Below s.links n i := fun hbelow => hi (hopen i hbelow)
    rw [hpr.rest i hout, hm]
    exact ⟨_, rfl, Node.dropChild_fields.2.2.2.2.1.trans hlink⟩

/-- No file outside the subtree had a name in it. -/
theorem Counts.prune_same (hsame : ∀ i, ¬ Below s.links n i → s'.linkers i = s.linkers i) :
    Counts s' opens owed := by
  have hlost : ∀ i, ¬ Below s.links n i →
      ((s.linkers i).card : Int) = (s'.linkers i).card + (0 : Ptr → Int) i := by
    intro i hi
    rw [hsame i hi, Pi.zero_apply, add_zero]
  have hcounts := hc.prune hpr hopen hlost
  rwa [add_zero] at hcounts

end

theorem Kept.prune (hk : Kept s) (hpr : Pruned s n s') : Kept s' := by
  intro i m' hm' hfile
  obtain ⟨-, m, hm, rfl⟩ := hpr.exists_old hm'
  obtain ⟨-, -, -, hf, -, hnlink, hopen⟩ := Node.dropChild_fields
  rw [hnlink, hopen]
  exact hk i m hm (hf.symm.trans hfile)

/-- Where a node that has left its directory is freed with all beneath it. -/
theorem Cut.pruned {s1 : Fs} (hcut : Cut s n s1) (hfresh : s'.fresh = s1.fresh)
    (hgone : ∀ q, Below s.links n q → s'.nodes q = none)
    (hrest : ∀ q, ¬ Below s.links n q → q ≠ n → s'.nodes q = s1.nodes q) : Pruned s n s' := by
  refine ⟨hfresh.trans hcut.fresh, hgone, fun q hq => ?_⟩
  have hne := Below.ne_of_not hq
  rw [hrest q hq hne, hcut.nodes]
  refine congrArg (Option.map · (s.nodes q)) (funext fun m => ?_)
  rw [cut, if_neg hne]

theorem mem_linkers_pruned (hs : Shape s) (hpr : Pruned s n s') {i : Ptr} :
    d ∈ s'.linkers i ↔ d ∈ s.linkers i ∧ ¬ Below s.links n d := by
  rw [hs.mem_linkers, ← hpr.linkTarget_iff, Fs.linkers, Finset.mem_filter,
    Finset.mem_range, hpr.fresh]
  refine ⟨And.right, fun hd => ⟨?_, hd⟩⟩
  obtain ⟨m, hm, -⟩ := exists_of_linkTarget (hpr.linkTarget_iff.mp hd).1
  exact hs.lt_fresh hm

end Pruned

/-! ## A node moved -/

/-- A node as it is after `o` has gone to the directory `p`. -/
def moved (o p : Ptr) (name : Name) (q : Ptr) (m : Node) : Node :=
  if q = o then { m.dropChild o with name := name, parent := some p }
  else if q = p then (m.dropChild o).addChild o
  else m.dropChild o

structure Moved (s : Fs) (o p : Ptr) (name : Name) (s' : Fs) : Prop where
  fresh : s'.fresh = s.fresh
  nodes : ∀ q, s'.nodes q = (s.nodes q).map (moved o p name q)

section Moved

variable {s s' : Fs} {opens : Ptr → Nat} {owed : Ptr → Int} {o p w : Ptr} {name : Name}

section

variable (o p q : Ptr) (name : Name) (m : Node)

theorem moved_fields :
    (moved o p name q m).isDir = m.isDir ∧ (moved o p name q m).isFile = m.isFile ∧
    (moved o p name q m).linkTarget = m.linkTarget ∧
    (moved o p name q m).nlink = m.nlink ∧ (moved o p name q m).openCount = m.openCount := by
  obtain ⟨-, -, hdir, hfile, hlink, hnlink, hopen⟩ := Node.dropChild_fields
  unfold moved
  split
  · exact ⟨hdir, hfile, hlink, hnlink, hopen⟩
  split
  · obtain ⟨-, -, hdir', hfile', hlink', hnlink', hopen'⟩ :=
      Node.addChild_fields
    exact ⟨hdir'.trans hdir, hfile'.trans hfile, hlink'.trans hlink,
      hnlink'.trans hnlink, hopen'.trans hopen⟩
  · exact ⟨hdir, hfile, hlink, hnlink, hopen⟩

theorem moved_name : (moved o p name q m).name = if q = o then name else m.name := by
  unfold moved
  split
  · rfl
  · split
    · exact Node.addChild_fields.1.trans Node.dropChild_fields.1
    · exact Node.dropChild_fields.1

theorem moved_parent : (moved o p name q m).parent = if q = o then some p else m.parent := by
  unfold moved
  split
  · rfl
  · split
    · exact Node.addChild_fields.2.1.trans Node.dropChild_fields.2.1
    · exact Node.dropChild_fields.2.1

end

/-- **The end of `ramfs_rename`.** -/
theorem moveNode_moved (hs : Shape s) (hpar : s.parent o = some w)
    (hvis : o ∈ (s.children w).take GUARD) (hop : o ≠ p) :
    Moved s o p name (moveNode s o p name) := by
  have hcut := unlink_cut hs hpar hvis
  refine ⟨hcut.fresh, fun q => ?_⟩
  unfold moveNode
  by_cases hqo : q = o
  · rw [modify_of_ne (by rw [hqo]; exact hop), hqo, modify_self, hcut.nodes, Option.map_map]
    refine congrArg (Option.map · (s.nodes o)) (funext fun m => ?_)
    simp only [comp_apply, cut, moved, if_true]
  by_cases hqp : q = p
  · rw [hqp, modify_self, modify_of_ne hop.symm, hcut.nodes, Option.map_map]
    refine congrArg (Option.map · (s.nodes p)) (funext fun m => ?_)
    simp only [comp_apply, cut, moved, if_neg hop.symm, if_true]
  · rw [modify_of_ne hqp, modify_of_ne hqo, hcut.nodes]
    refine congrArg (Option.map · (s.nodes q)) (funext fun m => ?_)
    simp only [cut, moved, if_neg hqo, if_neg hqp]

namespace Moved

theorem ne_of_none (ho : s.nodes o = some m) (hq : s.nodes q = none) : q ≠ o := by
  rintro rfl
  rw [ho] at hq
  cases hq

variable (hmv : Moved s o p name s')

include hmv

theorem some_iff : s'.nodes q = some m' ↔ ∃ m, s.nodes q = some m ∧ moved o p name q m = m' := by
  rw [hmv.nodes, map_eq_some_iff]

theorem parent (ho : s.nodes o = some m) : s'.parent q = if q = o then some p else s.parent q := by
  rw [Fs.parent, Fs.parent, hmv.nodes]
  cases hq : s.nodes q with
  | none =>
    rw [if_neg (ne_of_none ho hq)]
    rfl
  | some m => exact moved_parent o p q name m

theorem nameOf (ho : s.nodes o = some m) :
    s'.nameOf q = if q = o then some name else s.nameOf q := by
  rw [Fs.nameOf, Fs.nameOf, hmv.nodes]
  cases hq : s.nodes q with
  | none =>
    rw [if_neg (ne_of_none ho hq)]
    rfl
  | some m =>
    rw [map_some, map_some, moved_name]
    split <;> rfl

theorem isDir (q : Ptr) : s'.isDir q = s.isDir q :=
  isDir_place (hmv.nodes q) fun m => (moved_fields o p q name m).1

theorem linkTarget (q : Ptr) : s'.linkTarget q = s.linkTarget q :=
  bind_place (hmv.nodes q) Node.linkTarget fun m => (moved_fields o p q name m).2.2.1

theorem children (hp : s.isDir p = true) (hop : o ≠ p) (q : Ptr) :
    s'.children q = if q = p then o :: (s.children q).erase o else (s.children q).erase o := by
  rw [Fs.children, Fs.children, hmv.nodes]
  cases hq : s.nodes q with
  | none =>
    obtain ⟨m, hm, -⟩ := exists_of_isDir hp
    rw [if_neg (ne_of_none hm hq)]
    rfl
  | some m =>
    change (moved o p name q m).children = if q = p then o :: m.children.erase o
      else m.children.erase o
    unfold moved
    split
    next hqo =>
      rw [if_neg (by rw [hqo]; exact hop)]
      exact Node.children_dropChild
    next =>
    split
    next hqp =>
      have hdir : m.isDir = true := by rw [← isDir_eq hq, hqp, hp]
      rw [Node.children_addChild (Node.dropChild_fields.2.2.1.trans hdir), Node.children_dropChild]
    next => exact Node.children_dropChild

end Moved

/-- **A moved node** keeps the tree, if it does not go beneath itself and the name is free. -/
theorem Shape.move (hs : Shape s) (hmv : Moved s o p name s') (hpar : s.parent o = some w)
    (hp : s.isDir p = true) (hout : ¬ Below s.links o p)
    (hname : ∀ c ∈ s.children p, c ≠ o → s.nameOf c ≠ some name) : Shape s' := by
  obtain ⟨mo, hmo, hmpar⟩ := exists_of_parent hpar
  have hop := (Below.ne_of_not hout).symm
  have hlinked : s.parent o ≠ none := by
    rw [hpar]
    exact some_ne_none w
  have hchild := hmv.children hp hop
  have hmem : ∀ q c, c ∈ s'.children q → c ≠ o → c ∈ s.children q := by
    intro q c hc hne
    rw [hchild] at hc
    split at hc
    · exact mem_of_mem_erase ((mem_cons.mp hc).resolve_left hne)
    · exact mem_of_mem_erase hc
  refine ⟨?_, ?_, fun q hq hne => ?_, fun q c d hc hd heq => ?_, fun q hq => ?_, fun d t hd => ?_,
    fun d t hd => ?_⟩
  · exact hs.rooted.move hlinked (hs.dir_reached hp) hout hchild fun q => hmv.parent hmo
  · rw [hmv.isDir, hs.root_dir]
  · rw [hmv.isDir] at hq
    rw [hmv.parent hmo]
    split
    · exact some_ne_none p
    · exact hs.dir_linked q hq hne
  · -- the moved node is in `p` only, and no other child there has its new name
    have hin : o ∈ s'.children q → q = p := by
      intro ho
      by_contra hqp
      rw [hchild, if_neg hqp] at ho
      exact ((hs.rooted.nodup q).mem_erase_iff.mp ho).1 rfl
    rw [hmv.nameOf hmo, hmv.nameOf hmo] at heq
    by_cases hco : c = o
    · by_cases hdo : d = o
      · rw [hco, hdo]
      · rw [if_pos hco, if_neg hdo] at heq
        rw [hin (hco ▸ hc)] at hd
        exact absurd heq.symm (hname d (hmem p d hd hdo) hdo)
    · by_cases hdo : d = o
      · rw [if_neg hco, if_pos hdo] at heq
        rw [hin (hdo ▸ hd)] at hc
        exact absurd heq (hname c (hmem p c hc hco) hco)
      · rw [if_neg hco, if_neg hdo] at heq
        exact hs.names q c d (hmem q c hc hco) (hmem q d hd hdo) heq
  · rw [hmv.nodes, hs.bounded q (hmv.fresh ▸ hq)]
    rfl
  · rw [hmv.linkTarget] at hd
    rw [hmv.parent hmo]
    split
    · exact some_ne_none p
    · exact hs.link_linked d t hd
  · rw [hmv.linkTarget] at hd
    obtain ⟨m, hm, hfile⟩ := hs.link_file d t hd
    exact ⟨_, hmv.some_iff.mpr ⟨m, hm, rfl⟩, (moved_fields o p t name m).2.1.trans hfile⟩

theorem Counts.move (hc : Counts s opens owed) (hmv : Moved s o p name s')
    (hpar : s.parent o = some w) :
    Counts s' opens owed := by
  have hl : s'.linkers = s.linkers := linkers_congr hmv.fresh (funext hmv.linkTarget)
  refine ⟨fun i m' hm' hfile => ?_, fun i m' hm' => ?_, fun i hi => ?_⟩
  · obtain ⟨m, hm, rfl⟩ := hmv.some_iff.mp hm'
    obtain ⟨-, hf, -, hnlink, -⟩ := moved_fields o p i name m
    have hcount := hc.counted i m hm (hf.symm.trans hfile)
    have hsome : (moved o p name i m).parent.isSome = m.parent.isSome := by
      rw [moved_parent]
      split
      next hi =>
        obtain ⟨m0, hm0, hpar0⟩ := exists_of_parent hpar
        rw [hi, hm0] at hm
        obtain rfl := some.inj hm
        rw [hpar0]
        rfl
      next => rfl
    rw [hnlink, hsome, hl]
    exact hcount
  · obtain ⟨m, hm, rfl⟩ := hmv.some_iff.mp hm'
    rw [(moved_fields o p i name m).2.2.2.2]
    exact hc.opened i m hm
  · obtain ⟨m, hm, hlink⟩ := hc.open_live i hi
    exact ⟨_, hmv.some_iff.mpr ⟨m, hm, rfl⟩, (moved_fields o p i name m).2.2.1.trans hlink⟩

theorem Kept.move (hk : Kept s) (hmv : Moved s o p name s') : Kept s' := by
  intro i m' hm' hfile
  obtain ⟨m, hm, rfl⟩ := hmv.some_iff.mp hm'
  obtain ⟨-, hf, -, hnlink, hopen⟩ := moved_fields o p i name m
  rw [hnlink, hopen]
  exact hk i m hm (hf.symm.trans hfile)

end Moved

end AxonOS.Ramfs.Tree

import AxonOS.Ramfs.Lookup

/-! # The calls of ramfs keep the invariant

One lemma for each call: from a state of the invariant, under the condition the call needs, it leads
to a state of the invariant. The conditions are where the source is careless: `Unhidden` (a name
behind the guard is not seen), `Removable` (a directory is freed whatever refers into it) and
`Movable` (a node may be moved beneath itself, or freed with the directory it replaces).
-/

namespace AxonOS.Ramfs.Tree

open Lib List Option Function Nat

variable {s s' s'' : Fs} {opens : Ptr → Nat} {owed : Ptr → Int} {n p q : Ptr}

/-! ## Conditions -/

/-- The name is not the name of an entry behind the guard. -/
def Unhidden (s : Fs) (p : Ptr) (name : Name) : Prop :=
  ∀ c ∈ (s.children p).drop GUARD, s.nameOf c ≠ some name

/-- A stack of 64 holds the children of `n` above `r` others, and for each child, above those and
its elder siblings, what is beneath it. -/
inductive Roomy (L : Links Ptr) : Nat → Ptr → Prop
  | node {r : Nat} {n : Ptr} : r + (L.children n).length ≤ STACK_CAP →
      (∀ i c, (L.children n)[i]? = some c → Roomy L (r + i) c) → Roomy L r n

/-- A directory that can be freed: nothing beneath it is open, hard links stay on their side, and a
stack of 64 suffices for what is beneath it. -/
structure Removable (s : Fs) (n : Ptr) : Prop where
  closed : ∀ d m, Below s.links n d → s.nodes d = some m → m.openCount = 0
  inside : ∀ d t, s.linkTarget d = some t → (Below s.links n d ↔ Below s.links n t)
  roomy : Roomy s.links 0 n

/-- What a removed node must meet. -/
def CanRemove (s : Fs) (n : Ptr) : Prop := s.isDir n = true → Removable s n

/-- `o` can go to `p` under that name, over what is there. -/
structure Movable (s : Fs) (o p : Ptr) (name : Name) : Prop where
  outside : ¬ Below s.links o p
  plain : PlainName name
  unhidden : Unhidden s p name
  replaces : ∀ e, ramfsFindChild s p name = some e → e ≠ o → CanRemove s e ∧ ¬ Below s.links e o

/-! ## The tree without the attributes -/

/-- The tree is the same. -/
structure SameTree (s s' : Fs) : Prop where
  children : s'.children = s.children
  parent : s'.parent = s.parent
  isDir : s'.isDir = s.isDir
  nameOf : ∀ q, s.parent q ≠ none → s'.nameOf q = s.nameOf q

/-- The tree without what is beneath `n`. -/
structure Trimmed (s : Fs) (n : Ptr) (s' : Fs) : Prop where
  children : ∀ q, ¬ Below s.links n q → s'.children q = (s.children q).erase n
  parent : ∀ q, ¬ Below s.links n q → s'.parent q = s.parent q
  isDir : ∀ q, ¬ Below s.links n q → s'.isDir q = s.isDir q
  nameOf : ∀ q, ¬ Below s.links n q → s.parent q ≠ none → s'.nameOf q = s.nameOf q
  gone : ∀ q, Below s.links n q → s'.children q = [] ∧ s'.parent q = none

theorem sameTree_modify {f : Node → Node} (hf : KeepsShape f) : SameTree s (s.modify p f) :=
  ⟨children_modify hf.children, parent_modify hf.parent, isDir_modify hf.isDir,
    fun q _ => congrFun (nameOf_modify hf.name) q⟩

theorem SameTree.trans (h : SameTree s s') (h' : SameTree s' s'') : SameTree s s'' := by
  refine ⟨h'.children.trans h.children, h'.parent.trans h.parent,
    h'.isDir.trans h.isDir, fun q hq => ?_⟩
  rw [h'.nameOf q (by rw [h.parent]; exact hq), h.nameOf q hq]

theorem Trimmed.same (h : Trimmed s n s') (h' : SameTree s' s'') : Trimmed s n s'' := by
  refine ⟨fun q hq => ?_, fun q hq => ?_, fun q hq => ?_, fun q hq hpar => ?_, fun q hq => ?_⟩
  · rw [h'.children, h.children q hq]
  · rw [h'.parent, h.parent q hq]
  · rw [h'.isDir, h.isDir q hq]
  · rw [h'.nameOf q (by rw [h.parent q hq]; exact hpar), h.nameOf q hq hpar]
  · rw [h'.children, h'.parent]
    exact h.gone q hq

theorem Pruned.trimmed (hpr : Pruned s n s') : Trimmed s n s' :=
  ⟨fun _ hq => hpr.children hq, fun _ hq => hpr.parent hq, fun _ hq => hpr.isDir hq,
    fun _ hq _ => hpr.nameOf hq, fun _ hq => ⟨hpr.children_gone hq, hpr.parent_gone hq⟩⟩

theorem Cut.trimmed (hcut : Cut s n s') (hdir : s.isDir n = false) : Trimmed s n s' := by
  refine ⟨fun q _ => hcut.children q, fun q hq => ?_, fun q _ => hcut.isDir q,
    fun q _ _ => hcut.nameOf q, fun q hq => ?_⟩
  · rw [hcut.parent, if_neg (Below.ne_of_not hq)]
  · obtain rfl := Shape.below_leaf hdir hq
    rw [hcut.children, hcut.parent, if_pos rfl, children_of_not_dir hdir]
    exact ⟨rfl, rfl⟩

/-! ## Freeing a file -/

theorem free_self : (s.free p).nodes p = none := if_pos rfl

theorem free_of_ne (h : q ≠ p) : (s.free p).nodes q = s.nodes q := if_neg h

variable {m m' : Node} {mem : Nat → Bool} {path newpath oldpath : List Char} {ct : Cred}
    {t o e : Ptr} {name : Name}

theorem free_pruned (hs : Shape s) (hm : s.nodes n = some m) (hfile : m.isFile = true)
    (horphan : m.parent = none) : Pruned s n (s.free n) := by
  have hdir := not_dir_of_isFile hm hfile
  refine ⟨rfl, fun q hq => ?_, fun q hq => ?_⟩
  · rw [Shape.below_leaf hdir hq, free_self]
  rw [free_of_ne (Below.ne_of_not hq)]
  cases hq' : s.nodes q with
  | none => rfl
  | some mq =>
    refine congrArg some (Node.dropChild_of_not_mem fun hmem => ?_).symm
    rw [← children_eq hq', hs.mem_children, parent_eq hm, horphan] at hmem
    cases hmem

theorem sameTree_free (hs : Shape s) (hm : s.nodes n = some m) (hfile : m.isFile = true)
    (horphan : m.parent = none) : SameTree s (s.free n) := by
  have hpr := free_pruned hs hm hfile horphan
  have hdir := not_dir_of_isFile hm hfile
  have hleaf : ∀ q, Below s.links n q → q = n := fun q hq => Shape.below_leaf hdir hq
  have hpar : s.parent n = none := (parent_eq hm).trans horphan
  refine ⟨funext fun q => ?_, funext fun q => ?_, funext fun q => ?_, fun q hq => ?_⟩
  · by_cases hbelow : Below s.links n q
    · rw [hpr.children_gone hbelow, hleaf q hbelow, children_of_not_dir hdir]
    · rw [hpr.children hbelow]
      refine erase_of_not_mem fun hmem => ?_
      rw [hs.mem_children, hpar] at hmem
      cases hmem
  · by_cases hbelow : Below s.links n q
    · rw [hpr.parent_gone hbelow, hleaf q hbelow, hpar]
    · exact hpr.parent hbelow
  · by_cases hbelow : Below s.links n q
    · rw [hleaf q hbelow, hdir, Fs.isDir, hpr.gone n .self]
      rfl
    · exact hpr.isDir hbelow
  · refine hpr.nameOf fun hbelow => ?_
    rw [hleaf q hbelow] at hq
    exact hq hpar

/-- **`ramfs_maybe_free_inode`** of a file whose counters are right. -/
theorem maybeFree_inv (hs : Shape s) (hc : Counts s opens fun _ => 0) (hm : s.nodes n = some m)
    (hfile : m.isFile = true)
    (hk : ∀ i mi, i ≠ n → s.nodes i = some mi → mi.isFile = true → 0 < mi.nlink ∨
    0 < mi.openCount) :
    Inv (ramfsMaybeFreeInode s n) opens ∧ SameTree s (ramfsMaybeFreeInode s n) := by
  have hdef : ramfsMaybeFreeInode s n =
      if m.isDir = true ∨ 0 < m.nlink ∨ 0 < m.openCount then s
          else (ramfsUnlinkFromParent s n).free n := by
    unfold ramfsMaybeFreeInode
    rw [hm]
  rw [hdef]
  split
  next hkeep =>
    have hpos : 0 < m.nlink ∨ 0 < m.openCount := by
      rcases hkeep with hdir | hpos
      · rw [Node.not_dir_of_isFile hfile] at hdir
        cases hdir
      · exact hpos
    refine ⟨⟨hs, hc, fun i mi hmi hf => ?_⟩, ⟨rfl, rfl, rfl, fun _ _ => rfl⟩⟩
    by_cases hi : i = n
    · rw [hi, hm] at hmi
      obtain rfl := some.inj hmi
      exact hpos
    · exact hk i mi hi hmi hf
  next hfree =>
    -- no name, no handle: the node is in no directory, and no dentry refers to it
    have hcount := hc.counted n m hm hfile
    have hopen := hc.opened n m hm
    have hnlink : m.nlink = 0 := by
      by_contra h
      exact hfree (.inr (.inl (pos_of_ne_zero h)))
    have hclosed : m.openCount = 0 := by
      by_contra h
      exact hfree (.inr (.inr (pos_of_ne_zero h)))
    have horphan : m.parent = none := by
      by_contra h
      rw [if_pos (isSome_iff_ne_none.mpr h)] at hcount
      omega
    have hnone : s.linkers n = ∅ := by
      rw [hnlink, horphan] at hcount
      simpa using hcount.symm
    have hstay : ramfsUnlinkFromParent s n = s := by
      unfold ramfsUnlinkFromParent
      rw [parent_eq hm, horphan]
    rw [hstay]
    have hpr := free_pruned hs hm hfile horphan
    have hdir := not_dir_of_isFile hm hfile
    have hroot : n ≠ ROOT := by
      rintro rfl
      rw [hs.root_dir] at hdir
      cases hdir
    have hto : ∀ d t, s.linkTarget d = some t → ¬ Below s.links n t := by
      intro d t hd hbelow
      rw [Shape.below_leaf hdir hbelow, ← hs.mem_linkers, hnone] at hd
      cases hd
    have hfrom : ∀ d t, s.linkTarget d = some t → ¬ Below s.links n d := by
      intro d t hd hbelow
      rw [Shape.below_leaf hdir hbelow, linkTarget_eq hm, Node.not_link_of_isFile hfile] at hd
      cases hd
    refine ⟨⟨hs.prune hroot hpr fun d t _ => hto d t, ?_, ?_⟩, sameTree_free hs hm hfile horphan⟩
    · refine hc.prune_same hpr (fun q hq => ?_) fun i _ => ?_
      · rw [Shape.below_leaf hdir hq, ← hopen, hclosed]
      · ext d
        rw [mem_linkers_pruned hs hpr]
        exact ⟨And.left, fun hd => ⟨hd, hfrom d i (hs.mem_linkers.mp hd)⟩⟩
    · intro i mi hmi hf
      obtain ⟨hout, mo, hmo, rfl⟩ := hpr.exists_old hmi
      obtain ⟨-, -, -, hff, -, hnl, hop⟩ := Node.dropChild_fields
      rw [hnl, hop]
      exact hk i mo (Below.ne_of_not hout) hmo (hff.symm.trans hf)

/-! ## Removing -/

/-- Freeing keeps what is not beneath the nodes on the stack. -/
theorem freeLoop_outside {L : Links Ptr} (k : Nat) {stack : List Ptr}
    (hstack : ∀ x ∈ stack, Below L n x) (hsub : ∀ q c, c ∈ s.children q → c ∈ L.children q)
    (hq : ¬ Below L n q) :
    (freeLoop k stack s).nodes q = s.nodes q := by
  induction k generalizing stack s with
  | zero => rfl
  | succ k ih =>
    cases stack with
    | nil => rfl
    | cons cur stack =>
      have hcur : Below L n cur := hstack cur mem_cons_self
      have hne : q ≠ cur := by
        rintro rfl
        exact hq hcur
      refine (ih (fun x hx => ?_) fun q' c hc => ?_).trans (free_of_ne hne)
      · rcases mem_append.mp hx with hx | hx
        · have hmem := mem_of_mem_take (mem_of_mem_take (mem_reverse.mp hx))
          exact hcur.child (hsub cur x hmem)
        · exact hstack x (mem_cons_of_mem _ hx)
      · by_cases hcur' : q' = cur
        · rw [Fs.children, hcur', free_self] at hc
          cases hc
        · rw [Fs.children, free_of_ne hcur'] at hc
          exact hsub q' c hc

theorem freeLoop_fresh (k : Nat) (stack : List Ptr) (s : Fs) :
    (freeLoop k stack s).fresh = s.fresh := by
  induction k generalizing stack s with
  | zero => rfl
  | succ k ih =>
    cases stack with
    | nil => rfl
    | cons cur stack => exact ih _ _

theorem freeLoop_nil (k : Nat) (s : Fs) : freeLoop k [] s = s := by
  cases k <;> rfl

theorem nodes_foldl_free (l : List Ptr) (s : Fs) :
    (l.foldl Fs.free s).nodes q = if q ∈ l then none else s.nodes q := by
  induction l generalizing s with
  | nil => rfl
  | cons a l ih =>
    rw [foldl_cons, ih]
    by_cases hq : q = a
    · rw [hq, if_pos mem_cons_self, free_self]
      exact ite_self _
    · rw [free_of_ne hq]
      simp only [mem_cons, hq, false_or]

theorem children_foldl_free {l : List Ptr} (hq : q ∉ l) :
    (l.foldl Fs.free s).children q = s.children q := by
  rw [Fs.children, nodes_foldl_free, if_neg hq]
  rfl

/-- The loop frees just what is beneath `cs`, once each, when these stand on top of `r` others. -/
def FreesAll (L : Links Ptr) (r : Nat) (cs : List Ptr) : Prop :=
  ∃ l : List Ptr, l.Nodup ∧ (∀ d, d ∈ l ↔ ∃ c ∈ cs, Below L c d) ∧ ∀ s stack k, stack.length = r →
    (∀ d ∈ l, s.children d = L.children d) →
      freeLoop (l.length + k) (cs.reverse ++ stack) s = freeLoop k stack (l.foldl Fs.free s)

section FreesAll

variable {L : Links Ptr} {r : Nat}

theorem freesAll_nil : FreesAll L r [] := by
  refine ⟨[], nodup_nil, fun d => ?_, fun s stack k _ _ => ?_⟩
  · simp
  · rw [length_nil, Nat.zero_add]
    rfl

/-- The youngest is freed first, above its siblings. -/
theorem FreesAll.concat {cs : List Ptr} {c : Ptr} (hcs : FreesAll L r cs)
    (hc : FreesAll L (r + cs.length) [c]) (hapart : ∀ c' ∈ cs, ∀ d, Below L c d → ¬ Below L c' d) :
    FreesAll L r (cs ++ [c]) := by
  obtain ⟨l, hnodup, hmem, hfree⟩ := hcs
  obtain ⟨l', hnodup', hmem', hfree'⟩ := hc
  have hdisj : ∀ d ∈ l, d ∉ l' := by
    intro d hd hd'
    obtain ⟨c', hc', hb⟩ := (hmem d).mp hd
    obtain ⟨c'', hc'', hb'⟩ := (hmem' d).mp hd'
    obtain rfl := mem_singleton.mp hc''
    exact hapart c' hc' d hb' hb
  refine ⟨l' ++ l, nodup_append'.mpr ⟨hnodup', hnodup, fun d hd' hd => hdisj d hd hd'⟩, fun d => ?_,
    fun s stack k hlen hch => ?_⟩
  · rw [mem_append, hmem, hmem']
    simp only [mem_append, mem_singleton, exists_eq_left, or_and_right, exists_or]
    exact or_comm
  · have h' := hfree' s (cs.reverse ++ stack) (l.length + k)
      (by rw [length_append, length_reverse, hlen, Nat.add_comm]) fun d hd =>
      hch d (mem_append_left _ hd)
    have hrest : ∀ d ∈ l, (l'.foldl Fs.free s).children d = L.children d := fun d hd => by
      rw [children_foldl_free (hdisj d hd), hch d (mem_append_right _ hd)]
    rw [foldl_append, ← hfree _ stack k hlen hrest, ← h', length_append, reverse_append,
      append_assoc, Nat.add_assoc]

/-- A node makes room for its children. -/
theorem FreesAll.parent (hch : FreesAll L r (L.children n))
    (hfit : r + (L.children n).length ≤ STACK_CAP) (hout : ∀ c ∈ L.children n, ¬ Below L c n) :
    FreesAll L r [n] := by
  obtain ⟨l, hnodup, hmem, hfree⟩ := hch
  have hn : n ∉ l := by
    rw [hmem]
    rintro ⟨c, hc, hb⟩
    exact hout c hc hb
  refine ⟨n :: l, nodup_cons.mpr ⟨hn, hnodup⟩, fun d => ?_, fun s stack k hlen hsame => ?_⟩
  · rw [mem_cons, hmem]
    simp only [mem_singleton, exists_eq_left]
    exact Below.iff_child.symm
  · have hguard : (L.children n).length ≤ GUARD := by
      unfold STACK_CAP at hfit
      unfold GUARD
      omega
    rw [length_cons, Nat.add_right_comm, foldl_cons, ← hfree _ stack k hlen fun d hd => ?_]
    · change freeLoop (l.length + k)
        (((((s.children n).take GUARD).take (STACK_CAP - stack.length)).reverse) ++ stack)
        (s.free n) = _
      rw [hsame n mem_cons_self, take_of_length_le hguard, take_of_length_le (by omega)]
    · have hne : d ≠ n := by
        rintro rfl
        exact hn hd
      rw [Fs.children, free_of_ne hne]
      exact hsame d (mem_cons_of_mem _ hd)

/-- **What a stack of 64 suffices for is freed.** -/
theorem Roomy.freesAll {root : Ptr} (hroot : Rooted L root) (h : Roomy L r n) :
    FreesAll L r [n] := by
  induction h with
  | @node r n hfit _ ih =>
    -- the children up to the `m`-th
    have hpre : ∀ m, FreesAll L r ((L.children n).take m) := by
      intro m
      induction m with
      | zero => exact freesAll_nil
      | succ m ihm =>
        cases hc : (L.children n)[m]? with
        | none =>
          rw [take_of_length_le (getElem?_eq_none_iff.mp hc |>.trans (Nat.le_succ m))]
          rwa [take_of_length_le (getElem?_eq_none_iff.mp hc)] at ihm
        | some c =>
          obtain ⟨hlt, -⟩ := List.getElem?_eq_some_iff.mp hc
          have hnew := (hroot.nodup n).sublist (take_sublist (m + 1) _)
          rw [take_add_one, hc] at hnew ⊢
          refine ihm.concat ?_ fun c' hc' d hb hb' => ?_
          · rw [length_take_of_le hlt.le]
            exact ih m c hc
          · have hne : c' ≠ c := by
              rintro rfl
              exact (nodup_append'.mp hnew).2.2 hc' (mem_singleton.mpr rfl)
            exact hroot.siblings_apart (mem_of_mem_take hc') (mem_of_getElem? hc) hne hb' hb
    refine FreesAll.parent ?_ hfit fun c hc =>
      hroot.not_below_parent ((hroot.mem_children n c).mp hc)
    have := hpre (L.children n).length
    rwa [take_length] at this

/-- The directory that has left its parent is freed with all that is beneath it. -/
theorem Roomy.freed (h : Roomy s.links 0 n) (hs : Shape s) (hpar : s.parent n = some p)
    (hcut : Cut s n s') {f : Node → Node} (hf : KeepsShape f) (d : Ptr) (hd : Below s.links n d) :
    (freeLoop s'.fresh [n] (s'.modify n f)).nodes d = none := by
  obtain ⟨l, hnodup, hmem, hfree⟩ := h.freesAll hs.rooted
  have hbelow : ∀ d, d ∈ l ↔ Below s.links n d := fun d => by
    rw [hmem]
    simp only [mem_singleton, exists_eq_left]
  have hsub : l ⊆ range s.fresh := fun d hd => by
    have hroot : Below s.links ROOT n := hs.rooted.reached n (by simp [Fs.links, hpar])
    obtain ⟨md, hmd⟩ := hs.live (hroot.trans ((hbelow d).mp hd))
    exact mem_range.mpr (hs.lt_fresh hmd)
  have hlen := (subperm_of_subset hnodup hsub).length_le
  rw [length_range, ← hcut.fresh] at hlen
  have hsame : ∀ d ∈ l, (s'.modify n f).children d = s.children d := fun d hd => by
    have hnot : n ∉ s.children d := fun hmem =>
      hs.rooted.not_below_parent (hs.mem_children.mp hmem) ((hbelow d).mp hd)
    rw [children_modify hf.children, hcut.children, erase_of_not_mem hnot]
  have hloop := (hfree (s'.modify n f) [] (s'.fresh - l.length) rfl hsame).trans (freeLoop_nil _ _)
  rw [Nat.add_sub_of_le hlen] at hloop
  exact (congrArg (Fs.nodes · d) hloop).trans
    ((nodes_foldl_free l _).trans (if_pos ((hbelow d).mpr hd)))

end FreesAll

/-- **A file loses a name** that is counted no more: its link count follows, and it is freed if that
was the last thing that kept it. -/
theorem dropName_inv (hs : Shape s) (hc : Counts s opens ((fun _ => 0) + Pi.single t 1))
    (hm : s.nodes t = some m) (hfile : m.isFile = true) (hk : Kept s) :
    Inv (ramfsMaybeFreeInode (s.modify t fun m => { m with nlink := m.nlink - 1 }) t) opens ∧
      SameTree s (ramfsMaybeFreeInode (s.modify t fun m => { m with nlink := m.nlink - 1 }) t) := by
  have hc' := hc.modify_nlink (g := fun k => k - 1) (k := -1) fun m hm hf => by
    have hcount := hc.counted t m hm hf
    rw [Pi.add_apply, Pi.single_eq_same] at hcount
    split at hcount <;> omega
  have howed : ((fun _ => 0) + Pi.single t 1 + Pi.single t (-1) : Ptr → Int) = fun _ => 0 := by
    rw [add_assoc, ← Pi.single_add]
    funext i
    simp
  rw [howed] at hc'
  have hkeep := keepsShape_nlink fun k => k - 1
  have hm' : (s.modify t fun m => { m with nlink := m.nlink - 1 }).nodes t
      = some { m with nlink := m.nlink - 1 } := by
    rw [modify_self, hm]
    rfl
  obtain ⟨hinv, hsame⟩ := maybeFree_inv (hs.modify hkeep) hc' hm' hfile fun i mi hi hmi hf => by
    rw [modify_of_ne hi] at hmi
    exact hk i mi hmi hf
  exact ⟨hinv, (sameTree_modify hkeep).trans hsame⟩

section Remove

variable (hinv : Inv s opens) (hpar : s.parent n = some p) (hvis : n ∈ (s.children p).take GUARD)

include hinv hpar hvis

/-- A hard-link dentry goes, and its file loses a name. -/
theorem removeNode_link (hlink : s.linkTarget n = some t) :
    Inv (removeNode s n) opens ∧ Trimmed s n (removeNode s n) := by
  obtain ⟨hs, hc, hk⟩ := hinv
  obtain ⟨mn, hmn, hmlink⟩ := exists_of_linkTarget hlink
  obtain ⟨mt, hmt, hfile⟩ := hs.link_file n t hlink
  have hdir : s.isDir n = false := (isDir_eq hmn).trans (Node.not_dir_of_link hmlink)
  have hcut := unlink_cut hs hpar hvis
  have hpr : Pruned s n ((ramfsUnlinkFromParent s n).free n) := by
    refine hcut.pruned rfl (fun q hq => ?_) fun q _ hne => free_of_ne hne
    rw [Shape.below_leaf hdir hq, free_self]
  have htarget : ∀ d t', s.linkTarget d = some t' → ¬ Below s.links n t' := by
    intro d t' hd hbelow
    obtain ⟨m, hm, hf⟩ := hs.link_file d t' hd
    rw [Shape.below_leaf hdir hbelow, hmn] at hm
    obtain rfl := some.inj hm
    rw [Node.not_link_of_isFile hf] at hmlink
    cases hmlink
  have hs1 : Shape ((ramfsUnlinkFromParent s n).free n) :=
    hs.prune (hs.rooted.ne_root hpar) hpr fun d t' _ => htarget d t'
  -- the dentry is counted no more
  have hlost : ∀ i, ((s.linkers i).card : Int) =
      (((ramfsUnlinkFromParent s n).free n).linkers i).card + Pi.single
      (M := fun _ => Int) t 1 i := by
    intro i
    have herase : ((ramfsUnlinkFromParent s n).free n).linkers i = (s.linkers i).erase n := by
      ext d
      rw [mem_linkers_pruned hs hpr, Finset.mem_erase, and_comm]
      refine and_congr_left fun _ => not_congr ⟨fun hb => Shape.below_leaf hdir hb, ?_⟩
      rintro rfl
      exact .self
    rw [herase]
    by_cases hi : i = t
    · rw [hi, Pi.single_eq_same]
      have hmem : n ∈ s.linkers t := hs.mem_linkers.mpr hlink
      have hcard := Finset.card_erase_add_one hmem
      omega
    · have hmem : n ∉ s.linkers i := by
        rw [hs.mem_linkers, hlink]
        exact fun e => hi (some.inj e).symm
      rw [Finset.erase_eq_of_notMem hmem, Pi.single_eq_of_ne hi, add_zero]
  have hopen : ∀ q, Below s.links n q → opens q = 0 := by
    intro q hq
    rw [Shape.below_leaf hdir hq]
    by_contra h
    obtain ⟨m, hm, hno⟩ := hc.open_live n h
    rw [hmn] at hm
    obtain rfl := some.inj hm
    rw [hmlink] at hno
    cases hno
  have hc1 := hc.prune hpr hopen fun i _ => hlost i
  have hmt1 : ((ramfsUnlinkFromParent s n).free n).nodes t = some (mt.dropChild n) := by
    rw [hpr.rest t (htarget n t hlink), hmt]
    rfl
  have hfile1 : (mt.dropChild n).isFile = true := Node.dropChild_fields.2.2.2.1.trans hfile
  have hmt2 :
      (((ramfsUnlinkFromParent s n).free n).modify t fun m => { m with nlink := m.nlink - 1 }).nodes
      t = some { mt.dropChild n with nlink := (mt.dropChild n).nlink - 1 } := by
    rw [modify_self, hmt1]
    rfl
  obtain ⟨hinv', hsame⟩ := dropName_inv hs1 hc1 hmt1 hfile1 (hk.prune hpr)
  have hdef : removeNode s n = ramfsMaybeFreeInode
      (((ramfsUnlinkFromParent s n).free n).modify t fun m => { m with nlink := m.nlink - 1 })
      t := by
    unfold removeNode
    rw [hlink]
    simp only [hmt2, any_some, decide_eq_true_eq]
    split
    · rfl
    next hpos =>
      unfold ramfsMaybeFreeInode
      rw [hmt2]
      exact (if_pos (.inr (.inl (pos_of_ne_zero hpos)))).symm
  rw [hdef]
  exact ⟨hinv', hpr.trimmed.same hsame⟩

/-- A file loses its own name. -/
theorem removeNode_file (hm : s.nodes n = some m) (hfile : m.isFile = true) :
    Inv (removeNode s n) opens ∧ Trimmed s n (removeNode s n) := by
  obtain ⟨hs, hc, hk⟩ := hinv
  have hdir := not_dir_of_isFile hm hfile
  have hcut := unlink_cut hs hpar hvis
  have hs1 : Shape (ramfsUnlinkFromParent s n) := hs.orphan hm hfile hcut
  have hc1 := hc.orphan hpar hcut
  have hm1 : (ramfsUnlinkFromParent s n).nodes n = some (cut n n m) :=
    hcut.some_iff.mpr ⟨m, hm, rfl⟩
  have hfile1 : (cut n n m).isFile = true := (cut_fields n n m).2.2.1.trans hfile
  have hkeep := keepsShape_nlink fun k => k - 1
  obtain ⟨hinv', hsame⟩ := dropName_inv hs1 hc1 hm1 hfile1 fun i mi hmi hf => by
    obtain ⟨mo, hmo, rfl⟩ := hcut.some_iff.mp hmi
    obtain ⟨-, -, hff, -, hnl, hop, -⟩ := cut_fields n i mo
    rw [hnl, hop]
    exact hk i mo hmo (hff.symm.trans hf)
  have hdir2 :
      ((ramfsUnlinkFromParent s n).modify n fun m => { m with nlink := m.nlink - 1 }).isDir n
      = false := by
    rw [isDir_modify hkeep.isDir, hcut.isDir, hdir]
  have hdef : removeNode s n = ramfsMaybeFreeInode
      ((ramfsUnlinkFromParent s n).modify n fun m => { m with nlink := m.nlink - 1 }) n := by
    unfold removeNode
    rw [linkTarget_eq hm, Node.not_link_of_isFile hfile]
    simp only [hdir2, Bool.false_eq_true, if_false]
  rw [hdef]
  exact ⟨hinv', (hcut.trimmed hdir).same hsame⟩

/-- A directory is freed with all that is beneath it. -/
theorem removeNode_dir (hdir : s.isDir n = true) (hrem : Removable s n) :
    Inv (removeNode s n) opens ∧ Trimmed s n (removeNode s n) := by
  obtain ⟨hs, hc, hk⟩ := hinv
  obtain ⟨m, hm, hmdir⟩ := exists_of_isDir hdir
  have hcut := unlink_cut hs hpar hvis
  have hkeep := keepsShape_nlink fun k => k - 1
  have hlink : s.linkTarget n = none := by
    by_contra hl
    obtain ⟨t, ht⟩ := ne_none_iff_exists'.mp hl
    rw [linkTarget_eq hm] at ht
    rw [Node.not_dir_of_link ht] at hmdir
    cases hmdir
  obtain ⟨s1, hs1⟩ : ∃ s1, s1 = (ramfsUnlinkFromParent s n).modify n fun m =>
    { m with nlink := m.nlink - 1 } := ⟨_, rfl⟩
  have hdir1 : s1.isDir n = true := by
    rw [hs1, isDir_modify hkeep.isDir, hcut.isDir, hdir]
  have hdef : removeNode s n = freeLoop (ramfsUnlinkFromParent s n).fresh [n] s1 := by
    unfold removeNode
    rw [hlink]
    simp only [← hs1, hdir1, if_true]
    rw [hs1]
    rfl
  have hlinks : s1.links = (ramfsUnlinkFromParent s n).links := by
    rw [hs1]
    exact links_modify hkeep
  have hpr : Pruned s n (removeNode s n) := by
    refine hcut.pruned ?_ (fun d hd => ?_) fun q hq hne => ?_
    · rw [hdef, freeLoop_fresh, hs1]
      rfl
    · rw [hdef, hs1]
      exact hrem.roomy.freed hs hpar hcut hkeep d hd
    rw [← hcut.below_iff] at hq
    rw [hdef, freeLoop_outside _ (fun x hx => ?_) (fun q' c hc' => ?_) hq, hs1, modify_of_ne hne]
    · rw [mem_singleton.mp hx]
      exact .self
    · rw [← hlinks]
      exact hc'
  refine ⟨⟨hs.prune (hs.rooted.ne_root hpar) hpr fun d t hd ht => ?_, ?_, hk.prune hpr⟩,
    hpr.trimmed⟩
  · exact fun hbelow => hd ((hrem.inside d t ht).mpr hbelow)
  refine hc.prune_same hpr (fun q hq => ?_) fun i hi => ?_
  · by_contra hopen
    obtain ⟨mq, hmq, -⟩ := hc.open_live q hopen
    rw [← hc.opened q mq hmq] at hopen
    exact hopen (hrem.closed q mq hq hmq)
  · ext d
    rw [mem_linkers_pruned hs hpr]
    refine ⟨And.left, fun hd => ⟨hd, fun hbelow => hi ?_⟩⟩
    exact (hrem.inside d i (hs.mem_linkers.mp hd)).mp hbelow

theorem removeNode_spec (hcan : CanRemove s n) :
    Inv (removeNode s n) opens ∧ Trimmed s n (removeNode s n) := by
  obtain ⟨m, hm, -⟩ := exists_of_parent hpar
  cases hdir : s.isDir n with
  | true => exact removeNode_dir hinv hpar hvis hdir (hcan hdir)
  | false =>
    cases hlink : s.linkTarget n with
    | some t => exact removeNode_link hinv hpar hvis hlink
    | none =>
      refine removeNode_file hinv hpar hvis hm (Node.isFile_of_not ?_ ?_)
      · rw [← isDir_eq hm, hdir]
      · rw [← linkTarget_eq hm, hlink]

end Remove

/-! ## Creating -/

/-- The tree and the counters cannot tell `m'` from `m`: only the owner and the mode may differ. -/
structure Alike (m' m : Node) : Prop where
  name : m'.name = m.name
  body : m'.body = m.body
  nlink : m'.nlink = m.nlink
  openCount : m'.openCount = m.openCount

theorem owner_alike (ct : Cred) (m : Node) : Alike (ramfsSetCreateOwner ct m) m := by
  unfold ramfsSetCreateOwner
  split <;> exact ⟨rfl, rfl, rfl, rfl⟩

theorem umask_alike (ct : Cred) (base : Nat) (m : Node) :
    Alike (ramfsApplyUmaskMode ct base (ramfsSetCreateOwner ct m)) m := by
  obtain ⟨hname, hbody, hnlink, hopen⟩ := owner_alike ct m
  unfold ramfsApplyUmaskMode
  split <;> exact ⟨hname, hbody, hnlink, hopen⟩

theorem Alike.body_fields (h : Alike m' m) :
    m'.children = m.children ∧ m'.linkTarget = m.linkTarget ∧ m'.isFile = m.isFile := by
  unfold Node.children Node.linkTarget Node.isFile
  rw [h.body]
  exact ⟨rfl, rfl, rfl⟩

theorem unhidden_of_short (h : (s.children p).length ≤ GUARD) (name : Name) :
    Unhidden s p name := by
  intro c hc
  rw [drop_of_length_le h] at hc
  cases hc

/-- No child has a name that was not found and is not hidden. -/
theorem name_free (hfind : ramfsFindChild s p name = none) (hun : Unhidden s p name) :
    ∀ c ∈ s.children p, s.nameOf c ≠ some name := by
  intro c hc
  rw [← take_append_drop GUARD (s.children p)] at hc
  rcases mem_append.mp hc with hc | hc
  · exact findChild_none hfind c hc
  · exact hun c hc

section

variable (hinv : Inv s opens) {file : Handle}

include hinv

theorem attach_inv (hp : s.isDir p = true) (halike : Alike m' m)
    (hfind : ramfsFindChild s p m.name = none) (hun : Unhidden s p m.name) (hleaf : m.children = [])
    (hlink : m.linkTarget = none) (hone : m.isFile = true → m.nlink = 1) :
    Inv (s.attach p m') (update opens s.fresh m.openCount) := by
  obtain ⟨hs, hc, hk⟩ := hinv
  obtain ⟨hchild, htarget, hfile⟩ := halike.body_fields
  rw [← halike.name] at hfind hun
  rw [← hchild] at hleaf
  rw [← htarget] at hlink
  rw [← hfile, ← halike.nlink] at hone
  rw [← halike.openCount]
  refine ⟨hs.attach hp hleaf (name_free hfind hun) (fun t ht => ?_), hc.attach hs hlink hone,
    fun i mi hmi hf => ?_⟩
  · rw [hlink] at ht
    cases ht
  by_cases hi : i = s.fresh
  · rw [hi, attach_fresh] at hmi
    obtain rfl := some.inj hmi
    have hnlink := hone hf
    refine .inl ?_
    change 0 < m'.nlink
    omega
  · obtain ⟨m0, hm0, hff, -, hnl, hop⟩ := attach_old hi hmi
    rw [hnl, hop]
    exact hk i m0 hm0 (hff.symm.trans hf)

/-- The name goes to a place where it can be seen. -/
def CanName (s : Fs) (mem : Bool) (path : List Char) : Prop :=
  ∀ p, newPlace s mem path = .ok p → Unhidden s p (lastName path)

theorem opens_update_zero : update opens s.fresh 0 = opens := by
  rw [← opens_fresh hinv.shape hinv.counts]
  exact update_eq_self _ _

/-- The handles with a new one. -/
def addOpen (opens : Ptr → Nat) : Option Ptr → Ptr → Nat
  | none => opens
  | some c => update opens c (opens c + 1)

theorem create_inv (ct : Cred) (hcan : CanName s (mem 1) path) :
    Inv (ramfsCreate s ct mem path).2.2 (addOpen opens (ramfsCreate s ct mem path).2.1) := by
  unfold ramfsCreate
  split
  · exact hinv
  split
  · exact hinv
  split
  · exact hinv
  next p hplace =>
  split
  · exact hinv
  next hfind =>
  split
  · exact hinv
  split
  · exact hinv
  obtain ⟨-, -, hdir⟩ := newPlace_ok hplace
  obtain ⟨hname, hbody, hnlink, -⟩ :=
    umask_alike ct 0o666 (ramfsAllocNode (lastName path) (.reg []))
  change Inv _ (update opens s.fresh (opens s.fresh + 1))
  rw [opens_fresh hinv.shape hinv.counts]
  exact attach_inv hinv hdir (m := { ramfsAllocNode (lastName path) (.reg []) with openCount := 1 })
    ⟨hname, hbody, hnlink, rfl⟩ (not_isSome_iff_eq_none.mp hfind) (hcan p hplace) rfl rfl
    fun _ => rfl

theorem mkdir_inv (hcan : CanName s (mem 1) (cutSlash path)) :
    Inv (ramfsMkdir s ct mem path).2 opens := by
  unfold ramfsMkdir
  split
  · exact hinv
  split
  · exact hinv
  split
  · exact hinv
  next p hplace =>
  split
  · exact hinv
  next hfind =>
  split
  · exact hinv
  obtain ⟨-, -, hdir⟩ := newPlace_ok hplace
  rw [← opens_update_zero hinv]
  exact attach_inv hinv hdir
    (umask_alike ct 0o777 (ramfsAllocNode (lastName (cutSlash path)) (.dir [])))
    (not_isSome_iff_eq_none.mp hfind) (hcan p hplace) rfl rfl nofun

theorem symlink_inv {target : List Char} (hcan : CanName s (mem 1) path) :
    Inv (ramfsSymlink s ct mem path target).2 opens := by
  unfold ramfsSymlink
  split
  · exact hinv
  split
  · exact hinv
  split
  · exact hinv
  next p hplace =>
  split
  · exact hinv
  next hfind =>
  split
  · exact hinv
  split
  · exact hinv
  obtain ⟨-, -, hdir⟩ := newPlace_ok hplace
  rw [← opens_update_zero hinv]
  exact attach_inv hinv hdir
    (owner_alike ct { ramfsAllocNode (lastName path) (.lnk target) with perm := 0o777 })
    (not_isSome_iff_eq_none.mp hfind) (hcan p hplace) rfl rfl fun _ => rfl

/-! ## Hard links -/

theorem linkInode_inv {target : Ptr} (hcan : CanName s (mem 2) newpath)
    (hlive : ∃ m, s.nodes target = some m)
    (hroom : ∀ m, s.nodes (ramfsResolveLink s target) = some m → m.nlink + 1 < COUNT_LIMIT) :
    Inv (ramfsLinkInode s mem target newpath).2 opens := by
  unfold ramfsLinkInode
  split
  · exact hinv
  split
  · exact hinv
  next hnodir =>
  split
  · exact hinv
  split
  · exact hinv
  next p hplace =>
  split
  · exact hinv
  split
  · exact hinv
  next hfind =>
  obtain ⟨hs, hc, hk⟩ := hinv
  obtain ⟨-, -, hdir⟩ := newPlace_ok hplace
  obtain ⟨m, hm, hlink⟩ := resolveLink_live hs hlive
  have hfile : m.isFile = true := by
    refine Node.isFile_of_not ?_ hlink
    by_contra hd
    have htdir : s.isDir (ramfsResolveLink s target) = true := by
      rw [isDir_eq hm]
      exact Bool.eq_true_of_not_eq_false hd
    rw [resolveLink_dir hs htdir] at htdir
    exact hnodir htdir
  set s1 := s.attach p ⟨lastName newpath, .link (ramfsResolveLink s target), 0, 0, 0, 0, 0, none⟩
  have hs1 : Shape s1 := by
    refine hs.attach hdir rfl ?_ fun t ht => ?_
    · exact name_free (not_isSome_iff_eq_none.mp hfind) (hcan p hplace)
    · obtain rfl := some.inj ht
      exact ⟨m, hm, hfile⟩
  have hc1 : Counts s1 opens (Pi.single (ramfsResolveLink s target) (-1)) :=
    hc.attach_link hs rfl rfl
  have hadd : ∀ m', s1.nodes (ramfsResolveLink s target) = some m' → m'.nlink = m.nlink := by
    intro m' hm'
    obtain ⟨m0, hm0, -, -, hnl, -⟩ := attach_old (hs.lt_fresh hm).ne hm'
    rw [hm] at hm0
    obtain rfl := some.inj hm0
    exact hnl
  have hc2 := hc1.modify_nlink (g := fun k => (k + 1) % COUNT_LIMIT) (k := 1) fun m' hm' _ => by
    rw [hadd m' hm', mod_eq_of_lt (hroom m hm)]
    rfl
  refine ⟨hs1.modify (keepsShape_nlink fun k => (k + 1) % COUNT_LIMIT), ?_, fun i mi hmi hf => ?_⟩
  · rw [← Pi.single_add, neg_add_cancel, Pi.single_zero] at hc2
    exact hc2
  by_cases hi : i = ramfsResolveLink s target
  · rw [hi, modify_self] at hmi
    obtain ⟨m', hm', rfl⟩ := map_eq_some_iff.mp hmi
    refine .inl ?_
    change 0 < (m'.nlink + 1) % COUNT_LIMIT
    rw [hadd m' hm', mod_eq_of_lt (hroom m hm)]
    exact succ_pos _
  · rw [modify_of_ne hi] at hmi
    by_cases hfr : i = s.fresh
    · rw [hfr, attach_fresh] at hmi
      obtain rfl := some.inj hmi
      cases hf
    · obtain ⟨m0, hm0, hff, -, hnl, hop⟩ := attach_old hfr hmi
      rw [hnl, hop]
      exact hk i m0 hm0 (hff.symm.trans hf)

theorem link_inv (hcan : CanName s (mem 2) newpath)
    (hroom : ∀ t m, ramfsLookup s (mem 0) oldpath = some t → s.nodes t = some m →
    m.nlink + 1 < COUNT_LIMIT) :
    Inv (ramfsLink s mem oldpath newpath).2 opens := by
  unfold ramfsLink
  split
  · exact hinv
  split
  · exact hinv
  next t ht =>
  obtain ⟨q, hq, rfl⟩ := lookup_seen hinv.shape ht
  obtain ⟨m, hm, hlink⟩ := resolveLink_live hinv.shape (hinv.shape.live hq.reached)
  have hself : ramfsResolveLink s (ramfsResolveLink s q) = ramfsResolveLink s q :=
    resolveLink_of_none ((linkTarget_eq hm).trans hlink)
  refine linkInode_inv hinv hcan ⟨m, hm⟩ fun m' hm' => ?_
  rw [hself] at hm'
  exact hroom _ m' ht hm'

theorem linkOpenFile_inv (hcan : CanName s (mem 2) newpath) (hopen : opens file.node ≠ 0)
    (hroom : ∀ m, s.nodes file.node = some m → m.nlink + 1 < COUNT_LIMIT) :
    Inv (ramfsLinkOpenFile s mem file newpath).2 opens := by
  unfold ramfsLinkOpenFile
  split
  · exact hinv
  split
  · exact hinv
  · obtain ⟨m, hm, hlink⟩ := hinv.counts.open_live _ hopen
    have hself : ramfsResolveLink s file.node = file.node :=
      resolveLink_of_none ((linkTarget_eq hm).trans hlink)
    refine linkInode_inv hinv hcan ⟨m, hm⟩ fun m' hm' => ?_
    rw [hself] at hm'
    exact hroom m' hm'

/-! ## Handles -/

theorem open_inv
    (hroom : ∀ n m, ramfsLookupNofollow s (mem 0) path = some n → s.nodes (ramfsResolveLink s n)
    = some m → m.openCount + 1 < COUNT_LIMIT) :
    Inv (ramfsOpen s mem path).2.2
    (addOpen opens ((ramfsOpen s mem path).2.1.map Handle.node)) := by
  unfold ramfsOpen
  split
  · exact hinv
  next n hn =>
  split
  · exact hinv
  obtain ⟨hs, hc, hk⟩ := hinv
  obtain ⟨m, hm, hlink⟩ := resolveLink_live hs (hs.live (lookupNofollow_seen hs hn).reached)
  have hopened := hc.opened _ m hm
  have hcount : (m.openCount + 1) % COUNT_LIMIT = opens (ramfsResolveLink s n) + 1 := by
    rw [mod_eq_of_lt (hroom n m hn hm), hopened]
  refine ⟨hs.modify (keepsShape_open fun k => (k + 1) % COUNT_LIMIT), ?_, fun i mi hmi hf => ?_⟩
  · exact hc.modify_open (g := fun k => (k + 1) % COUNT_LIMIT) hm hlink hcount
  by_cases hi : i = ramfsResolveLink s n
  · rw [hi, modify_self, hm] at hmi
    obtain rfl := some.inj hmi
    refine .inr ?_
    change 0 < (m.openCount + 1) % COUNT_LIMIT
    rw [hcount]
    exact succ_pos _
  · rw [modify_of_ne hi] at hmi
    exact hk i mi hmi hf

theorem release_inv (hopen : opens file.node ≠ 0) :
    Inv (ramfsRelease s file) (update opens file.node (opens file.node - 1)) := by
  obtain ⟨hs, hc, hk⟩ := hinv
  obtain ⟨m, hm, hlink⟩ := hc.open_live _ hopen
  have hopened := hc.opened _ m hm
  unfold ramfsRelease
  set s1 := s.modify file.node fun m => { m with openCount := m.openCount - 1 } with hdef
  have hs1 : Shape s1 := hs.modify (keepsShape_open fun k => k - 1)
  have hc1 : Counts s1 (update opens file.node (opens file.node - 1)) fun _ => 0 :=
    hc.modify_open (g := fun k => k - 1) hm hlink (by rw [hopened])
  have hm1 : s1.nodes file.node = some { m with openCount := m.openCount - 1 } := by
    rw [hdef, modify_self, hm]
    rfl
  have hk1 : ∀ i mi, i ≠ file.node → s1.nodes i = some mi → mi.isFile = true → 0 < mi.nlink ∨
      0 < mi.openCount := by
    intro i mi hi hmi hf
    rw [hdef, modify_of_ne hi] at hmi
    exact hk i mi hmi hf
  cases hdir : m.isDir with
  | true =>
    have hstay : ramfsMaybeFreeInode s1 file.node = s1 := by
      unfold ramfsMaybeFreeInode
      rw [hm1]
      exact if_pos (.inl hdir)
    rw [hstay]
    refine ⟨hs1, hc1, fun i mi hmi hf => ?_⟩
    by_cases hi : i = file.node
    · rw [hi, hm1] at hmi
      obtain rfl := some.inj hmi
      have hno : m.isDir = false := Node.not_dir_of_isFile hf
      rw [hdir] at hno
      cases hno
    · exact hk1 i mi hi hmi hf
  | false =>
    have hfile : m.isFile = true := Node.isFile_of_not hdir hlink
    exact (maybeFree_inv hs1 hc1 hm1 hfile hk1).1

end

/-! ## `ramfs_remove` -/

/-- The caller may remove `n` from `p`: it has no credentials, or write permission on `p` and the
sticky bit is not in its way. -/
def MayRemove (s : Fs) (ct : Cred) (n p : Ptr) : Prop :=
  ∀ t pn m, ramfsCred ct = some t → s.nodes p = some pn → s.nodes n = some m →
    ramfsMayUnlinkNode pn m t = true

theorem remove_cases (s : Fs) (ct : Cred) (mem : Bool) (path : List Char) :
    ((ramfsRemove s ct mem path).1 ≠ 0 ∧ (ramfsRemove s ct mem path).2 = s) ∨
      ∃ n p, ramfsLookupNofollow s mem path = some n ∧ s.parent n = some p ∧ MayRemove s ct n p ∧
        ramfsRemove s ct mem path = (0, removeNode s n) := by
  unfold ramfsRemove
  split
  · exact .inl ⟨by simp, rfl⟩
  split
  · exact .inl ⟨by simp, rfl⟩
  next n hn =>
  split
  · exact .inl ⟨by simp, rfl⟩
  next p hp =>
  split
  next t pn m ht hpn hm =>
    split
    next hmay =>
      refine .inr ⟨n, p, hn, hp, fun t' pn' m' ht' hpn' hm' => ?_, rfl⟩
      obtain rfl := some.inj (ht.symm.trans ht')
      obtain rfl := some.inj (hpn.symm.trans hpn')
      obtain rfl := some.inj (hm.symm.trans hm')
      exact hmay
    · exact .inl ⟨by simp, rfl⟩
  next hnot => exact .inr ⟨n, p, hn, hp, fun t pn m ht hpn hm => (hnot t pn m ht hpn hm).elim, rfl⟩

theorem remove_inv (hinv : Inv s opens) {mem : Bool}
      (hcan : ∀ n p, ramfsLookupNofollow s mem path = some n → s.parent n = some p →
      MayRemove s ct n p → CanRemove s n) :
    Inv (ramfsRemove s ct mem path).2 opens := by
  rcases remove_cases s ct mem path with ⟨-, hsame⟩ | ⟨n, p, hn, hp, hmay, hr⟩
  · rw [hsame]
    exact hinv
  · rw [hr]
    exact (removeNode_spec hinv hp ((lookupNofollow_seen hinv.shape hn).up hinv.shape hp).2
      (hcan n p hn hp hmay)).1

/-! ## `ramfs_rename` -/

theorem mem_take_erase {l : List Ptr} {k : Nat} (ho : o ∈ l.take k) (hne : o ≠ e) :
    o ∈ (l.erase e).take k := by
  induction l generalizing k with
  | nil => simp at ho
  | cons x l ih =>
    cases k with
    | zero => simp at ho
    | succ k =>
      rw [take_succ_cons, mem_cons] at ho
      by_cases hx : x = e
      · rw [hx, erase_cons_head]
        have hol : o ∈ l.take k := ho.resolve_left fun h => hne (h.trans hx)
        exact take_subset_take_left l (le_succ k) hol
      · rw [erase_cons_tail (by simpa using hx), take_succ_cons, mem_cons]
        exact ho.imp_right ih

/-- The replaced node is gone, and the other one can be moved. -/
theorem movable_after {w : Ptr} (hinv : Inv s opens) (hpar : s.parent o = some w)
    (hvis : o ∈ (s.children w).take GUARD) (hp : s.isDir p = true) (hmv : Movable s o p name)
    (hfind : ramfsFindChild s p name = some e) (hne : e ≠ o) :
    Inv (removeNode s e) opens ∧ (removeNode s e).parent o = some w ∧
      o ∈ ((removeNode s e).children w).take GUARD ∧ (removeNode s e).isDir p = true ∧
      ¬ Below (removeNode s e).links o p ∧
      ∀ c ∈ (removeNode s e).children p, c ≠ o → (removeNode s e).nameOf c ≠ some name := by
  have hs := hinv.shape
  obtain ⟨hmem, hname⟩ := findChild_some hfind
  obtain ⟨hcan, hout⟩ := hmv.replaces e hfind hne
  have hpare : s.parent e = some p := hs.mem_children.mp (mem_of_mem_take hmem)
  have hep : ¬ Below s.links e p := hs.rooted.not_below_parent hpare
  obtain ⟨hinv', htrim⟩ := removeNode_spec hinv hpare hmem hcan
  have hew : ¬ Below s.links e w := fun hbelow => hout (hbelow.child (hs.mem_children.mpr hpar))
  refine ⟨hinv', ?_, ?_, ?_, fun hbelow => hmv.outside ?_, fun c hc hco => ?_⟩
  · rw [htrim.parent o hout, hpar]
  · rw [htrim.children w hew]
    exact mem_take_erase hvis hne.symm
  · rw [htrim.isDir p hep, hp]
  · -- no chain is longer than before
    have hall : ∀ q, Below (removeNode s e).links o q → Below s.links o q := by
      intro q hq
      induction hq with
      | self => exact .self
      | @child q c _ hc ih =>
        have hc' : c ∈ (removeNode s e).children q := hc
        by_cases hq : Below s.links e q
        · rw [(htrim.gone q hq).1] at hc'
          cases hc'
        · rw [htrim.children q hq] at hc'
          exact ih.child (mem_of_mem_erase hc')
    exact hall p hbelow
  · rw [htrim.children p hep] at hc
    obtain ⟨hce, hcp⟩ := (hs.rooted.nodup p).mem_erase_iff.mp hc
    have hcpar : s.parent c = some p := hs.mem_children.mp hcp
    have hcout := hs.rooted.not_below_child hcpar hce hep
    rw [htrim.nameOf c hcout (by simp [hcpar])]
    exact fun heq => hce (hs.names p c e hcp (mem_of_mem_take hmem) (heq.trans hname.symm))

/-- How a rename ends: with nothing done, or with the node moved from a state of the invariant, in
which what it replaces is gone. -/
theorem rename_spec (hinv : Inv s opens) (ct : Cred)
    (hcond : oldpath ≠ newpath → ∀ o p, ramfsLookupNofollow s (mem 0) oldpath = some o →
      newPlace s (mem 2) newpath = .ok p → Movable s o p (lastName newpath) ∧ mem 4 = true) :
    ((ramfsRename s ct mem oldpath newpath).2 = s ∧
        ((ramfsRename s ct mem oldpath newpath).1 = 0 → oldpath = newpath)) ∨
      ∃ o p w s1, ramfsLookupNofollow s (mem 0) oldpath = some o ∧
        newPlace s (mem 2) newpath = .ok p ∧
        (s1 = s ∨ ∃ e, ramfsFindChild s p (lastName newpath) = some e ∧ e ≠ o ∧ s1 = removeNode s e)
        ∧ Inv s1 opens ∧ s1.parent o = some w ∧ s1.isDir p = true ∧ ¬ Below s1.links o p ∧
        (∀ c ∈ s1.children p, c ≠ o → s1.nameOf c ≠ some (lastName newpath)) ∧
        Moved s1 o p (lastName newpath) (ramfsRename s ct mem oldpath newpath).2 := by
  have hs := hinv.shape
  unfold ramfsRename
  split
  · exact .inl ⟨rfl, fun h => absurd h (by simp)⟩
  next habs =>
  split
  next hsame => exact .inl ⟨rfl, fun _ => hsame⟩
  next hdiff =>
  split
  · exact .inl ⟨rfl, fun h => absurd h (by simp)⟩
  next o ho =>
  split
  · exact .inl ⟨rfl, fun h => absurd h (by simp)⟩
  split
  next e hplace =>
    refine .inl ⟨rfl, fun h => ?_⟩
    exact absurd h (newPlace_error hplace)
  next p hplace =>
  obtain ⟨hmv, hmem4⟩ := hcond hdiff o p ho hplace
  obtain ⟨-, -, hdir⟩ := newPlace_ok hplace
  have hseen := lookupNofollow_seen hs ho
  obtain ⟨w, hw⟩ : ∃ w, s.parent o = some w := by
    cases hpar : s.parent o with
    | some w => exact ⟨w, rfl⟩
    | none =>
      cases hseen with
      | root => exact absurd (hs.dir_reached hdir) hmv.outside
      | child _ hmem =>
        rw [hs.mem_children.mp (mem_of_mem_take hmem)] at hpar
        cases hpar
  have hvis := (hseen.up hs hw).2
  have hop := (Below.ne_of_not hmv.outside).symm
  have hhead : newpath.head? = some '/' := by
    by_contra hno
    exact habs (.inr hno)
  dsimp only
  by_cases hex : (ramfsFindChild s p (lastName newpath)).any (fun e => decide (e ≠ o)) = true
  · -- something else has the name: it is removed first
    obtain ⟨e, hfind, hne⟩ : ∃ e, ramfsFindChild s p (lastName newpath) = some e ∧ e ≠ o := by
      obtain ⟨e, he, hdec⟩ := (any_eq_true _ _).mp hex
      exact ⟨e, he, of_decide_eq_true hdec⟩
    rw [if_pos hex]
    rcases remove_cases s ct (mem 3) newpath with ⟨hfail, hsame⟩ | ⟨n, q, hn, hq, -, hr⟩
    · rw [if_pos hfail]
      exact .inl ⟨hsame, fun h => absurd h hfail⟩
    have hne' : n = e := by
      have hmem3 : mem 3 = true := by
        by_contra hno
        have hroot : newpath ≠ ['/'] := by
          rintro rfl
          exact (newPlace_ok hplace).1 rfl
        rw [ramfsLookupNofollow, if_neg hroot,
          if_pos (.inr (Bool.eq_false_of_not_eq_true hno))] at hn
        cases hn
      rw [lookupNofollow_place hs hhead hmv.plain hplace hmem3, hfind] at hn
      exact (some.inj hn).symm
    obtain ⟨hinv1, hpar1, hvis1, hdir1, hout1, hname1⟩ :=
      movable_after hinv hw hvis hdir hmv hfind hne
    rw [hr, hne']
    simp only [ne_eq, not_true_eq_false, if_false, hmem4, Bool.true_eq_false]
    exact .inr ⟨o, p, w, removeNode s e, ho, hplace, .inr ⟨e, hfind, hne, rfl⟩, hinv1, hpar1, hdir1,
      hout1, hname1, moveNode_moved hinv1.shape hpar1 hvis1 hop⟩
  · have hname : ∀ c ∈ s.children p, c ≠ o → s.nameOf c ≠ some (lastName newpath) := by
      cases hfind : ramfsFindChild s p (lastName newpath) with
      | none => exact fun c hc _ => name_free hfind hmv.unhidden c hc
      | some e =>
        obtain ⟨hmem, hname⟩ := findChild_some hfind
        have heo : e = o := by
          by_contra hne
          rw [hfind] at hex
          exact hex (decide_eq_true hne)
        rw [heo] at hmem hname
        intro c hc hco heq
        exact hco (hs.names p c o hc (mem_of_mem_take hmem) (heq.trans hname.symm))
    rw [if_neg hex]
    simp only [ne_eq, not_true_eq_false, if_false, hmem4, Bool.true_eq_false]
    exact .inr ⟨o, p, w, s, ho, hplace, .inl rfl, hinv, hw, hdir, hmv.outside, hname,
      moveNode_moved hs hw hvis hop⟩

theorem rename_inv (hinv : Inv s opens)
    (hcond : oldpath ≠ newpath → ∀ o p, ramfsLookupNofollow s (mem 0) oldpath = some o →
      newPlace s (mem 2) newpath = .ok p → Movable s o p (lastName newpath) ∧ mem 4 = true) :
    Inv (ramfsRename s ct mem oldpath newpath).2 opens := by
  rcases rename_spec hinv ct hcond with ⟨hsame, -⟩ |
    ⟨o, p, w, s1, -, -, -, hinv1, hpar, hdir, hout, hname, hmv⟩
  · rw [hsame]
    exact hinv
  · exact ⟨hinv1.shape.move hmv hpar hdir hout hname, hinv1.counts.move hmv hpar,
      hinv1.kept.move hmv⟩

end AxonOS.Ramfs.Tree

import AxonOS.Ramfs.Tree
import Mathlib.Data.Finset.Card

/-! # The invariant of the ramfs tree

`Shape` says that the nodes are a tree with distinct names in every directory, and that hard-link
dentries stand in the tree and name files. `Counts` says that `nlink` and `open_count` are what they
count; `owed` is the difference between `nlink` and the names, which is zero between two calls.
-/

namespace AxonOS.Ramfs.Tree

open Lib List Option Function Nat

/-- A non-directory inode. -/
def Node.isFile (n : Node) : Bool :=
  match n.body with
  | .reg _ => true
  | .lnk _ => true
  | _ => false

def Fs.links (s : Fs) : Links Ptr := ⟨s.children, s.parent⟩

/-- The hard-link dentries of an inode. -/
def Fs.linkers (s : Fs) (i : Ptr) : Finset Ptr :=
  (Finset.range s.fresh).filter fun d => s.linkTarget d = some i

structure Shape (s : Fs) : Prop where
  rooted : Rooted s.links ROOT
  root_dir : s.isDir ROOT = true
  dir_linked : ∀ p, s.isDir p = true → p ≠ ROOT → s.parent p ≠ none
  names : ∀ p c d, c ∈ s.children p → d ∈ s.children p → s.nameOf c = s.nameOf d → c = d
  bounded : ∀ p, s.fresh ≤ p → s.nodes p = none
  link_linked : ∀ d t, s.linkTarget d = some t → s.parent d ≠ none
  link_file : ∀ d t, s.linkTarget d = some t → ∃ n, s.nodes t = some n ∧ n.isFile = true

/-- `opens p` is the number of handles on `p`. -/
structure Counts (s : Fs) (opens : Ptr → Nat) (owed : Ptr → Int) : Prop where
  counted : ∀ i n, s.nodes i = some n → n.isFile = true →
    (n.nlink : Int) = (if n.parent.isSome then 1 else 0) + (s.linkers i).card + owed i
  opened : ∀ i n, s.nodes i = some n → n.openCount = opens i
  open_live : ∀ i, opens i ≠ 0 → ∃ n, s.nodes i = some n ∧ n.linkTarget = none

/-- Files that nothing refers to are gone. -/
def Kept (s : Fs) : Prop :=
  ∀ i n, s.nodes i = some n → n.isFile = true → 0 < n.nlink ∨ 0 < n.openCount

structure Inv (s : Fs) (opens : Ptr → Nat) : Prop where
  shape : Shape s
  counts : Counts s opens fun _ => 0
  kept : Kept s

/-! ## Nodes -/

section Nodes

variable {n : Node} {c : Ptr}

theorem Node.not_dir_of_isFile (h : n.isFile = true) : n.isDir = false := by
  obtain ⟨_, body, _⟩ := n
  cases body <;> first | rfl | cases h

theorem Node.not_link_of_isFile (h : n.isFile = true) : n.linkTarget = none := by
  obtain ⟨_, body, _⟩ := n
  cases body <;> first | rfl | cases h

theorem Node.isFile_of_not (hdir : n.isDir = false) (hlink : n.linkTarget = none) :
    n.isFile = true := by
  obtain ⟨_, body, _⟩ := n
  cases body with
  | dir cs => cases hdir
  | link t => cases hlink
  | _ => rfl

theorem Node.children_of_not_dir (h : n.isDir = false) : n.children = [] := by
  obtain ⟨_, body, _⟩ := n
  cases body <;> first | rfl | cases h

theorem Node.not_dir_of_link {t : Ptr} (h : n.linkTarget = some t) : n.isDir = false := by
  obtain ⟨_, body, _⟩ := n
  cases body <;> first | rfl | cases h

theorem Node.children_addChild (h : n.isDir = true) :
    (n.addChild c).children = c :: n.children := by
  obtain ⟨_, body, _⟩ := n
  cases body <;> first | rfl | cases h

theorem Node.children_dropChild : (n.dropChild c).children = n.children.erase c := by
  obtain ⟨_, body, _⟩ := n
  cases body <;> rfl

theorem Node.dropChild_of_not_mem (h : c ∉ n.children) : n.dropChild c = n := by
  obtain ⟨_, body, _⟩ := n
  cases body with
  | dir cs =>
    have hcs : c ∉ cs := h
    simp only [dropChild, erase_of_not_mem hcs]
  | _ => rfl

/-- The fields a change of the children leaves. -/
theorem Node.addChild_fields : (n.addChild c).name = n.name ∧ (n.addChild c).parent = n.parent ∧
    (n.addChild c).isDir = n.isDir ∧ (n.addChild c).isFile = n.isFile ∧
    (n.addChild c).linkTarget = n.linkTarget ∧ (n.addChild c).nlink = n.nlink ∧
    (n.addChild c).openCount = n.openCount := by
  obtain ⟨_, body, _⟩ := n
  cases body <;> exact ⟨rfl, rfl, rfl, rfl, rfl, rfl, rfl⟩

theorem Node.dropChild_fields : (n.dropChild c).name = n.name ∧ (n.dropChild c).parent = n.parent ∧
    (n.dropChild c).isDir = n.isDir ∧ (n.dropChild c).isFile = n.isFile ∧
    (n.dropChild c).linkTarget = n.linkTarget ∧
    (n.dropChild c).nlink = n.nlink ∧ (n.dropChild c).openCount = n.openCount := by
  obtain ⟨_, body, _⟩ := n
  cases body <;> exact ⟨rfl, rfl, rfl, rfl, rfl, rfl, rfl⟩

end Nodes

/-! ## The heap -/

section Heap

variable {s : Fs} {p q c : Ptr} {n : Node}

section

variable (h : s.nodes p = some n)

include h

theorem isDir_eq : s.isDir p = n.isDir := by rw [Fs.isDir, h]; rfl

theorem children_eq : s.children p = n.children := by rw [Fs.children, h]; rfl

theorem parent_eq : s.parent p = n.parent := by rw [Fs.parent, h]; rfl

theorem linkTarget_eq : s.linkTarget p = n.linkTarget := by rw [Fs.linkTarget, h]; rfl

end

theorem exists_of_isDir (h : s.isDir p = true) : ∃ n, s.nodes p = some n ∧ n.isDir = true := by
  cases hp : s.nodes p with
  | none =>
    rw [Fs.isDir, hp] at h
    cases h
  | some n => exact ⟨n, rfl, by rwa [isDir_eq hp] at h⟩

theorem exists_of_parent (h : s.parent c = some p) : ∃ n, s.nodes c = some n ∧ n.parent = some p :=
  bind_eq_some_iff.mp h

theorem exists_of_linkTarget {d t : Ptr} (h : s.linkTarget d = some t) :
    ∃ n, s.nodes d = some n ∧ n.linkTarget = some t := bind_eq_some_iff.mp h

theorem isDir_of_mem_children (h : c ∈ s.children p) : s.isDir p = true := by
  cases hp : s.nodes p with
  | none =>
    rw [Fs.children, hp] at h
    cases h
  | some n =>
    rw [children_eq hp] at h
    rw [isDir_eq hp]
    by_contra hdir
    rw [Node.children_of_not_dir (Bool.eq_false_of_not_eq_true hdir)] at h
    cases h

theorem not_dir_of_isFile (hm : s.nodes p = some n) (hfile : n.isFile = true) : s.isDir p = false :=
  (isDir_eq hm).trans (Node.not_dir_of_isFile hfile)

theorem children_of_not_dir (h : s.isDir p = false) : s.children p = [] := by
  refine eq_nil_iff_forall_not_mem.mpr fun c hc => ?_
  rw [isDir_of_mem_children hc] at h
  cases h

end Heap

namespace Shape

variable {s : Fs} {p c d t : Ptr}

theorem mem_children (h : Shape s) :
    c ∈ s.children p ↔ s.parent c = some p := h.rooted.mem_children p c

theorem dir_reached (h : Shape s) (hp : s.isDir p = true) : Below s.links ROOT p := by
  by_cases hroot : p = ROOT
  · rw [hroot]
    exact .self
  · exact h.rooted.reached p (h.dir_linked p hp hroot)

theorem live (h : Shape s) (hp : Below s.links ROOT p) : ∃ n, s.nodes p = some n := by
  cases hp with
  | self => exact (exists_of_isDir h.root_dir).imp fun _ => And.left
  | child _ hmem => exact (exists_of_parent (h.mem_children.mp hmem)).imp fun _ => And.left

theorem lt_fresh (h : Shape s) {n : Node} (hp : s.nodes p = some n) : p < s.fresh := by
  by_contra hle
  rw [h.bounded p (not_lt.mp hle)] at hp
  cases hp

theorem mem_linkers (h : Shape s) : d ∈ s.linkers t ↔ s.linkTarget d = some t := by
  rw [Fs.linkers, Finset.mem_filter, Finset.mem_range]
  refine ⟨And.right, fun hd => ⟨?_, hd⟩⟩
  obtain ⟨n, hn, -⟩ := exists_of_linkTarget hd
  exact h.lt_fresh hn

/-- Beneath a node that is no directory there is only the node. -/
theorem below_leaf (hdir : s.isDir p = false) (hbelow : Below s.links p c) : c = p :=
  hbelow.of_leaf (children_of_not_dir hdir)

end Shape

/-! ## Changes of attributes -/

section Modify

variable {s : Fs} {p q : Ptr} {f : Node → Node}

theorem modify_nodes (s : Fs) (p : Ptr) (f : Node → Node) (q : Ptr) :
    (s.modify p f).nodes q = if q = p then (s.nodes q).map f else s.nodes q := rfl

theorem modify_self : (s.modify p f).nodes p = (s.nodes p).map f := by rw [modify_nodes, if_pos rfl]

theorem modify_of_ne (h : q ≠ p) : (s.modify p f).nodes q = s.nodes q := by
  rw [modify_nodes, if_neg h]

section

variable {s' : Fs} {β : Type} (h : s'.nodes q = (s.nodes q).map f)

include h

/-- A projection that the change of a node leaves alone. -/
theorem map_place (g : Node → β) (hf : ∀ m, g (f m) = g m) :
    (s'.nodes q).map g = (s.nodes q).map g := by
  rw [h, Option.map_map]
  exact congrArg (Option.map · (s.nodes q)) (funext hf)

theorem bind_place (g : Node → Option β) (hf : ∀ m, g (f m) = g m) :
    (s'.nodes q).bind g = (s.nodes q).bind g := by
  rw [h, Option.bind_map]
  exact congrArg (Option.bind (s.nodes q)) (funext hf)

theorem isDir_place (hf : ∀ m, (f m).isDir = m.isDir) : s'.isDir q = s.isDir q := by
  rw [Fs.isDir, h, Option.any_map]
  exact congrArg (Option.any · (s.nodes q)) (funext hf)

end

/-- A change of some places leaves alone what it leaves alone there. -/
theorem keeps_ite {β : Type} {g : Node → β} {c : Prop} [Decidable c]
    (hf : ∀ m, g (f m) = g m) (m : Node) :
    g ((if c then f else id) m) = g m := by
  split
  · exact hf m
  · rfl

theorem modify_place (q : Ptr) :
    (s.modify p f).nodes q = (s.nodes q).map (if q = p then f else id) := by
  rw [modify_nodes]
  split <;> simp

theorem children_modify (hf : ∀ n, (f n).children = n.children) :
    (s.modify p f).children = s.children :=
  funext fun q => congrArg (Option.getD · [])
    (map_place (modify_place q) Node.children (keeps_ite hf))

theorem parent_modify (hf : ∀ n, (f n).parent = n.parent) : (s.modify p f).parent = s.parent :=
  funext fun q => bind_place (modify_place q) Node.parent (keeps_ite hf)

theorem nameOf_modify (hf : ∀ n, (f n).name = n.name) : (s.modify p f).nameOf = s.nameOf :=
  funext fun q => map_place (modify_place q) Node.name (keeps_ite hf)

theorem linkTarget_modify (hf : ∀ n, (f n).linkTarget = n.linkTarget) :
    (s.modify p f).linkTarget = s.linkTarget :=
  funext fun q => bind_place (modify_place q) Node.linkTarget (keeps_ite hf)

theorem isDir_modify (hf : ∀ n, (f n).isDir = n.isDir) : (s.modify p f).isDir = s.isDir :=
  funext fun q => isDir_place (modify_place q) (keeps_ite hf)

end Modify

section Attributes

variable {s : Fs} {opens : Ptr → Nat} {owed : Ptr → Int} {p t : Ptr} {g : Nat → Nat}
    {f : Node → Node}

/-- A change that keeps what the shape reads. -/
structure KeepsShape (f : Node → Node) : Prop where
  name : ∀ n, (f n).name = n.name
  parent : ∀ n, (f n).parent = n.parent
  children : ∀ n, (f n).children = n.children
  isDir : ∀ n, (f n).isDir = n.isDir
  isFile : ∀ n, (f n).isFile = n.isFile
  linkTarget : ∀ n, (f n).linkTarget = n.linkTarget

theorem keepsShape_nlink (g : Nat → Nat) : KeepsShape fun n => { n with nlink := g n.nlink } :=
  ⟨fun _ => rfl, fun _ => rfl, fun _ => rfl, fun _ => rfl, fun _ => rfl, fun _ => rfl⟩

theorem keepsShape_open (g : Nat → Nat) :
    KeepsShape fun n => { n with openCount := g n.openCount } :=
  ⟨fun _ => rfl, fun _ => rfl, fun _ => rfl, fun _ => rfl, fun _ => rfl, fun _ => rfl⟩

theorem links_modify (hf : KeepsShape f) : (s.modify p f).links = s.links := by
  unfold Fs.links
  rw [children_modify hf.children, parent_modify hf.parent]

theorem Shape.modify (h : Shape s) (hf : KeepsShape f) : Shape (s.modify p f) := by
  have hdir : (s.modify p f).isDir = s.isDir := isDir_modify hf.isDir
  have hpar : (s.modify p f).parent = s.parent := parent_modify hf.parent
  have hchild : (s.modify p f).children = s.children := children_modify hf.children
  have hname : (s.modify p f).nameOf = s.nameOf := nameOf_modify hf.name
  have hlink : (s.modify p f).linkTarget = s.linkTarget := linkTarget_modify hf.linkTarget
  refine ⟨?_, ?_, ?_, ?_, fun q hq => ?_, ?_, fun d t hd => ?_⟩
  · rw [links_modify hf]
    exact h.rooted
  · rw [hdir]
    exact h.root_dir
  · rw [hdir, hpar]
    exact h.dir_linked
  · rw [hchild, hname]
    exact h.names
  · rw [modify_nodes, h.bounded q hq]
    split <;> rfl
  · rw [hlink, hpar]
    exact h.link_linked
  · rw [hlink] at hd
    obtain ⟨n, hn, hfile⟩ := h.link_file d t hd
    by_cases ht : t = p
    · exact ⟨f n, by rw [ht, modify_self, ← ht, hn]; rfl, by rw [hf.isFile, hfile]⟩
    · exact ⟨n, by rw [modify_of_ne ht, hn], hfile⟩

theorem linkers_congr {s' : Fs} (hfresh : s'.fresh = s.fresh)
    (hlink : s'.linkTarget = s.linkTarget) :
    s'.linkers = s.linkers := by
  funext i
  rw [Fs.linkers, Fs.linkers, hfresh, hlink]

theorem linkers_modify (hf : KeepsShape f) : (s.modify p f).linkers = s.linkers :=
  linkers_congr rfl (linkTarget_modify hf.linkTarget)

/-- Counting a file's names differently by `k`. -/
theorem Counts.modify_nlink (h : Counts s opens owed) {k : Int}
    (hg : ∀ m, s.nodes t = some m → m.isFile = true → (g m.nlink : Int) = m.nlink + k) :
    Counts (s.modify t fun m => { m with nlink := g m.nlink }) opens (owed + Pi.single t k) := by
  have hl := linkers_modify (s := s) (p := t) (keepsShape_nlink g)
  refine ⟨fun i n hn hfile => ?_, fun i n hn => ?_, fun i hi => ?_⟩
  · rw [hl]
    by_cases hi : i = t
    · rw [hi, modify_self] at hn
      obtain ⟨m, hm, rfl⟩ := map_eq_some_iff.mp hn
      have hcount := h.counted t m hm hfile
      have hnew := hg m hm hfile
      rw [hi, Pi.add_apply, Pi.single_eq_same]
      simp only
      omega
    · rw [modify_of_ne hi] at hn
      rw [Pi.add_apply, Pi.single_eq_of_ne hi, add_zero]
      exact h.counted i n hn hfile
  · by_cases hi : i = t
    · rw [hi, modify_self] at hn
      obtain ⟨m, hm, rfl⟩ := map_eq_some_iff.mp hn
      rw [hi]
      exact h.opened t m hm
    · rw [modify_of_ne hi] at hn
      exact h.opened i n hn
  · obtain ⟨n, hn, hlink⟩ := h.open_live i hi
    by_cases hit : i = t
    · exact ⟨{ n with nlink := g n.nlink }, by rw [hit, modify_self, ← hit, hn]; rfl, hlink⟩
    · exact ⟨n, by rw [modify_of_ne hit, hn], hlink⟩

/-- Counting the handles of an inode differently. -/
theorem Counts.modify_open (h : Counts s opens owed) {k : Nat} {m : Node} (hm : s.nodes t = some m)
    (hlink : m.linkTarget = none) (hg : g m.openCount = k) :
    Counts (s.modify t fun m => { m with openCount := g m.openCount }) (update opens t k) owed := by
  have hl := linkers_modify (s := s) (p := t) (keepsShape_open g)
  refine ⟨fun i n hn hfile => ?_, fun i n hn => ?_, fun i hi => ?_⟩
  · rw [hl]
    by_cases hi : i = t
    · rw [hi, modify_self, hm] at hn
      obtain rfl := some.inj hn
      rw [hi]
      exact h.counted t m hm hfile
    · rw [modify_of_ne hi] at hn
      exact h.counted i n hn hfile
  · by_cases hi : i = t
    · rw [hi, modify_self, hm] at hn
      obtain rfl := some.inj hn
      rw [hi, update_self]
      exact hg
    · rw [modify_of_ne hi] at hn
      rw [update_of_ne hi]
      exact h.opened i n hn
  · by_cases hit : i = t
    · exact ⟨{ m with openCount := g m.openCount }, by rw [hit, modify_self, hm]; rfl, hlink⟩
    · rw [update_of_ne hit] at hi
      obtain ⟨n, hn, hnl⟩ := h.open_live i hi
      exact ⟨n, by rw [modify_of_ne hit, hn], hnl⟩

end Attributes

/-! ## A new node -/

section Attach

variable {s : Fs} {opens : Ptr → Nat} {p t q : Ptr} {n : Node}

theorem attach_fresh : (s.attach p n).nodes s.fresh = some { n with parent := some p } := if_pos rfl

theorem attach_of_ne (hq : q ≠ s.fresh) :
    (s.attach p n).nodes q = if q = p then (s.nodes q).map (Node.addChild s.fresh)
    else s.nodes q := if_neg hq

theorem attach_place (hq : q ≠ s.fresh) :
    (s.attach p n).nodes q = (s.nodes q).map (if q = p then Node.addChild s.fresh else id) := by
  rw [attach_of_ne hq]
  split <;> simp

theorem parent_attach (q : Ptr) :
    (s.attach p n).parent q = if q = s.fresh then some p else s.parent q := by
  split
  next h => rw [Fs.parent, h, attach_fresh]; rfl
  next h =>
    exact bind_place (attach_place h) Node.parent (keeps_ite fun _ => Node.addChild_fields.2.1)

theorem linkTarget_attach (q : Ptr) :
    (s.attach p n).linkTarget q = if q = s.fresh then n.linkTarget else s.linkTarget q := by
  split
  next h => rw [Fs.linkTarget, h, attach_fresh]; rfl
  next h =>
      exact bind_place (attach_place h) Node.linkTarget
        (keeps_ite fun _ => Node.addChild_fields.2.2.2.2.1)

theorem nameOf_attach (q : Ptr) :
    (s.attach p n).nameOf q = if q = s.fresh then some n.name else s.nameOf q := by
  split
  next h => rw [Fs.nameOf, h, attach_fresh]; rfl
  next h => exact map_place (attach_place h) Node.name (keeps_ite fun _ => Node.addChild_fields.1)

theorem isDir_attach (q : Ptr) :
    (s.attach p n).isDir q = if q = s.fresh then n.isDir else s.isDir q := by
  split
  next h => rw [Fs.isDir, h, attach_fresh]; rfl
  next h => exact isDir_place (attach_place h) (keeps_ite fun _ => Node.addChild_fields.2.2.1)

variable (hs : Shape s) (hp : s.isDir p = true) (hleaf : n.children = []) {i : Ptr}
    {owed : Ptr → Int}

include hs hp in
theorem ne_fresh : p ≠ s.fresh := by
  obtain ⟨m, hm, -⟩ := exists_of_isDir hp
  exact (hs.lt_fresh hm).ne

include hs hp hleaf in
theorem children_attach (q : Ptr) :
    (s.attach p n).children q = if q = p then s.fresh :: s.children q else s.children q := by
  by_cases hq : q = s.fresh
  · rw [hq, if_neg (ne_fresh hs hp).symm, children_eq attach_fresh, Fs.children,
      hs.bounded _ (le_refl _)]
    exact hleaf
  obtain ⟨m, hm, hdir⟩ := exists_of_isDir hp
  split
  next h =>
    rw [Fs.children, attach_of_ne hq, if_pos h, h, hm, children_eq hm]
    exact Node.children_addChild hdir
  next h => rw [Fs.children, Fs.children, attach_of_ne hq, if_neg h]

include hs hp hleaf in
/-- **A new name** keeps the tree. -/
theorem Shape.attach (hname : ∀ c ∈ s.children p, s.nameOf c ≠ some n.name)
    (hlink : ∀ t, n.linkTarget = some t → ∃ m, s.nodes t = some m ∧ m.isFile = true) :
    Shape (s.attach p n) := by
  have hnew : s.nodes s.fresh = none := hs.bounded _ (le_refl _)
  have hold : ∀ q c, c ∈ s.children q → c ≠ s.fresh := by
    rintro q c hc rfl
    obtain ⟨m, hm, -⟩ := exists_of_parent (hs.mem_children.mp hc)
    rw [hnew] at hm
    cases hm
  have hroot : s.fresh ≠ ROOT := by
    obtain ⟨m, hm, -⟩ := exists_of_isDir hs.root_dir
    exact (hs.lt_fresh hm).ne'
  have hfile : ∀ t m, s.nodes t = some m → m.isFile = true →
      ∃ m', (s.attach p n).nodes t = some m' ∧ m'.isFile = true := by
    intro t m hm hf
    rw [attach_of_ne (hs.lt_fresh hm).ne, hm]
    split
    · exact ⟨_, rfl, by rw [Node.addChild_fields.2.2.2.1, hf]⟩
    · exact ⟨m, rfl, hf⟩
  refine ⟨?_, ?_, fun q hq hne => ?_, fun q c d hc hd heq => ?_, fun q hq => ?_, fun d t hd => ?_,
    fun d t hd => ?_⟩
  · refine hs.rooted.attach (hs.dir_reached hp) ?_ hroot (children_attach hs hp hleaf) parent_attach
    simp [Fs.links, Fs.parent, hnew]
  · rw [isDir_attach, if_neg hroot.symm]
    exact hs.root_dir
  · rw [parent_attach]
    rw [isDir_attach] at hq
    split
    · exact some_ne_none p
    next h =>
      rw [if_neg h] at hq
      exact hs.dir_linked q hq hne
  · -- two children with one name: both old, or the new one twice
    rw [children_attach hs hp hleaf] at hc hd
    rw [nameOf_attach, nameOf_attach] at heq
    split at hc
    next hqp =>
      rw [if_pos hqp] at hd
      rw [hqp] at hc hd
      rcases mem_cons.mp hc with rfl | hc
      · rcases mem_cons.mp hd with rfl | hd
        · rfl
        · rw [if_pos rfl, if_neg (hold p d hd)] at heq
          exact absurd heq.symm (hname d hd)
      · rcases mem_cons.mp hd with rfl | hd
        · rw [if_pos rfl, if_neg (hold p c hc)] at heq
          exact absurd heq (hname c hc)
        · rw [if_neg (hold p c hc), if_neg (hold p d hd)] at heq
          exact hs.names p c d hc hd heq
    next hqp =>
      rw [if_neg hqp] at hd
      rw [if_neg (hold q c hc), if_neg (hold q d hd)] at heq
      exact hs.names q c d hc hd heq
  · have hq' : s.fresh + 1 ≤ q := hq
    have hold' : s.nodes q = none := hs.bounded q (le_of_succ_le hq')
    rw [attach_of_ne (lt_of_succ_le hq').ne', hold']
    split <;> rfl
  · rw [parent_attach]
    rw [linkTarget_attach] at hd
    split
    · exact some_ne_none p
    next h =>
      rw [if_neg h] at hd
      exact hs.link_linked d t hd
  · rw [linkTarget_attach] at hd
    split at hd
    · obtain ⟨m, hm, hf⟩ := hlink t hd
      exact hfile t m hm hf
    · obtain ⟨m, hm, hf⟩ := hs.link_file d t hd
      exact hfile t m hm hf

include hs in
theorem linkers_attach (i : Ptr) :
    (s.attach p n).linkers i = if n.linkTarget = some i then insert s.fresh (s.linkers i)
    else s.linkers i := by
  have hnew : s.linkTarget s.fresh = none := by rw [Fs.linkTarget, hs.bounded _ (le_refl _)]; rfl
  ext d
  rw [Fs.linkers, Finset.mem_filter, Finset.mem_range, linkTarget_attach]
  have hlt : d < (s.attach p n).fresh ↔ d < s.fresh ∨ d = s.fresh := Nat.lt_succ_iff_lt_or_eq
  have hmem : d < s.fresh ∧ s.linkTarget d = some i ↔ d ∈ s.linkers i := by
    rw [Fs.linkers, Finset.mem_filter, Finset.mem_range]
  rw [hlt]
  by_cases hd : d = s.fresh
  · rw [if_pos hd]
    split
    next h => exact iff_of_true ⟨.inr hd, h⟩ (by rw [hd]; exact Finset.mem_insert_self _ _)
    next h =>
      refine iff_of_false (fun e => h e.2) ?_
      rw [hd, hs.mem_linkers, hnew]
      exact nofun
  · rw [if_neg hd, or_iff_left hd, hmem]
    split
    · rw [Finset.mem_insert]
      exact ⟨.inr, fun e => e.resolve_left hd⟩
    · exact Iff.rfl

theorem attach_old {m : Node} (hi : i ≠ s.fresh) (hm : (s.attach p n).nodes i = some m) :
    ∃ m', s.nodes i = some m' ∧ m.isFile = m'.isFile ∧ m.parent = m'.parent ∧ m.nlink = m'.nlink ∧
      m.openCount = m'.openCount := by
  rw [attach_of_ne hi] at hm
  split at hm
  · obtain ⟨m', hm', rfl⟩ := map_eq_some_iff.mp hm
    obtain ⟨-, hpar, -, hfile, -, hnlink, hopen⟩ := Node.addChild_fields
    exact ⟨m', hm', hfile, hpar, hnlink, hopen⟩
  · exact ⟨m, hm, rfl, rfl, rfl, rfl⟩

include hs in
theorem opens_fresh (hc : Counts s opens owed) : opens s.fresh = 0 := by
  by_contra h
  obtain ⟨m, hm, -⟩ := hc.open_live _ h
  exact absurd (hs.lt_fresh hm) (lt_irrefl _)

theorem attach_open_live (hc : Counts s opens owed) (hs : Shape s) (hi : opens i ≠ 0) :
    ∃ m, (s.attach p n).nodes i = some m ∧ m.linkTarget = none := by
  obtain ⟨m, hm, hlink⟩ := hc.open_live i hi
  rw [attach_of_ne (hs.lt_fresh hm).ne, hm]
  split
  · exact ⟨_, rfl, by rw [Node.addChild_fields.2.2.2.2.1, hlink]⟩
  · exact ⟨m, rfl, hlink⟩

include hs in
theorem Counts.attach (hc : Counts s opens fun _ => 0) (hlink : n.linkTarget = none)
    (hn : n.isFile = true → n.nlink = 1) :
    Counts (s.attach p n) (update opens s.fresh n.openCount) fun _ => 0 := by
  have hl : ∀ i, (s.attach p n).linkers i = s.linkers i := fun i => by
    rw [linkers_attach hs, if_neg (by rw [hlink]; exact nofun)]
  have hnone : s.linkers s.fresh = ∅ := by
    refine Finset.eq_empty_of_forall_notMem fun d hd => ?_
    obtain ⟨m, hm, -⟩ := hs.link_file d _ (hs.mem_linkers.mp hd)
    exact absurd (hs.lt_fresh hm) (lt_irrefl _)
  refine ⟨fun i m hm hfile => ?_, fun i m hm => ?_, fun i hi => ?_⟩
  · rw [hl]
    by_cases hi : i = s.fresh
    · rw [hi, attach_fresh] at hm
      obtain rfl := some.inj hm
      have hone := hn hfile
      rw [hi, hnone]
      simp [hone]
    · obtain ⟨m', hm', hf, hpar, hnlink, -⟩ := attach_old hi hm
      rw [hpar, hnlink]
      exact hc.counted i m' hm' (hf.symm.trans hfile)
  · by_cases hi : i = s.fresh
    · rw [hi, attach_fresh] at hm
      obtain rfl := some.inj hm
      rw [hi, update_self]
    · obtain ⟨m', hm', -, -, -, hopen⟩ := attach_old hi hm
      rw [update_of_ne hi, hopen]
      exact hc.opened i m' hm'
  · by_cases hif : i = s.fresh
    · rw [hif, attach_fresh]
      exact ⟨_, rfl, hlink⟩
    · rw [update_of_ne hif] at hi
      exact attach_open_live hc hs hi

include hs in
/-- A new hard-link dentry, before its inode is told. -/
theorem Counts.attach_link (hc : Counts s opens fun _ => 0) (hlink : n.linkTarget = some t)
    (hopen : n.openCount = 0) : Counts (s.attach p n) opens (Pi.single t (-1)) := by
  have hfresh : s.fresh ∉ s.linkers t := by
    intro hd
    obtain ⟨m, hm, -⟩ := exists_of_linkTarget (hs.mem_linkers.mp hd)
    exact absurd (hs.lt_fresh hm) (lt_irrefl _)
  refine ⟨fun i m hm hfile => ?_, fun i m hm => ?_, fun i hi => attach_open_live hc hs hi⟩
  · by_cases hi : i = s.fresh
    · rw [hi, attach_fresh] at hm
      obtain rfl := some.inj hm
      have hno : n.linkTarget = none := Node.not_link_of_isFile hfile
      rw [hlink] at hno
      cases hno
    · obtain ⟨m', hm', hf, hpar, hnlink, -⟩ := attach_old hi hm
      have hcount := hc.counted i m' hm' (hf.symm.trans hfile)
      rw [hpar, hnlink, linkers_attach hs, hlink]
      by_cases hit : i = t
      · rw [hit, if_pos rfl, Finset.card_insert_of_notMem hfresh, Pi.single_eq_same]
        rw [hit] at hcount
        push_cast
        omega
      · rw [if_neg fun e => hit (some.inj e).symm, Pi.single_eq_of_ne hit]
        exact hcount
  · by_cases hi : i = s.fresh
    · rw [hi, attach_fresh] at hm
      obtain rfl := some.inj hm
      rw [hi, opens_fresh hs hc]
      exact hopen
    · obtain ⟨m', hm', -, -, -, hopen'⟩ := attach_old hi hm
      rw [hopen']
      exact hc.opened i m' hm'

end Attach

end AxonOS.Ramfs.Tree

import AxonOS.Ramfs.Lifetime

/-! # The names of ramfs form a tree

The runs of `Lifetime`, seen as a name space: every node with a parent is reached from the root by
one chain of children, the children of a directory have different names, and a rename that returns 0
has put the node where the new path says.
-/

namespace AxonOS.Ramfs.Tree

open Lib Option

/-- Children and parents are inverse to each other, linked nodes are reached by one chain, siblings
have different names. -/
structure IsTree (s : Fs) : Prop where
  inverse : ∀ p c, c ∈ s.children p ↔ s.parent c = some p
  chain : ∀ c, s.parent c ≠ none → ∃! l, ChainTo s.links ROOT l c
  names : ∀ p c d, c ∈ s.children p → d ∈ s.children p → s.nameOf c = s.nameOf d → c = d

/-- `s'` has `o` under that name in `p`, where a lookup finds it, and nowhere else. -/
structure Relocated (s' : Fs) (o p : Ptr) (name : Name) : Prop where
  found : walk s' false p [name] = .found o
  parent : s'.parent o = some p
  nameOf : s'.nameOf o = some name
  only : ∀ q, o ∈ s'.children q → q = p

/-- What is said of a rename: returning 0 it has moved the node, and it does not move a node beneath
itself. -/
def Renames (s : Fs) : Op → Prop
  | .rename ct mem oldpath newpath => oldpath ≠ newpath → ∀ o p,
      ramfsLookupNofollow s (mem 0) oldpath = some o → newPlace s (mem 2) newpath = .ok p →
        ((ramfsRename s ct mem oldpath newpath).1 = 0 →
          Relocated (ramfsRename s ct mem oldpath newpath).2 o p (lastName newpath)) ∧
        (Below s.links o p → (ramfsRename s ct mem oldpath newpath).1 ≠ 0)
  | _ => True

/-- The moved node stands first in its new directory. -/
theorem relocated_of_moved {s s' : Fs} {o p w : Ptr} {name : Name} (hs' : Shape s')
    (hmv : Moved s o p name s') (hpar : s.parent o = some w) (hp : s.isDir p = true)
    (hout : ¬ Below s.links o p) (hplain : PlainName name) : Relocated s' o p name := by
  obtain ⟨m, hm, -⟩ := exists_of_parent hpar
  have hop := (Below.ne_of_not hout).symm
  have hname : s'.nameOf o = some name := by rw [hmv.nameOf hm, if_pos rfl]
  have hparent : s'.parent o = some p := by rw [hmv.parent hm, if_pos rfl]
  have hfind : ramfsFindChild s' p name = some o := by
    rw [ramfsFindChild, hmv.children hp hop, if_pos rfl]
    exact List.find?_cons_of_pos (decide_eq_true hname)
  refine ⟨?_, hparent, hname, fun q hq => ?_⟩
  · rw [walk_last hplain, lastStep, if_pos (by rw [hmv.isDir, hp]), hfind]
  · have hq' := hs'.mem_children.mp hq
    exact some.inj (hq'.symm.trans hparent)

theorem renames_of_clean {s : St} {op : Op} (hinv : Inv s.fs s.opens) (hop : Clean s op) :
    Renames s.fs op := by
  cases op with
  | rename ct mem oldpath newpath =>
    intro hdiff o p ho hp
    have hmovable := (hop hdiff o p ho hp).1
    refine ⟨fun hzero => ?_, fun hbelow => absurd hbelow hmovable.outside⟩
    rcases rename_spec hinv ct hop with ⟨-, hsame⟩ |
      ⟨o', p', w, s1, ho', hp', -, hinv1, hpar, hdir, hout, hname, hmv⟩
    · exact absurd (hsame hzero) hdiff
    · obtain rfl := some.inj (ho.symm.trans ho')
      obtain rfl := Except.ok.inj (hp.symm.trans hp')
      have hs' := hinv1.shape.move hmv hpar hdir hout hname
      exact relocated_of_moved hs' hmv hpar hdir hout hmovable.plain
  | _ => trivial

/-- **The name space stays a tree and renames move, where nothing is moved beneath itself.** -/
theorem namespace_tree (ops : List Op) (h : RunMeets St.step Clean St.init ops) :
    (∀ pre post, ops = pre ++ post → IsTree (pre.foldl St.step St.init).fs) ∧
      ∀ pre op post, ops = pre ++ op :: post → Renames (pre.foldl St.step St.init).fs op := by
  constructor
  · rintro pre post rfl
    have hs := (inv_run h.of_append).shape
    exact ⟨fun _ _ => hs.mem_children, fun _ hc => hs.rooted.exists_unique_chain hc, hs.names⟩
  · intro pre op post hops
    have hop := h pre op post hops
    rw [hops] at h
    exact renames_of_clean (inv_run h.of_append) hop

/-- A directory is made and renamed. -/
def renamedDirectory : List Op :=
  [.mkdir boot granted "/a".toList, .rename boot granted "/a".toList "/b".toList]

theorem clean_renamedDirectory : RunMeets St.step Clean St.init renamedDirectory := by
  simp only [renamedDirectory, runMeets_cons]
  refine ⟨canName_of_short (d := ROOT) (by decide) (by decide), fun _ o p ho hp =>
    ⟨⟨fun hbelow => ?_, ⟨by decide, by decide, by decide⟩, ?_, ?_⟩, rfl⟩, runMeets_nil _⟩
  all_goals
    have hplace : newPlace (St.init.step (.mkdir boot granted "/a".toList)).fs true "/b".toList
        = .ok ROOT := by
      decide
    have hlook : ramfsLookupNofollow (St.init.step (.mkdir boot granted "/a".toList)).fs
      true "/a".toList =
      some 2 := by decide
    obtain rfl := Except.ok.inj (hplace.symm.trans hp)
    obtain rfl := some.inj (hlook.symm.trans ho)
  · have hleaf : (St.init.step (.mkdir boot granted "/a".toList)).fs.links.children 2 = [] := by
      decide
    exact absurd (hbelow.of_leaf hleaf) (by decide)
  · exact unhidden_of_short (by decide) _
  · intro e he
    cases he

theorem renamedDirectory_tree :
    (∀ pre post, renamedDirectory = pre ++ post → IsTree (pre.foldl St.step St.init).fs) ∧
      ∀ pre op post, renamedDirectory = pre ++ op :: post →
      Renames (pre.foldl St.step St.init).fs op :=
  namespace_tree renamedDirectory clean_renamedDirectory

/-- A directory is renamed to a name beneath itself. -/
def renamedBeneath : List Op :=
  [.mkdir boot granted "/a".toList, .rename boot granted "/a".toList "/a/b".toList]

/-- **A directory can be moved into itself**: the call returns 0, and the directory is its own
parent and child. -/
theorem moved_beneath_itself :
    (ramfsRename (St.init.step (.mkdir boot granted "/a".toList)).fs boot granted "/a".toList
      "/a/b".toList).1 = 0 ∧ (renamedBeneath.foldl St.step St.init).fs.parent 2 = some 2 ∧
      (renamedBeneath.foldl St.step St.init).fs.children 2 = [2] ∧
      ¬ IsTree (renamedBeneath.foldl St.step St.init).fs := by
  have hparent : (renamedBeneath.foldl St.step St.init).fs.parent 2 = some 2 := by decide
  refine ⟨by decide, hparent, by decide, fun h => ?_⟩
  obtain ⟨l, hl, -⟩ := h.chain 2 (by simp [hparent])
  -- from the root only `/dev` is reached
  have hall : ∀ l c, ChainTo (renamedBeneath.foldl St.step St.init).fs.links ROOT l c →
      c = 0 ∨ c = 1 := by
    intro l c hc
    induction hc with
    | root => exact .inl rfl
    | child _ hmem ih =>
      rcases ih with rfl | rfl
      · exact .inr (List.mem_singleton.mp hmem)
      · cases hmem
  exact absurd (hall l 2 hl) (by decide)

end AxonOS.Ramfs.Tree

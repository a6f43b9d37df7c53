import AxonOS.Ramfs.TreeEdit

/-! # What the lookups of ramfs find

Every node a lookup comes to stands before the guard in its directory, and so do all directories on
its way (`Seen`). For a plain last name, the lookup that does not follow the last component finds
the child of the directory that the other lookup finds for the path before it.
-/

namespace AxonOS.Ramfs.Tree

open Lib List Option

/-- Reached from the root through entries before the guard. -/
inductive Seen (s : Fs) : Ptr → Prop
  | root : Seen s ROOT
  | child {p c : Ptr} : Seen s p → c ∈ (s.children p).take GUARD → Seen s c

variable {s : Fs}

variable {c p : Ptr} {mem follow : Bool} {path l a : List Char} {x name : Name} {cs : List Name}

theorem Seen.up (hs : Shape s) (h : Seen s c) (hp : s.parent c = some p) :
    Seen s p ∧ c ∈ (s.children p).take GUARD := by
  cases h with
  | root => exact absurd (hs.rooted.root_parent.symm.trans hp) nofun
  | @child q _ hq hmem =>
    have hpar := hs.mem_children.mp (mem_of_mem_take hmem)
    obtain rfl := some.inj (hpar.symm.trans hp)
    exact ⟨hq, hmem⟩

theorem Seen.reached (h : Seen s c) : Below s.links ROOT c := by
  induction h with
  | root => exact .self
  | child _ hmem ih => exact ih.child (mem_of_mem_take hmem)

theorem findChild_some (h : ramfsFindChild s p name = some c) :
    c ∈ (s.children p).take GUARD ∧ s.nameOf c = some name := by
  have hname := find?_some h
  exact ⟨mem_of_find?_eq_some h, of_decide_eq_true hname⟩

theorem findChild_none (h : ramfsFindChild s p name = none) :
    ∀ c ∈ (s.children p).take GUARD, s.nameOf c ≠ some name := fun c hc heq =>
  find?_eq_none.mp h c hc (decide_eq_true heq)

theorem walk_seen (hs : Shape s) {cur : Ptr} (hcur : Seen s cur)
    (h : walk s follow cur cs = .found p) : Seen s p := by
  induction cs generalizing cur with
  | nil =>
    obtain rfl := Walk.found.inj h
    exact hcur
  | cons c cs ih =>
    rw [walk] at h
    split at h
    · cases h
    split at h
    · exact ih hcur h
    split at h
    · refine ih ?_ h
      cases hpar : s.parent cur with
      | none => exact .root
      | some q => exact (hcur.up hs hpar).1
    split at h
    · cases h
    next child hchild =>
    have hseen : Seen s child := hcur.child (findChild_some hchild).1
    split at h
    · exact ih hseen h
    split at h
    · obtain rfl := Walk.found.inj h
      exact hseen
    split at h
    · cases h
    · cases h

theorem resolve_seen (hs : Shape s) {k : Nat} (h : resolve s follow k cs = some p) : Seen s p := by
  induction k generalizing cs with
  | zero => cases h
  | succ k ih =>
    rw [resolve] at h
    split at h
    next hwalk =>
      obtain rfl := some.inj h
      exact walk_seen hs .root hwalk
    · cases h
    · exact ih h

theorem lookupNofollow_seen (hs : Shape s) (h : ramfsLookupNofollow s mem path = some p) :
    Seen s p := by
  unfold ramfsLookupNofollow at h
  split at h
  · obtain rfl := some.inj h
    exact .root
  split at h
  · cases h
  · exact resolve_seen hs h

theorem resolveLink_of_none (h : s.linkTarget p = none) : ramfsResolveLink s p = p := by
  rw [ramfsResolveLink, h]
  rfl

theorem resolveLink_of_isDir (h : s.isDir p = true) : ramfsResolveLink s p = p := by
  obtain ⟨n, hn, hdir⟩ := exists_of_isDir h
  refine resolveLink_of_none ?_
  rw [linkTarget_eq hn]
  by_contra hl
  obtain ⟨t, ht⟩ := ne_none_iff_exists'.mp hl
  rw [Node.not_dir_of_link ht] at hdir
  cases hdir

theorem lookup_seen (hs : Shape s) (h : ramfsLookup s mem path = some p) :
    ∃ q, Seen s q ∧ ramfsResolveLink s q = p := by
  unfold ramfsLookup at h
  split at h
  next =>
    obtain rfl := some.inj h
    exact ⟨ROOT, .root, resolveLink_of_isDir hs.root_dir⟩
  split at h
  · cases h
  · obtain ⟨q, hq, rfl⟩ := map_eq_some_iff.mp h
    exact ⟨q, resolve_seen hs hq, rfl⟩

/-- A name resolves to an inode that is there. -/
theorem resolveLink_live (hs : Shape s) (hp : ∃ n, s.nodes p = some n) :
    ∃ n, s.nodes (ramfsResolveLink s p) = some n ∧ n.linkTarget = none := by
  obtain ⟨n, hn⟩ := hp
  unfold ramfsResolveLink
  cases hl : s.linkTarget p with
  | none => exact ⟨n, hn, (linkTarget_eq hn).symm.trans hl⟩
  | some t =>
    obtain ⟨m, hm, hfile⟩ := hs.link_file p t hl
    exact ⟨m, hm, Node.not_link_of_isFile hfile⟩

/-- A directory is not another name of something. -/
theorem resolveLink_dir (hs : Shape s) (h : s.isDir (ramfsResolveLink s p) = true) :
    ramfsResolveLink s p = p := by
  unfold ramfsResolveLink at h ⊢
  cases hl : s.linkTarget p with
  | none => rfl
  | some t =>
    rw [hl] at h
    obtain ⟨m, hm, hfile⟩ := hs.link_file p t hl
    have hdir : s.isDir t = true := h
    rw [not_dir_of_isFile hm hfile] at hdir
    cases hdir

/-! ## Paths -/

/-- A name that the lookups take as it is. -/
def PlainName (x : Name) : Prop := x ≠ dot ∧ x ≠ dotdot ∧ x.length ≤ NAME_CAP

theorem PlainName.take (h : PlainName x) : x.take NAME_CAP = x := take_of_length_le h.2.2

theorem no_slash_reverse (hl : '/' ∉ l) : ∀ x ∈ l.reverse, decide (x ≠ '/') = true := by
  intro x hx
  refine decide_eq_true ?_
  rintro rfl
  exact hl (mem_reverse.mp hx)

theorem lastName_append (hl : '/' ∉ l) : lastName (a ++ '/' :: l) = l := by
  rw [lastName, reverse_append, reverse_cons, append_assoc, takeWhile_append_of_pos
    (no_slash_reverse hl)]
  simp

theorem parentPath_append (hl : '/' ∉ l) :
    parentPath (a ++ '/' :: l) = if a = [] then ['/'] else a := by
  have hcut : (((a ++ '/' :: l).reverse.dropWhile (· ≠ '/')).drop 1).reverse = a := by
    rw [reverse_append, reverse_cons, append_assoc, dropWhile_append_of_pos (no_slash_reverse hl)]
    simp
  unfold parentPath
  rw [hcut]
  cases a with
  | nil | cons x a => rfl

theorem path_split (h : path.head? = some '/') :
    ∃ d, path = d ++ '/' :: lastName path ∧ parentPath path = (if d = [] then ['/'] else d) ∧
      '/' ∉ lastName path := by
  obtain ⟨d, l, rfl, hl⟩ := exists_last_slash (mem_of_mem_head? h)
  rw [lastName_append hl]
  exact ⟨d, rfl, parentPath_append hl, hl⟩

/-- The components of a path with a last name. -/
theorem comps_path (h : path.head? = some '/') (hname : lastName path ≠ []) :
    comps path = comps (parentPath path) ++ [lastName path] := by
  obtain ⟨d, hpath, hparent, hslash⟩ := path_split h
  have hcomps : comps path = comps d ++ comps (lastName path) := by
    conv_lhs => rw [hpath]
    exact comps_append_slash d _
  have hd : comps (parentPath path) = comps d := by
    rw [hparent]
    split
    next hnil =>
      rw [hnil]
      rfl
    next => rfl
  rw [hcomps, hd, comps_of_isName ⟨hname, hslash⟩]

/-! ## The last name -/

theorem redirect_append (child : Ptr) (target : List Char) (cs : List Name) (x : Name) :
    redirect s child target (cs ++ [x]) = (redirect s child target cs).map (· ++ [x]) := by
  unfold redirect
  split
  · simp
  · rw [Option.map_map]
    refine congrArg (Option.map · _) (funext fun names => ?_)
    simp

/-- The child of `p` a last name leads to. -/
def lastStep (s : Fs) (p : Ptr) (x : Name) : Option Ptr :=
  if s.isDir p = true then ramfsFindChild s p x else none

theorem walk_last (hx : PlainName x) (p : Ptr) : walk s false p [x] = match lastStep s p x with
      | some c => .found c
      | none => .missing := by
  have hdot : x ≠ dot := hx.1
  have hdotdot : x ≠ dotdot := hx.2.1
  rw [walk, hx.take, lastStep]
  cases hdir : s.isDir p with
  | false => simp
  | true =>
    simp only [Bool.true_eq_false, if_false, if_neg hdot, if_neg hdotdot, if_true]
    cases hchild : ramfsFindChild s p x with
    | none => rfl
    | some c =>
      simp only
      split
      · rfl
      · rw [if_pos ⟨trivial, trivial⟩]

theorem walk_append (hx : PlainName x) (cur : Ptr) (cs : List Name) :
    walk s false cur (cs ++ [x]) = match walk s true cur cs with
      | .found p => (match lastStep s p x with
          | some c => .found c
          | none => .missing)
      | .missing => .missing
      | .restart cs' => .restart (cs' ++ [x]) := by
  induction cs generalizing cur with
  | nil => exact walk_last hx cur
  | cons c cs ih =>
    rw [cons_append, walk, walk]
    split
    · rfl
    split
    · exact ih cur
    split
    · exact ih _
    cases hchild : ramfsFindChild s cur (c.take NAME_CAP) with
    | none => rfl
    | some child =>
      simp only
      cases hsym : s.symlink child with
      | none => exact ih child
      | some target =>
        simp only
        rw [if_neg (fun h => concat_ne_nil x cs h.2),
          if_neg (fun h => Bool.noConfusion h.1), redirect_append]
        cases redirect s child target cs with
        | none | some cs' => rfl

theorem resolve_append (hx : PlainName x) (k : Nat) (cs : List Name) :
    resolve s false k (cs ++ [x]) = (resolve s true k cs).bind fun p => lastStep s p x := by
  induction k generalizing cs with
  | zero => rfl
  | succ k ih =>
    rw [resolve, resolve, walk_append hx]
    cases walk s true ROOT cs with
    | found p =>
      simp only [bind_some]
      cases lastStep s p x <;> rfl
    | missing => rfl
    | restart cs' => exact ih cs'

/-! ## The place of a new name -/

theorem newPlace_ok (h : newPlace s mem path = .ok p) :
    lastName path ≠ [] ∧ ramfsLookup s mem (parentPath path) = some p ∧ s.isDir p = true := by
  unfold newPlace at h
  split at h
  · cases h
  next hname =>
  split at h
  · cases h
  next q hq =>
  split at h
  next hdir =>
    obtain rfl := Except.ok.inj h
    exact ⟨hname, hq, hdir⟩
  · cases h

theorem newPlace_error {e : Int} (h : newPlace s mem path = .error e) : e ≠ 0 := by
  unfold newPlace at h
  split at h
  · obtain rfl := Except.error.inj h
    decide
  split at h
  · obtain rfl := Except.error.inj h
    decide
  split at h
  · cases h
  · obtain rfl := Except.error.inj h
    decide

/-- **The unfollowing lookup** of a path finds the child of the place its last name would get. -/
theorem lookupNofollow_place (hs : Shape s) {mem' : Bool} (hhead : path.head? = some '/')
    (hx : PlainName (lastName path)) (h : newPlace s mem path = .ok p) (hmem : mem' = true) :
    ramfsLookupNofollow s mem' path = ramfsFindChild s p (lastName path) := by
  obtain ⟨hname, hlook, hdir⟩ := newPlace_ok h
  have hroot : path ≠ ['/'] := by
    rintro rfl
    exact hname rfl
  have hres : resolve s true MAX_DEPTH (comps (parentPath path)) = some p := by
    unfold ramfsLookup at hlook
    split at hlook
    next hslash =>
      rw [hslash]
      exact hlook
    split at hlook
    · cases hlook
    · obtain ⟨q, hq, hqp⟩ := map_eq_some_iff.mp hlook
      rw [← hqp] at hdir
      rw [hq, ← hqp, resolveLink_dir hs hdir]
  unfold ramfsLookupNofollow
  rw [if_neg hroot, if_neg (by rw [hhead, hmem]; simp), comps_path hhead hname, resolve_append hx,
    hres, bind_some, lastStep, if_pos hdir]

end AxonOS.Ramfs.Tree

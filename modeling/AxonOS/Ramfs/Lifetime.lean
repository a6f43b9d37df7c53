import AxonOS.Lib.Run
import AxonOS.Ramfs.Steps

/-! # How long the inodes of ramfs live

Runs of the calls that make, name, open and remove inodes, from the registered file system. In every
state of a run whose calls are all clean, `nlink` is the number of names a file has, a file is there
as long as it has a name or is open, and neither a name nor a handle refers to a freed node.
-/

namespace AxonOS.Ramfs.Tree

open Lib List Option Function

/-! ## Runs -/

/-- The tree and the open files. -/
structure St where
  fs : Fs
  files : List Handle

inductive Op where
  | create (ct : Cred) (mem : Nat → Bool) (path : List Char)
  | mkdir (ct : Cred) (mem : Nat → Bool) (path : List Char)
  | symlink (ct : Cred) (mem : Nat → Bool) (path target : List Char)
  | link (mem : Nat → Bool) (oldpath newpath : List Char)
  | linkOpenFile (mem : Nat → Bool) (i : Nat) (newpath : List Char)
  | rename (ct : Cred) (mem : Nat → Bool) (oldpath newpath : List Char)
  | remove (ct : Cred) (mem : Bool) (path : List Char)
  | openFile (mem : Nat → Bool) (path : List Char)
  | release (i : Nat)

def St.init : St := ⟨ramfsRegister, []⟩

def St.step (s : St) : Op → St
  | .create ct mem path =>
    let r := ramfsCreate s.fs ct mem path
    ⟨r.2.2, s.files ++ (r.2.1.map fun n => ⟨n, false⟩).toList⟩
  | .mkdir ct mem path => { s with fs := (ramfsMkdir s.fs ct mem path).2 }
  | .symlink ct mem path target => { s with fs := (ramfsSymlink s.fs ct mem path target).2 }
  | .link mem oldpath newpath => { s with fs := (ramfsLink s.fs mem oldpath newpath).2 }
  | .linkOpenFile mem i newpath =>
    match s.files[i]? with
    | none => s
    | some file => { s with fs := (ramfsLinkOpenFile s.fs mem file newpath).2 }
  | .rename ct mem oldpath newpath => { s with fs := (ramfsRename s.fs ct mem oldpath newpath).2 }
  | .remove ct mem path => { s with fs := (ramfsRemove s.fs ct mem path).2 }
  | .openFile mem path =>
    let r := ramfsOpen s.fs mem path
    ⟨r.2.2, s.files ++ r.2.1.toList⟩
  | .release i =>
    match s.files[i]? with
    | none => s
    | some file => ⟨ramfsRelease s.fs file, s.files.eraseIdx i⟩

/-- The condition on a call. New names are not those of entries behind the guard of 65536. The
counters `nlink` and `open_count` stay below 2^32. A directory that the caller may remove has
nothing open beneath it, no hard link crosses its border, and a stack of 64 suffices for what is
beneath it. A node is not moved beneath itself nor over a directory it is in, its new name is plain,
and the allocation of that name succeeds. -/
def Clean (s : St) : Op → Prop
  | .create _ mem path => CanName s.fs (mem 1) path
  | .mkdir _ mem path => CanName s.fs (mem 1) (cutSlash path)
  | .symlink _ mem path _ => CanName s.fs (mem 1) path
  | .link mem oldpath newpath => CanName s.fs (mem 2) newpath ∧
      ∀ t m, ramfsLookup s.fs (mem 0) oldpath = some t → s.fs.nodes t = some m →
      m.nlink + 1 < COUNT_LIMIT
  | .linkOpenFile mem i newpath => CanName s.fs (mem 2) newpath ∧
      ∀ file m, s.files[i]? = some file → s.fs.nodes file.node = some m → m.nlink + 1 < COUNT_LIMIT
  | .rename _ mem oldpath newpath => oldpath ≠ newpath → ∀ o p,
      ramfsLookupNofollow s.fs (mem 0) oldpath = some o → newPlace s.fs (mem 2) newpath = .ok p →
        Movable s.fs o p (lastName newpath) ∧ mem 4 = true
  | .remove ct mem path =>
    ∀ n p, ramfsLookupNofollow s.fs mem path = some n → s.fs.parent n = some p →
      MayRemove s.fs ct n p → CanRemove s.fs n
  | .openFile mem path => ∀ n m, ramfsLookupNofollow s.fs (mem 0) path = some n →
      s.fs.nodes (ramfsResolveLink s.fs n) = some m → m.openCount + 1 < COUNT_LIMIT
  | .release _ => True

/-! ## The invariant over runs -/

def St.opens (s : St) (p : Ptr) : Nat := s.files.countP fun h => decide (h.node = p)

theorem opens_append (fs fs' : Fs) (files : List Handle) (o : Option Handle) :
    (St.mk fs' (files ++ o.toList)).opens = addOpen (St.mk fs files).opens (o.map Handle.node) := by
  funext p
  cases o with
  | none => simp [St.opens, addOpen]
  | some h =>
    simp only [St.opens, addOpen, toList_some, countP_append, countP_singleton, map_some,
      decide_eq_true_eq]
    by_cases hp : h.node = p
    · rw [if_pos hp, hp, update_self]
    · rw [if_neg hp, update_of_ne (Ne.symm hp)]
      rfl

theorem opens_eraseIdx (fs fs' : Fs) {files : List Handle} {i : Nat} {h : Handle}
    (hi : files[i]? = some h) :
    (St.mk fs' (files.eraseIdx i)).opens =
      update (St.mk fs files).opens h.node ((St.mk fs files).opens h.node - 1) := by
  obtain ⟨hlt, hget⟩ := List.getElem?_eq_some_iff.mp hi
  have hperm : (h :: files.eraseIdx i).Perm files := by
    have := getElem_cons_eraseIdx_perm hlt
    rwa [hget] at this
  funext p
  have hcount := hperm.countP_eq fun h => decide (h.node = p)
  rw [countP_cons] at hcount
  unfold St.opens
  by_cases hp : h.node = p
  · simp only [hp, decide_true, if_true] at hcount
    rw [hp, update_self]
    simp only
    omega
  · simp only [hp, decide_false, Bool.false_eq_true, if_false, add_zero] at hcount
    rw [update_of_ne (Ne.symm hp)]
    exact hcount

theorem opens_ne_zero {s : St} {i : Nat} {h : Handle} (hi : s.files[i]? = some h) :
    s.opens h.node ≠ 0 := by
  refine (countP_pos_iff.mpr ⟨h, ?_, decide_eq_true rfl⟩).ne'
  exact mem_of_getElem? hi

/-- **One call** keeps the invariant, if it is clean. -/
theorem inv_step {s : St} {op : Op} (hinv : Inv s.fs s.opens) (hop : Clean s op) :
    Inv (s.step op).fs (s.step op).opens := by
  obtain ⟨fs, files⟩ := s
  cases op with
  | create ct mem path =>
    have h := create_inv hinv ct hop
    have hop := opens_append fs (ramfsCreate fs ct mem path).2.2 files
      ((ramfsCreate fs ct mem path).2.1.map fun n => ⟨n, false⟩)
    rw [Option.map_map] at hop
    change Inv (ramfsCreate fs ct mem path).2.2 _
    refine hop ▸ ?_
    have hid : (Handle.node ∘ fun n => (⟨n, false⟩ : Handle)) = id := rfl
    rw [hid, Option.map_id]
    exact h
  | mkdir ct mem path => exact mkdir_inv hinv hop
  | symlink ct mem path target => exact symlink_inv hinv hop
  | link mem oldpath newpath => exact link_inv hinv hop.1 hop.2
  | linkOpenFile mem i newpath =>
    simp only [St.step]
    split
    · exact hinv
    next file hfile =>
      exact linkOpenFile_inv hinv hop.1 (opens_ne_zero hfile) fun m hm => hop.2 file m hfile hm
  | rename ct mem oldpath newpath => exact rename_inv hinv hop
  | remove ct mem path => exact remove_inv hinv hop
  | openFile mem path =>
    have h := open_inv hinv hop
    have hop := opens_append fs (ramfsOpen fs mem path).2.2 files (ramfsOpen fs mem path).2.1
    change Inv (ramfsOpen fs mem path).2.2 _
    exact hop ▸ h
  | release i =>
    simp only [St.step]
    split
    · exact hinv
    next file hfile =>
      have h := release_inv hinv (opens_ne_zero hfile)
      have hop := opens_eraseIdx fs (ramfsRelease fs file) hfile
      exact hop ▸ h

theorem bare_cases (p : Ptr) :
    p = ROOT ∨ bare.nodes p = none := (em _).imp_right fun hp => if_neg hp

theorem children_bare (p : Ptr) : bare.children p = [] := by
  rcases bare_cases p with rfl | hp
  · rfl
  · rw [Fs.children, hp]
    rfl

theorem inv_bare : Inv bare fun _ => 0 := by
  have hparent : ∀ p, bare.parent p = none := by
    intro p
    rcases bare_cases p with rfl | hp
    · rfl
    · rw [Fs.parent, hp]
      rfl
  have hlink : ∀ p, bare.linkTarget p = none := by
    intro p
    rcases bare_cases p with rfl | hp
    · rfl
    · rw [Fs.linkTarget, hp]
      rfl
  have honly : ∀ i n, bare.nodes i = some n → n = ramfsAllocNode [] (.dir []) := by
    intro i n hn
    rcases bare_cases i with rfl | hi
    · exact (some.inj hn).symm
    · rw [hi] at hn
      cases hn
  refine ⟨⟨⟨hparent ROOT, fun p => ?_, fun p c => ?_, fun c hc => absurd (hparent c) hc⟩, rfl,
    fun p hp hne => ?_, fun p c d hc => ?_, fun p hp => ?_, fun d t hd => ?_, fun d t hd =>
    ?_⟩, ⟨fun i n hn hfile => ?_, fun i n hn => ?_, fun i hi => absurd rfl hi⟩,
    fun i n hn hfile => ?_⟩
  · change (bare.children p).Nodup
    rw [children_bare]
    exact nodup_nil
  · change c ∈ bare.children p ↔ bare.parent c = some p
    rw [children_bare, hparent]
    exact iff_of_false not_mem_nil (some_ne_none p).symm
  · rw [Fs.isDir, (bare_cases p).resolve_left hne] at hp
    cases hp
  · rw [children_bare] at hc
    cases hc
  · exact (bare_cases p).resolve_left (Nat.lt_of_lt_of_le Nat.zero_lt_one hp).ne'
  · rw [hlink] at hd
    cases hd
  · rw [hlink] at hd
    cases hd
  · rw [honly i n hn] at hfile
    cases hfile
  · rw [honly i n hn]
    rfl
  · rw [honly i n hn] at hfile
    cases hfile

/-- A new name in a small directory. -/
theorem canName_of_short {s : Fs} {mem : Bool} {path : List Char} {d : Ptr}
    (hplace : newPlace s mem path = .ok d) (h : (s.children d).length ≤ GUARD) :
    CanName s mem path := by
  intro p hp
  obtain rfl := Except.ok.inj (hplace.symm.trans hp)
  exact unhidden_of_short h _

theorem inv_init : Inv St.init.fs St.init.opens :=
  mkdir_inv inv_bare (canName_of_short (d := ROOT) (by decide) (Nat.zero_le _))

theorem inv_run {ops : List Op} (h : RunMeets St.step Clean St.init ops) :
    Inv (ops.foldl St.step St.init).fs (ops.foldl St.step St.init).opens :=
  run_invariant (I := fun s => Inv s.fs s.opens) (fun _ _ => inv_step) inv_init h

/-! ## Names and handles -/

open Classical in
/-- The names of an inode: the dentries reached from the root that resolve to it. -/
noncomputable def Fs.dentries (s : Fs) (i : Ptr) : Finset Ptr :=
  (Finset.range s.fresh).filter fun d => Below s.links ROOT d ∧ ramfsResolveLink s d = i

/-- What is said of the inodes: `nlink` counts the names, a file that is there has a name or is
open, and no name and no handle leads to a freed node. -/
structure Sound (s : St) : Prop where
  counted : ∀ i n, s.fs.nodes i = some n → n.isFile = true → n.nlink = (s.fs.dentries i).card
  kept : ∀ i n, s.fs.nodes i = some n → n.isFile = true → 0 < n.nlink ∨ 0 < n.openCount
  named : ∀ d, Below s.fs.links ROOT d → ∃ n, s.fs.nodes d = some n ∧ ∀ t, n.linkTarget = some t →
      s.fs.nodes t ≠ none
  held : ∀ h ∈ s.files, s.fs.nodes h.node ≠ none

theorem mem_dentries {s : Fs} (hs : Shape s) {i d : Ptr} {n : Node} (hn : s.nodes i = some n)
    (hfile : n.isFile = true) : d ∈ s.dentries i ↔ (d = i ∧ n.parent.isSome = true) ∨
    d ∈ s.linkers i := by
  classical
  have hdir := not_dir_of_isFile hn hfile
  rw [Fs.dentries, Finset.mem_filter, Finset.mem_range, hs.mem_linkers]
  constructor
  · rintro ⟨-, hbelow, hres⟩
    unfold ramfsResolveLink at hres
    cases hlink : s.linkTarget d with
    | some t =>
      rw [hlink] at hres
      exact .inr (congrArg some hres)
    | none =>
      rw [hlink] at hres
      obtain rfl : d = i := hres
      refine .inl ⟨rfl, ?_⟩
      cases hbelow with
      | self =>
        rw [hs.root_dir] at hdir
        cases hdir
      | child _ hmem =>
        have hpar := hs.mem_children.mp hmem
        rw [parent_eq hn] at hpar
        rw [hpar]
        rfl
  · rintro (⟨rfl, hpar⟩ | hlink)
    · refine ⟨hs.lt_fresh hn, hs.rooted.reached d ?_, ?_⟩
      · change s.parent d ≠ none
        rw [parent_eq hn]
        exact isSome_iff_ne_none.mp hpar
      · rw [ramfsResolveLink, linkTarget_eq hn, Node.not_link_of_isFile hfile]
        rfl
    · obtain ⟨m, hm, -⟩ := exists_of_linkTarget hlink
      refine ⟨hs.lt_fresh hm, hs.rooted.reached d (hs.link_linked d i hlink), ?_⟩
      rw [ramfsResolveLink, hlink]
      rfl

theorem card_dentries {s : Fs} (hs : Shape s) {i : Ptr} {n : Node} (hn : s.nodes i = some n)
    (hfile : n.isFile = true) :
    (s.dentries i).card = (if n.parent.isSome then 1 else 0) + (s.linkers i).card := by
  have hself : i ∉ s.linkers i := by
    rw [hs.mem_linkers, linkTarget_eq hn, Node.not_link_of_isFile hfile]
    exact nofun
  cases hpar : n.parent.isSome with
  | true =>
    have hset : s.dentries i = insert i (s.linkers i) := by
      ext d
      rw [mem_dentries hs hn hfile, hpar]
      simp
    rw [hset, Finset.card_insert_of_notMem hself, if_pos rfl, Nat.add_comm]
  | false =>
    have hset : s.dentries i = s.linkers i := by
      ext d
      rw [mem_dentries hs hn hfile, hpar]
      simp
    rw [hset]
    simp

theorem sound_of_inv {s : St} (hinv : Inv s.fs s.opens) : Sound s := by
  have hs := hinv.shape
  refine ⟨fun i n hn hfile => ?_, hinv.kept, fun d hd => ?_, fun h hh hnone => ?_⟩
  · have hcount := hinv.counts.counted i n hn hfile
    rw [card_dentries hs hn hfile]
    split at hcount
    next hpar =>
      rw [if_pos hpar]
      omega
    next hpar =>
      rw [if_neg hpar]
      omega
  · obtain ⟨n, hn⟩ := hs.live hd
    refine ⟨n, hn, fun t ht hnone => ?_⟩
    obtain ⟨m, hm, -⟩ := hs.link_file d t ((linkTarget_eq hn).trans ht)
    rw [hm] at hnone
    cases hnone
  · obtain ⟨i, hi⟩ := getElem?_of_mem hh
    obtain ⟨n, hn, -⟩ := hinv.counts.open_live h.node (opens_ne_zero hi)
    rw [hn] at hnone
    cases hnone

/-- **Inodes live as long as they are named or open, where directories are removed with care.** -/
theorem inode_lifetime (ops : List Op) (h : RunMeets St.step Clean St.init ops) :
    ∀ pre post, ops = pre ++ post → Sound (pre.foldl St.step St.init) := by
  rintro pre post rfl
  exact sound_of_inv (inv_run h.of_append)

/-- The kernel at boot. -/
def boot : Cred := ⟨none, none⟩

def granted : Nat → Bool := fun _ => true

/-- A file gets a second name, and loses its handle and its first name. -/
def renamedByLink : List Op :=
  [.create boot granted "/a".toList, .link granted "/a".toList "/b".toList, .release 0,
    .remove boot true "/a".toList]

theorem clean_renamedByLink : RunMeets St.step Clean St.init renamedByLink := by
  simp only [renamedByLink, runMeets_cons]
  refine ⟨canName_of_short (d := ROOT) (by decide) (by decide),
    ⟨canName_of_short (d := ROOT) (by decide) (by decide), fun t m ht hm => ?_⟩, trivial,
    fun n p hn _ _ => ?_, runMeets_nil _⟩
  · have hlook : ramfsLookup (St.init.step (.create boot granted "/a".toList)).fs true
      "/a".toList = some 2 := by
      decide
    obtain rfl := some.inj (hlook.symm.trans ht)
    obtain rfl := some.inj (Eq.trans (by rfl) hm)
    decide
  · have hlook : ramfsLookupNofollow ((renamedByLink.take 3).foldl St.step St.init).fs
        true "/a".toList =
        some 2 := by decide
    obtain rfl := some.inj (hlook.symm.trans hn)
    intro hdir
    exact absurd hdir (by decide)

/-- Then a directory is made, with a file that is closed again. -/
def closedDirectory : List Op :=
  renamedByLink ++ [.mkdir boot granted "/d".toList, .create boot granted "/d/f".toList, .release 0]

theorem clean_closedDirectory : RunMeets St.step Clean St.init closedDirectory := by
  rw [closedDirectory, runMeets_append]
  simp only [runMeets_cons]
  exact ⟨clean_renamedByLink, canName_of_short (d := ROOT) (by decide) (by decide),
    canName_of_short (d := 4) (by decide) (by decide), trivial, runMeets_nil _⟩

/-- Nothing but the file is beneath the directory, and the only hard link is elsewhere. -/
theorem removable_closedDirectory : Removable (closedDirectory.foldl St.step St.init).fs 4 := by
  have hbounded := (inv_run clean_closedDirectory).shape.bounded
  have hdir : (closedDirectory.foldl St.step St.init).fs.links.children 4 = [5] := by decide
  have hfile : (closedDirectory.foldl St.step St.init).fs.links.children 5 = [] := by decide
  have hbelow : ∀ d, Below (closedDirectory.foldl St.step St.init).fs.links 4 d →
      d = 4 ∨ d = 5 := by
    intro d hd
    rcases Below.iff_child.mp hd with rfl | ⟨c, hc, hcd⟩
    · exact .inl rfl
    · rw [hdir, mem_singleton] at hc
      subst hc
      exact .inr (hcd.of_leaf hfile)
  refine ⟨fun d m hd hm => ?_, fun d t ht => ?_, .node (by rw [hdir]; decide) fun i c hc => ?_⟩
  · rcases hbelow d hd with rfl | rfl
    · obtain rfl := some.inj (Eq.trans (by rfl) hm)
      rfl
    · obtain rfl := some.inj (Eq.trans (by rfl) hm)
      rfl
  · have hlt : d < 6 := by
      by_contra hge
      rw [Fs.linkTarget, hbounded d (Nat.le_of_not_lt hge)] at ht
      cases ht
    have hlinks : ∀ d < 6, (closedDirectory.foldl St.step St.init).fs.linkTarget d = if d = 3 then
        some 2 else none := by
      decide
    rw [hlinks d hlt] at ht
    split at ht
    next h3 =>
      obtain rfl := some.inj ht
      subst h3
      exact iff_of_false (fun hb => absurd (hbelow 3 hb) (by decide)) fun hb =>
        absurd (hbelow 2 hb) (by decide)
    · cases ht
  · rw [hdir] at hc
    obtain ⟨rfl, rfl⟩ : i = 0 ∧ c = 5 := by
      cases i with
      | zero => exact ⟨rfl, (some.inj hc).symm⟩
      | succ i => cases hc
    exact .node (by rw [hfile]; decide) fun i c hc => by
      rw [hfile] at hc
      cases hc

/-- And the directory is removed. -/
def removedDirectory : List Op := closedDirectory ++ [.remove boot true "/d".toList]

theorem clean_removedDirectory : RunMeets St.step Clean St.init removedDirectory := by
  rw [removedDirectory, runMeets_append]
  simp only [runMeets_cons]
  refine ⟨clean_closedDirectory, fun n p hn _ _ _ => ?_, runMeets_nil _⟩
  have hlook : ramfsLookupNofollow (closedDirectory.foldl St.step St.init).fs true "/d".toList
    = some 4 := by decide
  obtain rfl := some.inj (hlook.symm.trans hn)
  exact removable_closedDirectory

theorem removedDirectory_sound : Sound (removedDirectory.foldl St.step St.init) :=
  inode_lifetime removedDirectory clean_removedDirectory removedDirectory [] (append_nil _).symm

/-- A directory is removed while a file in it is open. -/
def removedWhileOpen : List Op :=
  [.mkdir boot granted "/d".toList, .create boot granted "/d/f".toList,
    .remove boot true "/d".toList]

/-- A directory is removed while a file in it has another name. -/
def removedWhileLinked : List Op :=
  [.mkdir boot granted "/d".toList, .create boot granted "/d/f".toList, .release 0,
    .link granted "/d/f".toList "/g".toList, .remove boot true "/d".toList]

/-- **Removing a directory leaves a handle and a name on freed nodes.** -/
theorem removed_directory_dangles : (removedWhileOpen.foldl St.step St.init).files = [⟨3, false⟩] ∧
      (removedWhileOpen.foldl St.step St.init).fs.nodes 3 = none ∧
      ¬ Sound (removedWhileOpen.foldl St.step St.init) ∧
      ramfsLookup (removedWhileLinked.foldl St.step St.init).fs true "/g".toList = some 3 ∧
      (removedWhileLinked.foldl St.step St.init).fs.nodes 3 = none ∧
      ¬ Sound (removedWhileLinked.foldl St.step St.init) := by
  have hfreed : (removedWhileOpen.foldl St.step St.init).fs.nodes 3 = none := by decide
  have hgone : (removedWhileLinked.foldl St.step St.init).fs.nodes 3 = none := by decide
  refine ⟨by decide, hfreed, fun h => ?_, by decide, hgone, fun h => ?_⟩
  · exact h.held ⟨3, false⟩ (by decide) hfreed
  · have hchild : 4 ∈ (removedWhileLinked.foldl St.step St.init).fs.children ROOT := by decide
    obtain ⟨n, hn, hlive⟩ := h.named 4 (Below.self.child hchild)
    have hlink : (removedWhileLinked.foldl St.step St.init).fs.linkTarget 4 = some 3 := by decide
    exact hlive 3 ((linkTarget_eq hn).symm.trans hlink) hgone

end AxonOS.Ramfs.Tree

import AxonOS.Lib.Path
import AxonOS.Lib.SlotTable

/-! # The mount table

`fs_mount`, `fs_bind_mount_file`, `fs_unmount` and the three lookups of `fs.c`. The table is the
list of its first `g_mount_count` entries. No argument is a null pointer.
`fs_ensure_ramfs_mountpoint_dir`, which makes the mount point visible in ramfs and does not touch
the table, is left out.

Abstractly a table is a map from paths to entries (`entryAt`), changed by a call at the path of the
call only, and a lookup of `p` selects the entry with the longest path among those whose components
`p` starts with.
-/

namespace AxonOS.Fs

open Lib List Option

variable {δ : Type}

def MAX_FS_MOUNTS : Nat := 16

/-- Size of the arrays `path` and `bind_source` of an entry. -/
def MOUNT_PATH_SIZE : Nat := 64

def UINT32_MAX : Nat := 2 ^ 32 - 1

/-- `struct mount_entry`. An empty `bindSource` is an ordinary mount. -/
structure MountEntry (δ : Type) where
  path : List Char
  driver : δ
  refs : Nat
  bindSource : List Char
  deriving DecidableEq

/-- `path_len`, which both mounting calls set to `strlen(path)`. -/
def MountEntry.pathLen (m : MountEntry δ) : Nat := m.path.length

/-! ## Lookups -/

/-- `fs_mount_covers_path`; the character behind the end of a string is its terminator. -/
def fsMountCoversPath (path mp : List Char) : Bool :=
  if path.length < mp.length then false
  else if path.take mp.length ≠ mp then false
  else if mp = ['/'] then path.head? = some '/'
  else path[mp.length]? = none || path[mp.length]? = some '/'

/-- The loop the three lookups share: `val` is what the lookup remembers of the best entry so
far. -/
def bestCover {ρ : Type} (val : Nat → MountEntry δ → ρ) (t : List (MountEntry δ))
    (path : List Char) :
    Option ρ :=
  (t.zipIdx.foldl (fun best e =>
    if fsMountCoversPath path e.1.path && decide (best.2 < e.1.pathLen) then
      (some (val e.2 e.1), e.1.pathLen)
    else best) ((none : Option ρ), 0)).1

def fsMatchMount (t : List (MountEntry δ)) (path : List Char) : Option δ :=
  bestCover (fun _ m => m.driver) t path

/-- `fs_get_mount_index`; −1 is `none`. -/
def fsGetMountIndex (t : List (MountEntry δ)) (path : List Char) : Option Nat :=
  bestCover (fun i _ => i) t path

/-- `fs_get_matching_mount_prefix` with a buffer of `outlen` bytes; −1 is `none`. -/
def fsGetMatchingMountPrefix (t : List (MountEntry δ)) (path : List Char) (outlen : Nat) :
    Option (List Char) :=
  if outlen = 0 then none
  else
    match bestCover (fun _ m => m.path) t path with
    | none => none
    | some best => if best.length ≥ outlen then none else some best

def fsGetMountDriverExact (t : List (MountEntry δ)) (path : List Char) : Option δ :=
  (t.find? fun m => m.path = trimSlashes path).map MountEntry.driver

/-! ## Calls -/

/-- Change the first entry at `path`, or remove it. -/
def editFirst (path : List Char) (f : MountEntry δ → Option (MountEntry δ)) :
    List (MountEntry δ) → List (MountEntry δ)
  | [] => []
  | m :: t => if m.path = path then (f m).toList ++ t else m :: editFirst path f t

/-- The entry at a path. -/
def entryAt (t : List (MountEntry δ)) (path : List Char) : Option (MountEntry δ) :=
  t.find? fun m => m.path = path

variable [DecidableEq δ] {q path : List Char} {m : MountEntry δ}

def fsMount (t : List (MountEntry δ)) (path : List Char) (drv : δ) : Int × List (MountEntry δ) :=
  if path.length = 0 ∨ MOUNT_PATH_SIZE ≤ path.length then (-1, t)
  else
    match entryAt t path with
    | some m =>
      if m.driver = drv ∧ m.bindSource = [] ∧ m.refs ≠ UINT32_MAX then
        (0, editFirst path (fun m => some { m with refs := m.refs + 1 }) t)
      else (-1, t)
    | none =>
      if MAX_FS_MOUNTS ≤ t.length then (-1, t)
      else (0, t ++ [⟨path, drv, 1, []⟩])

/-- `fs_bind_mount_file`; `regular` says that `vfs_stat` finds regular files at both paths. -/
def fsBindMountFile (t : List (MountEntry δ)) (source target : List Char) (regular : Bool) :
    Int × List (MountEntry δ) :=
  if source = target ∨ MOUNT_PATH_SIZE ≤ source.length ∨ MOUNT_PATH_SIZE ≤ target.length ∨
      MAX_FS_MOUNTS ≤ t.length ∨ (fsGetMountDriverExact t target).isSome then (-1, t)
  else if regular = false then (-1, t)
  else
    match fsMatchMount t source with
    | none => (-1, t)
    | some drv =>
      -- no bind of a bind
      if t.any fun m => m.bindSource ≠ [] && m.path = source then (-1, t)
      else (0, t ++ [⟨target, drv, 1, source⟩])

def fsUnmount (t : List (MountEntry δ)) (path : List Char) : Int × List (MountEntry δ) :=
  match entryAt t path with
  | none => (-1, t)
  | some _ =>
    (0, editFirst path (fun m => if m.refs > 1 then some { m with refs := m.refs - 1 } else none) t)

inductive Call (δ : Type) where
  | mount (path : List Char) (drv : δ)
  | bind (source target : List Char) (regular : Bool)
  | unmount (path : List Char)

def Call.run (t : List (MountEntry δ)) : Call δ → Int × List (MountEntry δ)
  | .mount path drv => fsMount t path drv
  | .bind source target regular => fsBindMountFile t source target regular
  | .unmount path => fsUnmount t path

def runCalls (t : List (MountEntry δ)) (calls : List (Call δ)) : List (MountEntry δ) :=
  calls.foldl (fun t c => (c.run t).2) t

/-- The path at which a call mounts or unmounts. -/
def Call.target : Call δ → List Char
  | .mount path _ => path
  | .bind _ target _ => target
  | .unmount path => path

def Call.Canonical : Call δ → Prop
  | .mount path _ => Lib.Canonical path
  | .bind source target _ => Lib.Canonical source ∧ Lib.Canonical target
  | .unmount path => Lib.Canonical path

/-! ## The map from paths to entries -/

/-- What calls on canonical paths keep. -/
structure Sound (t : List (MountEntry δ)) : Prop where
  nodup : (t.map MountEntry.path).Nodup
  canonical : ∀ m ∈ t, Lib.Canonical m.path
  mounted : ∀ m ∈ t, 0 < m.refs

section Map

omit [DecidableEq δ]

variable {t : List (MountEntry δ)} {f : MountEntry δ → Option (MountEntry δ)}

theorem entryAt_path (h : entryAt t q = some m) : m ∈ t ∧ m.path = q :=
  ⟨mem_of_find?_eq_some h, by simpa using find?_some h⟩

theorem entryAt_none : entryAt t q = none ↔ ∀ m ∈ t, m.path ≠ q := by
  simp [entryAt]

theorem Sound.mem_iff (h : Sound t) (m : MountEntry δ) : m ∈ t ↔ entryAt t m.path = some m := by
  refine ⟨fun hm => ?_, fun hm => (entryAt_path hm).1⟩
  cases hfind : entryAt t m.path with
  | none => exact absurd rfl (entryAt_none.mp hfind m hm)
  | some m' =>
    obtain ⟨hm', hpath⟩ := entryAt_path hfind
    rw [inj_on_of_nodup_map h.nodup hm' hm hpath]

theorem entryAt_append (t : List (MountEntry δ)) (m : MountEntry δ) (q : List Char) :
    entryAt (t ++ [m]) q = (entryAt t q).or (if m.path = q then some m else none) := by
  simp only [entryAt, find?_append, find?_singleton, decide_eq_true_eq]

theorem entryAt_editFirst (hnodup : (t.map MountEntry.path).Nodup)
    (hf : ∀ m m', f m = some m' → m'.path = m.path) (path q : List Char) :
    entryAt (editFirst path f t) q = if q = path then (entryAt t q).bind f else entryAt t q := by
  induction t with
  | nil => simp [editFirst, entryAt]
  | cons m t ih =>
    rw [map_cons, nodup_cons] at hnodup
    have ih' := ih hnodup.2
    have hcons : ∀ (x : MountEntry δ) (l : List (MountEntry δ)),
        entryAt (x :: l) q = if x.path = q then some x else entryAt l q := fun x l => by
      by_cases hx : x.path = q <;> simp [entryAt, hx]
    rw [editFirst]
    by_cases hm : m.path = path
    · -- the first entry at `path`: no other one follows
      have hrest : q = path → entryAt t q = none := fun hq => entryAt_none.mpr fun x hx heq =>
        hnodup.1 (mem_map.mpr ⟨x, hx, by rw [heq, hq, hm]⟩)
      rw [if_pos hm, hcons]
      cases hfm : f m with
      | none =>
        by_cases hq : q = path
        · subst hq
          simp [hrest rfl, hm, hfm]
        · simp [hq, hm, Ne.symm hq]
      | some m' =>
        have hm' : m'.path = path := (hf m m' hfm).trans hm
        rw [toList_some, singleton_append, hcons]
        by_cases hq : q = path
        · simp [hq, hm, hm', hfm]
        · simp [hq, hm, hm', Ne.symm hq]
    · rw [if_neg hm, hcons, hcons, ih']
      by_cases hq : m.path = q
      · simp [hq, show q ≠ path from fun h => hm (hq.trans h)]
      · simp [hq]

theorem editFirst_paths (hf : ∀ m m', f m = some m' → m'.path = m.path) (path : List Char) :
    ((editFirst path f t).map MountEntry.path).Sublist (t.map MountEntry.path) := by
  induction t with
  | nil => exact List.Sublist.refl _
  | cons m t ih =>
    rw [editFirst]
    split
    · cases hfm : f m with
      | none => exact sublist_cons_self _ _
      | some m' => simp [hf m m' hfm]
    · exact ih.cons_cons m.path

theorem forall_editFirst {P : MountEntry δ → Prop} (h : ∀ x ∈ t, P x)
    (hf : ∀ m x, f m = some x → P m → P x) :
    ∀ x ∈ editFirst path f t, P x := by
  induction t with
  | nil => exact h
  | cons m t ih =>
    rw [forall_mem_cons] at h
    rw [editFirst]
    split
    · exact forall_mem_append.mpr ⟨fun x hx => hf m x (mem_toList.mp hx) h.1, h.2⟩
    · exact forall_mem_cons.mpr ⟨h.1, ih h.2⟩

theorem Sound.edit (h : Sound t) (hf : ∀ m m', f m = some m' → m'.path = m.path)
    (hrefs : ∀ m m', f m = some m' → 0 < m'.refs) (path : List Char) :
    Sound (editFirst path f t) where
  nodup := h.nodup.sublist (editFirst_paths hf path)
  canonical := forall_editFirst h.canonical fun m x hfm hm => by
    rw [hf m x hfm]
    exact hm
  mounted := forall_editFirst h.mounted fun m x hfm _ => hrefs m x hfm

theorem Sound.append (h : Sound t) {m : MountEntry δ} (hnew : entryAt t m.path = none)
    (hcanonical : Lib.Canonical m.path) (hrefs : 0 < m.refs) : Sound (t ++ [m]) where
  nodup := by
    rw [map_append, nodup_append]
    refine ⟨h.nodup, by simp, fun a ha b hb => ?_⟩
    obtain ⟨x, hx, rfl⟩ := mem_map.mp ha
    rw [map_singleton, mem_singleton] at hb
    rw [hb]
    exact entryAt_none.mp hnew x hx
  canonical := forall_mem_append.mpr ⟨h.canonical, forall_mem_singleton.mpr hcanonical⟩
  mounted := forall_mem_append.mpr ⟨h.mounted, forall_mem_singleton.mpr hrefs⟩

end Map

/-! ## What a call does to the map -/

/-- The entry of `path` after one more mount, or one unmount. -/
def mountedBy (drv : δ) (source : List Char) (path : List Char) :
    Option (MountEntry δ) → MountEntry δ
  | some m => { m with refs := m.refs + 1 }
  | none => ⟨path, drv, 1, source⟩

def unmountedFrom (m : MountEntry δ) : Option (MountEntry δ) :=
  if m.refs > 1 then some { m with refs := m.refs - 1 } else none

/-- A call that returns −1 leaves the table; one that returns 0 changes the entry of its path. -/
inductive Effect (t : List (MountEntry δ)) (c : Call δ) : Int × List (MountEntry δ) → Prop
  | failed : Effect t c (-1, t)
  | mounted (t' : List (MountEntry δ)) (drv : δ) (source : List Char) (hsound : Sound t')
      (hmount : ∀ path, c ≠ .unmount path)
      (hentry : ∀ q, entryAt t' q =
        if q = c.target then some (mountedBy drv source q (entryAt t q)) else entryAt t q) :
          Effect t c (0, t')
  | unmounted (t' : List (MountEntry δ)) (m : MountEntry δ) (hsound : Sound t')
      (hunmount : c = .unmount c.target) (hm : entryAt t c.target = some m)
      (hentry : ∀ q, entryAt t' q = if q = c.target then unmountedFrom m else entryAt t q) :
      Effect t c (0, t')

variable {t : List (MountEntry δ)} {c : Call δ} {calls : List (Call δ)} {source : List Char}

omit [DecidableEq δ] in
theorem effect_append (ht : Sound t) {drv : δ} (hmount : ∀ path, c ≠ .unmount path)
    (hcanonical : Lib.Canonical c.target) (hnew : entryAt t c.target = none) :
    Effect t c (0, t ++ [⟨c.target, drv, 1, source⟩]) := by
  refine .mounted _ drv source (ht.append hnew hcanonical Nat.one_pos) hmount fun q => ?_
  rw [entryAt_append]
  by_cases hq : q = c.target
  · simp [hq, hnew, mountedBy]
  · simp [hq, Ne.symm hq]

theorem effect_mount (ht : Sound t) (drv : δ) (hpath : Lib.Canonical path) :
    Effect t (.mount path drv) (fsMount t path drv) := by
  unfold fsMount
  split
  · exact .failed
  split
  next m hm =>
    split
    next hsame =>
      refine .mounted _ drv [] (ht.edit ?_ ?_ path) nofun fun q => ?_
      · rintro m m' ⟨⟩
        rfl
      · rintro m m' ⟨⟩
        exact Nat.succ_pos _
      · rw [entryAt_editFirst ht.nodup (by rintro m m' ⟨⟩; rfl)]
        by_cases hq : q = path
        · simp [hq, hm, Call.target, mountedBy]
        · simp [hq, Call.target]
    · exact .failed
  next hnone =>
    split
    · exact .failed
    · exact effect_append ht nofun hpath hnone

omit [DecidableEq δ] in
theorem effect_bind (ht : Sound t) {target : List Char} (regular : Bool)
    (htarget : Lib.Canonical target) :
    Effect t (.bind source target regular) (fsBindMountFile t source target regular) := by
  unfold fsBindMountFile
  split
  · exact .failed
  next hfirst =>
  have hnew : entryAt t target = none := by
    simp only [not_or, fsGetMountDriverExact, trimSlashes_of_canonical htarget] at hfirst
    simpa [entryAt] using hfirst.2.2.2.2
  split
  · exact .failed
  split
  · exact .failed
  split
  · exact .failed
  · exact effect_append ht nofun htarget hnew

omit [DecidableEq δ] in
theorem effect_unmount (ht : Sound t) (path : List Char) :
    Effect t (.unmount path) (fsUnmount t path) := by
  unfold fsUnmount
  split
  · exact .failed
  next m hm =>
  have hsame : ∀ m m' : MountEntry δ, unmountedFrom m = some m' → m'.path = m.path ∧
      0 < m'.refs := by
    intro m m' h
    unfold unmountedFrom at h
    split at h
    next hrefs =>
      cases h
      exact ⟨rfl, Nat.sub_pos_of_lt hrefs⟩
    · cases h
  refine .unmounted _ m
    (ht.edit (fun m m' h => (hsame m m' h).1) (fun m m' h => (hsame m m' h).2) path)
    rfl hm fun q => ?_
  have hedit := entryAt_editFirst ht.nodup (fun m m' h => (hsame m m' h).1) path q
  refine hedit.trans ?_
  by_cases hq : q = path
  · simp [hq, hm, Call.target, unmountedFrom]
  · simp [hq, Call.target]

theorem Call.effect (ht : Sound t) (hc : c.Canonical) : Effect t c (c.run t) := by
  cases c with
  | mount path drv => exact effect_mount ht drv hc
  | bind source target regular => exact effect_bind ht regular hc.2
  | unmount path => exact effect_unmount ht path

theorem Call.run_sound (ht : Sound t) (hc : c.Canonical) : Sound (c.run t).2 := by
  have heffect := Call.effect ht hc
  revert heffect
  generalize c.run t = r
  rintro (_ | ⟨_, _, _, hsound⟩ | ⟨_, _, hsound⟩)
  · exact ht
  · exact hsound
  · exact hsound

theorem runCalls_sound (ht : Sound t) (hcalls : ∀ c ∈ calls, c.Canonical) :
    Sound (runCalls t calls) := by
  induction calls generalizing t with
  | nil => exact ht
  | cons c calls ih =>
    rw [forall_mem_cons] at hcalls
    exact ih (Call.run_sound ht hcalls.1) hcalls.2

omit [DecidableEq δ] in
theorem sound_nil : Sound ([] : List (MountEntry δ)) := ⟨by simp, by simp, by simp⟩

/-! ## Selection -/

/-- The entry whose path is the longest prefix of `p`, component by component. -/
def Longest (t : List (MountEntry δ)) (p : List Char) (m : MountEntry δ) : Prop :=
  m ∈ t ∧ comps m.path <+: comps p ∧ ∀ m' ∈ t, comps m'.path <+: comps p →
    comps m'.path <+: comps m.path

/-- The entry at the index a lookup returns. -/
def selected (t : List (MountEntry δ)) (p : List Char) : Option (MountEntry δ) :=
  (fsGetMountIndex t p).bind fun i => t[i]?

section Selection

omit [DecidableEq δ]

variable {p : List Char} {t : List (MountEntry δ)}

/-- **A mount covers the paths that start with its components.** -/
theorem fsMountCoversPath_iff {mp : List Char} (hp : Lib.Canonical p) (hmp : Lib.Canonical mp) :
    fsMountCoversPath p mp = true ↔ comps mp <+: comps p := by
  by_cases hroot : mp = ['/']
  · obtain ⟨r, rfl⟩ := hp.head
    subst hroot
    simp [fsMountCoversPath]
  rw [← extends_iff hmp hp hroot, extends_iff_take]
  have hshort : p.length < mp.length → p.take mp.length ≠ mp := by
    intro hlt htake
    rw [← htake, length_take] at hlt
    omega
  unfold fsMountCoversPath
  grind

/-- One pass over the table, by what it remembers. -/
theorem bestCover_map {ρ : Type} (val : Nat → MountEntry δ → ρ) (t : List (MountEntry δ))
    (p : List Char) :
    bestCover val t p = (bestCover Prod.mk t p).map fun e => val e.1 e.2 := by
  unfold bestCover
  refine congrArg Prod.fst (@foldl_hom _ _ _ (fun b : Option (Nat × MountEntry δ) × Nat =>
    (b.1.map fun e => val e.1 e.2, b.2)) _ _ t.zipIdx (none, 0) fun b e => ?_)
  split <;> rfl

/-- What the pass has found so far is a longest covering entry. -/
theorem bestCover_fold (p : List Char) (l : List (MountEntry δ × Nat))
    (b : Option (Nat × MountEntry δ)) (n : Nat) :
    let r :=
        l.foldl (fun best e => if fsMountCoversPath p e.1.path && decide (best.2 < e.1.pathLen) then
      (some (e.2, e.1), e.1.pathLen) else best) (b, n)
    n ≤ r.2 ∧ (∀ e ∈ l, fsMountCoversPath p e.1.path = true → e.1.pathLen ≤ r.2) ∧
      (r = (b, n) ∨ ∃ e ∈ l, fsMountCoversPath p e.1.path = true ∧
      (some (e.2, e.1), e.1.pathLen) = r) := by
  refine foldl_best (R := fun a b => b.2 ≤ a.2) (g := fun e => (some (e.2, e.1), e.1.pathLen))
    (fun _ => le_rfl) (fun _ _ _ h h' => h'.trans h) (fun best e => ?_) l (b, n)
  split
  next hnew =>
    obtain ⟨hcovers, hlen⟩ := (Bool.and_eq_true _ _).mp hnew
    exact ⟨(of_decide_eq_true hlen).le, fun _ => le_rfl, .inr ⟨hcovers, rfl⟩⟩
  next hold => exact ⟨le_rfl, fun hc => Nat.le_of_not_lt fun h => hold (by simp [hc, h]), .inl rfl⟩

/-- The longer of two mount paths that cover `p` goes on behind the shorter. -/
theorem prefix_of_covering {a b : List Char} (ha : Lib.Canonical a) (hb : Lib.Canonical b)
    (hap : comps a <+: comps p) (hbp : comps b <+: comps p) (hlen : a.length ≤ b.length) :
    comps a <+: comps b := by
  rcases prefix_or_prefix_of_prefix hap hbp with h | h
  · exact h
  have heq : a = b := by
    by_cases hroot : b = ['/']
    · obtain ⟨r, rfl⟩ := ha.head
      subst hroot
      simpa using hlen
    · obtain ⟨r, rfl, -⟩ := (extends_iff hb ha hroot).mpr h
      have hr : r = [] := by simpa using hlen
      simp [hr]
  rw [heq]

/-- **The pass finds the longest prefix.** -/
theorem bestCover_spec (ht : Sound t) (hp : Lib.Canonical p) :
    (bestCover Prod.mk t p = none ∧ ∀ m ∈ t, ¬comps m.path <+: comps p) ∨
      ∃ i m, bestCover Prod.mk t p = some (i, m) ∧ t[i]? = some m ∧ Longest t p m := by
  obtain ⟨-, hmax, hfrom⟩ := bestCover_fold p t.zipIdx none 0
  have hcovers : ∀ m ∈ t, comps m.path <+: comps p → fsMountCoversPath p m.path = true :=
      fun m hm h =>
    (fsMountCoversPath_iff hp (ht.canonical m hm)).mpr h
  have hmem : ∀ m ∈ t, ∃ e ∈ t.zipIdx, e.1 = m := fun m hm => by
    obtain ⟨i, hi⟩ := mem_iff_getElem?.mp hm
    exact ⟨(m, i), mem_zipIdx_iff_getElem?.mpr hi, rfl⟩
  rcases hfrom with hnone | ⟨e, he, hc, hsome⟩
  · refine .inl ⟨congrArg Prod.fst hnone, fun m hm hprefix => ?_⟩
    obtain ⟨e, he, rfl⟩ := hmem m hm
    have hlen := hmax e he (hcovers _ hm hprefix)
    rw [hnone] at hlen
    obtain ⟨r, hr⟩ := (ht.canonical e.1 hm).head
    simp [MountEntry.pathLen, hr] at hlen
  · have hget : t[e.2]? = some e.1 := mem_zipIdx_iff_getElem?.mp he
    have hin : e.1 ∈ t := mem_of_getElem? hget
    have hprefix := (fsMountCoversPath_iff hp (ht.canonical _ hin)).mp hc
    refine .inr ⟨e.2, e.1, congrArg Prod.fst hsome.symm, hget, hin, hprefix,
      fun m' hm' hprefix' => ?_⟩
    obtain ⟨e', he', rfl⟩ := hmem m' hm'
    have hlen := hmax e' he' (hcovers _ hm' hprefix')
    rw [← hsome] at hlen
    exact prefix_of_covering (ht.canonical _ hm') (ht.canonical _ hin) hprefix' hprefix hlen

theorem Longest.unique (ht : Sound t) {m' : MountEntry δ} (h : Longest t p m)
    (h' : Longest t p m') : m = m' := by
  have hcomps : comps m.path = comps m'.path :=
    (h'.2.2 m h.1 h.2.1).eq_of_length_le (h.2.2 m' h'.1 h'.2.1).length_le
  have hpath : m.path = m'.path := by
    rw [← (ht.canonical m h.1).render_comps, hcomps, (ht.canonical m' h'.1).render_comps]
  exact inj_on_of_nodup_map ht.nodup h.1 h'.1 hpath

/-- The three lookups agree on the entry with the longest prefix, or find that no path is a
prefix. -/
def Resolves (t : List (MountEntry δ)) (p : List Char) : Prop :=
  (∃ i m, t[i]? = some m ∧ Longest t p m ∧ fsMatchMount t p = some m.driver ∧
    fsGetMountIndex t p = some i ∧ ∀ outlen, fsGetMatchingMountPrefix t p outlen = if m.pathLen
    < outlen then some m.path else none) ∨
  ((∀ m ∈ t, ¬comps m.path <+: comps p) ∧ fsMatchMount t p = none ∧ fsGetMountIndex t p = none ∧
    ∀ outlen, fsGetMatchingMountPrefix t p outlen = none)

theorem Sound.resolves (ht : Sound t) (hp : Lib.Canonical p) : Resolves t p := by
  have hdriver := bestCover_map (fun _ m => m.driver) t p
  have hindex := bestCover_map (fun i _ => i) t p
  have hpath := bestCover_map (fun _ m => m.path) t p
  rcases bestCover_spec ht hp with ⟨hnone, hall⟩ | ⟨i, m, hsome, hget, hlongest⟩
  · rw [hnone] at hdriver hindex hpath
    refine .inr ⟨hall, hdriver, hindex, fun outlen => ?_⟩
    simp [fsGetMatchingMountPrefix, hpath]
  rw [hsome] at hdriver hindex hpath
  refine .inl ⟨i, m, hget, hlongest, hdriver, hindex, fun outlen => ?_⟩
  simp only [fsGetMatchingMountPrefix, hpath, map_some, MountEntry.pathLen]
  by_cases h : m.path.length < outlen
  · simp [h, Nat.ne_of_gt (Nat.zero_lt_of_lt h)]
  · simp [h]

theorem Sound.selected_spec (ht : Sound t) (hp : Lib.Canonical p) (m : MountEntry δ) :
    selected t p = some m ↔ Longest t p m := by
  rcases ht.resolves hp with ⟨i, m', hget, hlongest, -, hindex, -⟩ | ⟨hnone, -, hindex, -⟩
  · rw [selected, hindex, bind_some, hget, some_inj]
    exact ⟨fun h => h ▸ hlongest, hlongest.unique ht⟩
  · rw [selected, hindex]
    exact iff_of_false (by simp) fun h => hnone m h.1 h.2.1

theorem selected_congr {t' : List (MountEntry δ)} (ht : Sound t) (ht' : Sound t')
    (h : ∀ q, entryAt t' q = entryAt t q) (hp : Lib.Canonical p) :
    selected t' p = selected t p := by
  have hmem : ∀ m, m ∈ t' ↔ m ∈ t := fun m => by rw [ht'.mem_iff, ht.mem_iff, h]
  have hlongest : ∀ m, Longest t' p m ↔ Longest t p m := fun m => by simp only [Longest, hmem]
  refine Option.ext fun m => ?_
  rw [ht'.selected_spec hp, ht.selected_spec hp, hlongest]

end Selection

/-! ## Depths -/

/-- How many unmounts the path needs. -/
def depth (t : List (MountEntry δ)) (q : List Char) : Nat :=
  ((entryAt t q).map MountEntry.refs).getD 0

def Call.mounts : Call δ → Bool
  | .unmount _ => false
  | _ => true

/-- What a call adds to the depth of `q`; a call that returns −1 adds nothing. -/
def Call.change (t : List (MountEntry δ)) (c : Call δ) (q : List Char) : Int :=
  if (c.run t).1 = 0 ∧ c.target = q then (if c.mounts then 1 else -1) else 0

/-- Successful mounts at `q` less successful unmounts. -/
def level (t : List (MountEntry δ)) : List (Call δ) → List Char → Int
  | [], _ => 0
  | c :: calls, q => c.change t q + level (c.run t).2 calls q

/-- At every path, no unmount without a mount before it, and as many unmounts as mounts. -/
def Balanced (t : List (MountEntry δ)) (calls : List (Call δ)) : Prop :=
  ∀ q, (∀ pre post, calls = pre ++ post → 0 ≤ level t pre q) ∧ level t calls q = 0

theorem runCalls_append (t : List (MountEntry δ)) (a b : List (Call δ)) :
    runCalls t (a ++ b) = runCalls (runCalls t a) b := foldl_append

omit [DecidableEq δ] in
theorem Call.mounts_eq_true (h : ∀ path, c ≠ .unmount path) : c.mounts = true := by
  cases c with
  | mount path drv | bind source target regular => rfl
  | unmount path => exact absurd rfl (h path)

theorem depth_run (ht : Sound t) (hc : c.Canonical) (q : List Char) :
    (depth (c.run t).2 q : Int) = depth t q + c.change t q := by
  have heffect := Call.effect ht hc
  unfold Call.change
  revert heffect
  generalize c.run t = r
  rintro (_ | ⟨t', drv, source, -, hmount, hentry⟩ | ⟨t', m, -, hunmount, hm, hentry⟩)
  · simp
  · rw [Call.mounts_eq_true hmount]
    by_cases hq : c.target = q
    · subst hq
      cases he : entryAt t c.target <;> simp [depth, hentry, he, mountedBy]
    · simp [depth, hentry, hq, Ne.symm hq]
  · have hmounts : c.mounts = false := by rw [hunmount]; rfl
    by_cases hq : c.target = q
    · have hrefs := ht.mounted m (entryAt_path hm).1
      subst hq
      simp only [depth, hentry, hm, hmounts, unmountedFrom, if_true]
      split
      · simp
        omega
      · simp
        omega
    · simp [depth, hentry, hq, Ne.symm hq]

/-- **The depth of a path is its level.** -/
theorem depth_runCalls (ht : Sound t) (hcalls : ∀ c ∈ calls, c.Canonical) (q : List Char) :
    (depth (runCalls t calls) q : Int) = depth t q + level t calls q := by
  induction calls generalizing t with
  | nil => simp [runCalls, level]
  | cons c calls ih =>
    rw [forall_mem_cons] at hcalls
    rw [level, ← Int.add_assoc, ← depth_run ht hcalls.1, ← ih (Call.run_sound ht hcalls.1) hcalls.2]
    rfl

/-- The entry is the old one, mounted at least as often. -/
def Raised (e0 e : Option (MountEntry δ)) : Prop :=
  ∀ m0, e0 = some m0 → ∃ m, e = some m ∧ m = { m0 with refs := m.refs } ∧ m0.refs ≤ m.refs

theorem raised_run {t0 : List (MountEntry δ)} (ht0 : Sound t0) (ht : Sound t) (hc : c.Canonical)
    (h : Raised (entryAt t0 q) (entryAt t q)) (hdepth : depth t0 q ≤ depth (c.run t).2 q) :
    Raised (entryAt t0 q) (entryAt (c.run t).2 q) := by
  intro m0 hm0
  obtain ⟨m, hm, heq, hle⟩ := h m0 hm0
  have heffect := Call.effect ht hc
  revert heffect hdepth
  generalize c.run t = r
  rintro hdepth (_ | ⟨t', drv, source, -, hmount, hentry⟩ | ⟨t', m', -, hunmount, hm', hentry⟩)
  · exact ⟨m, hm, heq, hle⟩
  · by_cases hq : q = c.target
    · refine ⟨{ m with refs := m.refs + 1 }, ?_, by rw [heq], Nat.le_succ_of_le hle⟩
      simp only [hentry, hq, if_true]
      rw [← hq, hm]
      rfl
    · exact ⟨m, by simp [hentry, hq, hm], heq, hle⟩
  · by_cases hq : q = c.target
    · -- the depth does not fall below the old one, so the entry stays
      have hpos := ht0.mounted m0 (entryAt_path hm0).1
      have hentry' : entryAt t' q = unmountedFrom m := by
        rw [hentry, if_pos hq]
        rw [← hq, hm, some_inj] at hm'
        rw [hm']
      simp only [depth, hm0, hentry', map_some, getD_some] at hdepth
      simp only [hentry']
      unfold unmountedFrom at hdepth ⊢
      split at hdepth
      next hrefs => exact ⟨{ m with refs := m.refs - 1 }, if_pos hrefs, by rw [heq], hdepth⟩
      · exact absurd hdepth (Nat.not_le_of_gt hpos)
    · exact ⟨m, by simp [hentry, hq, hm], heq, hle⟩

/-- **A balanced sequence of calls restores every entry.** -/
theorem entryAt_balanced (ht : Sound t) (hcalls : ∀ c ∈ calls, c.Canonical)
    (hbalanced : Balanced t calls) (q : List Char) :
    entryAt (runCalls t calls) q = entryAt t q := by
  obtain ⟨hlevel, hzero⟩ := hbalanced q
  have hdepth : depth (runCalls t calls) q = depth t q := by
    have := depth_runCalls ht hcalls q
    omega
  have hraised : Raised (entryAt t q) (entryAt (runCalls t calls) q) := by
    clear hzero hdepth hbalanced
    induction calls using List.reverseRecOn with
    | nil => exact fun m hm => ⟨m, hm, rfl, le_rfl⟩
    | append_singleton calls c ih =>
      have hcalls' : ∀ d ∈ calls, d.Canonical := fun d hd => hcalls d (mem_append_left _ hd)
      have ih' := ih hcalls' fun pre post h => hlevel pre (post ++ [c]) (by rw [h, append_assoc])
      have hsum := depth_runCalls ht hcalls q
      have hnonneg := hlevel (calls ++ [c]) [] (by rw [append_nil])
      rw [runCalls_append] at hsum ⊢
      refine raised_run ht (runCalls_sound ht hcalls') (hcalls c (by simp)) ih' ?_
      have hstep : runCalls (runCalls t calls) [c] = (c.run (runCalls t calls)).2 := rfl
      rw [hstep] at hsum
      omega
  cases he : entryAt t q with
  | none =>
    cases he' : entryAt (runCalls t calls) q with
    | none => rfl
    | some m =>
      have hpos := (runCalls_sound ht hcalls).mounted m (entryAt_path he').1
      simp only [depth, he, he', map_some, map_none, getD_some, getD_none] at hdepth
      omega
  | some m =>
    obtain ⟨m', hm', heq, -⟩ := hraised m he
    have hrefs : m'.refs = m.refs := by simpa [depth, he, hm'] using hdepth
    rw [hm', heq, hrefs]

omit [DecidableEq δ] in
theorem unmountedFrom_mountedBy (ht : Sound t) (drv : δ) (source q : List Char) :
    unmountedFrom (mountedBy drv source q (entryAt t q)) = entryAt t q := by
  cases he : entryAt t q with
  | none => rfl
  | some m =>
    have hpos := ht.mounted m (entryAt_path he).1
    simp [mountedBy, unmountedFrom, hpos]

/-- **A mount, balanced calls, an unmount of the same path**: every entry is as before the mount. -/
theorem entryAt_mount_unmount (ht : Sound t) (hc : c.Canonical) (hmount : c.mounts = true)
    (hrun : (c.run t).1 = 0) (hcalls : ∀ d ∈ calls, d.Canonical)
    (hbalanced : Balanced (c.run t).2 calls) :
    let r := fsUnmount (runCalls (c.run t).2 calls) c.target
    r.1 = 0 ∧ Sound r.2 ∧ ∀ q, entryAt r.2 q = entryAt t q := by
  have hsound := Call.run_sound ht hc
  have hback := entryAt_balanced hsound hcalls hbalanced
  have heffect := Call.effect ht hc
  have hun := effect_unmount (runCalls_sound hsound hcalls) c.target
  revert hsound hback heffect hun hrun
  generalize runCalls (c.run t).2 calls = t2
  generalize c.run t = r
  rintro hrun hsound hback (_ | ⟨t1, drv, source, -, -, hentry⟩ | ⟨t1, m, -, hunmount, -, -⟩) hun
  · cases hrun
  · have hat : entryAt t2 c.target = some (mountedBy drv source c.target (entryAt t c.target)) := by
      rw [hback, hentry, if_pos rfl]
    have hres : (fsUnmount t2 c.target).1 = 0 := by simp [fsUnmount, hat]
    revert hun hres
    generalize fsUnmount t2 c.target = r'
    rintro (_ | ⟨_, _, _, _, hnot, _⟩ | ⟨t3, m, hsound3, -, hm, hentry3⟩) hres
    · cases hres
    · exact absurd rfl (hnot c.target)
    · refine ⟨rfl, hsound3, fun q => ?_⟩
      rw [hentry3, show (Call.unmount c.target : Call δ).target = c.target from rfl]
      by_cases hq : q = c.target
      · have hm' : m = mountedBy drv source c.target (entryAt t c.target) :=
          some_inj.mp (hm.symm.trans hat)
        rw [hq, hm', if_pos rfl, unmountedFrom_mountedBy ht]
      · rw [if_neg hq, hback, hentry, if_neg hq]
  · rw [hunmount] at hmount
    cases hmount

/-! ## Resolution -/

/-- **Resolution of the mount table.** After any calls on canonical paths there is at most one entry
per path; the three lookups agree, on the entry whose path is the longest prefix; the depth of a
path is the number of its mounts less that of its unmounts; and a mount that is followed by balanced
calls and an unmount of its path leaves every selection as it was. -/
theorem mount_resolution (calls : List (Call δ)) (hcalls : ∀ c ∈ calls, c.Canonical) :
    ((runCalls [] calls).map MountEntry.path).Nodup ∧
    (∀ p, Lib.Canonical p → Resolves (runCalls [] calls) p) ∧
    (∀ q, (depth (runCalls [] calls) q : Int) = level [] calls q) ∧
    ∀ (c : Call δ) (between : List (Call δ)), c.Canonical → (∀ d ∈ between, d.Canonical) →
      c.mounts = true → (c.run (runCalls [] calls)).1 = 0 →
      Balanced (c.run (runCalls [] calls)).2 between →
      (fsUnmount (runCalls (c.run (runCalls [] calls)).2 between) c.target).1 = 0 ∧ ∀ p,
      Lib.Canonical p →
        selected (fsUnmount (runCalls (c.run (runCalls [] calls)).2 between) c.target).2 p =
          selected (runCalls [] calls) p := by
  have ht : Sound (runCalls [] calls) := runCalls_sound sound_nil hcalls
  refine ⟨ht.nodup, fun p hp => ht.resolves hp, fun q => ?_, ?_⟩
  · simpa [depth, entryAt] using depth_runCalls sound_nil hcalls q
  · intro c between hc hbetween hmount hrun hbalanced
    obtain ⟨hret, hsound, hentry⟩ := entryAt_mount_unmount ht hc hmount hrun hbetween hbalanced
    exact ⟨hret, fun p hp => selected_congr ht hsound hentry hp⟩

/-- Driver 0 at the root, driver 1 twice at `/mnt`. -/
def mountedMnt : List (Call Nat) :=
  [.mount ['/'] 0, .mount ['/', 'm', 'n', 't'] 1, .mount ['/', 'm', 'n', 't'] 1]

theorem mountedMnt_canonical : ∀ c ∈ mountedMnt, c.Canonical := by
  have hroot : Lib.Canonical ['/'] := ⟨[], by simp, rfl⟩
  have hmnt : Lib.Canonical ['/', 'm', 'n', 't'] := ⟨[['m', 'n', 't']], by simp [IsName], rfl⟩
  simp [mountedMnt, Call.Canonical, hroot, hmnt]

/-- `/mntx` belongs to the root, and `/mnt` needs two unmounts. -/
theorem mount_resolution_mnt :
    (∀ c ∈ mountedMnt, c.Canonical) ∧ Resolves (runCalls [] mountedMnt) ['/', 'm', 'n', 't', 'x'] ∧
    fsMatchMount (runCalls [] mountedMnt) ['/', 'm', 'n', 't', 'x'] = some 0 ∧
    fsMatchMount (runCalls [] mountedMnt) ['/', 'm', 'n', 't', '/', 'x'] = some 1 ∧
    depth (runCalls [] mountedMnt) ['/', 'm', 'n', 't'] = 2 := by
  have hmain := mount_resolution mountedMnt mountedMnt_canonical
  refine ⟨mountedMnt_canonical,
    hmain.2.1 _ ⟨[['m', 'n', 't', 'x']], by simp [IsName], rfl⟩, by decide, by decide, ?_⟩
  have hdepth := hmain.2.2.1 ['/', 'm', 'n', 't']
  have hlevel : level [] mountedMnt ['/', 'm', 'n', 't'] = 2 := by decide
  rw [hlevel] at hdepth
  exact_mod_cast hdepth

end AxonOS.Fs

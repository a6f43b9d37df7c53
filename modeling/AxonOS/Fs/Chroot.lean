import AxonOS.Arch.Word
import AxonOS.Lib.Path

/-! # Paths under a process root

`resolve_kernel_path`, `resolve_user_path` and `resolve_user_path_at` of `syscall_dispatch.c`. A
string is the list of its characters before the terminator; a buffer of `cap` bytes keeps the first
`cap - 1` of them.

A path is confined if it is the root or beneath it and has no `..` component. The working directory
is clamped to the root in every branch, a directory descriptor is not.
-/

namespace AxonOS.Fs

open Lib List

def dot : List Char := ['.']

def dotdot : List Char := ['.', '.']

def AT_FDCWD : Int := -100

def THREAD_MAX_FD : Int := 2048

/-- Size of the buffers `path_local`. -/
def PATH_LOCAL : Nat := 4096

/-- Size of the buffers `virt` and `tmp`. -/
def PATH_TMP : Nat := 512

def DEVFS_TTY_COUNT : Nat := 6

/-! ## Normalisation -/

/-- A string that starts with the component `.` or `..`. -/
def dotStart : List Char → Bool
  | ['.'] => true
  | '.' :: '/' :: _ => true
  | ['.', '.'] => true
  | '.' :: '.' :: '/' :: _ => true
  | _ => false

/-- The loop of `path_needs_normalize`. -/
def needsScan : List Char → Bool
  | [] => false
  | c :: s => (c == '/' && (s.head? == some '/' || dotStart s)) || needsScan s

def pathNeedsNormalize (p : List Char) : Bool :=
  (decide (1 < p.length) && p.getLast? == some '/') || dotStart p || needsScan p

/-- The first loop of `normalize_path`; it ends when 64 components are held. -/
def walkComps : List (List Char) → List (List Char) → List (List Char)
  | [], held => held
  | c :: cs, held =>
    if 64 ≤ held.length then held
    else if c = dot then walkComps cs held
    else if c = dotdot then walkComps cs held.dropLast
    else walkComps cs (held ++ [c])

def normalizePath (buf : List Char) (cap : Nat) : List Char :=
  ((render (walkComps (comps buf) [])).take (PATH_TMP - 1)).take (cap - 1)

def mapTtyAliasPath (buf : List Char) (cap : Nat) : List Char :=
  if cap < 10 then buf
  else
    match buf with
    | ['/', 't', 't', 'y', c] =>
      if '1' ≤ c ∧ c.toNat ≤ '0'.toNat + DEVFS_TTY_COUNT then
        ['/', 'd', 'e', 'v', '/', 't', 't', 'y', c].take (cap - 1)
      else buf
    | _ => buf

/-- What both relative branches do after joining. -/
def settle (text : List Char) (cap : Nat) : List Char :=
  if pathNeedsNormalize text then normalizePath text cap else trimSlashes text

/-! ## Resolution -/

/-- The descriptor of an open file: its path, and whether it is a directory. -/
structure OpenFile where
  isDir : Bool
  path : Option (List Char)

/-- The fields of a thread and its process that resolution reads; an empty string is an unset
one. -/
structure Task where
  processRoot : List Char
  threadRoot : List Char
  cwd : List Char
  fds : Int → Option OpenFile

def taskFsRoot (t : Task) : List Char :=
  if t.processRoot ≠ [] then t.processRoot
  else if t.threadRoot ≠ [] then t.threadRoot
  else ['/']

def taskCwd (t : Task) : List Char := if t.cwd ≠ [] then t.cwd else taskFsRoot t

def pathIsBeneathRoot (path root : List Char) : Bool :=
  if root = ['/'] then path.head? == some '/'
  else path.take root.length == root
    && (path[root.length]? == none || path[root.length]? == some '/')

/-- The characters before the last slash, if there is one behind the first place. -/
def parentOf (p : List Char) : Option (List Char) :=
  let front := (p.reverse.dropWhile (· ≠ '/')).reverse.dropLast
  if front = [] then none else some front

/-- With the root of the system, terminals have a second name. -/
def withAlias (root out : List Char) (cap : Nat) : List Char :=
  if root = ['/'] then mapTtyAliasPath out cap else out

/-- The branch of `resolve_kernel_path` for an absolute path. -/
def resolveAbsolute (root path : List Char) (cap : Nat) : List Char :=
  let cut := path.take (PATH_TMP - 1)
  let virt := if pathNeedsNormalize cut then normalizePath cut PATH_TMP else cut
  if root = ['/'] then virt.take (cap - 1)
  else if virt = ['/'] then root.take (cap - 1)
  else (root ++ virt).take (cap - 1)

/-- The branch for `..`. -/
def resolveParent (root cwd : List Char) (cap : Nat) : List Char :=
  if cwd = root then root.take (cap - 1)
  else
    match parentOf cwd with
    | some parent => parent.take (cap - 1)
    | none => root.take (cap - 1)

/-- The branch for a path relative to the working directory. -/
def resolveRelative (root cwd path : List Char) (cap : Nat) : List Char :=
  let joined := if cwd = ['/'] then '/' :: path else cwd ++ '/' :: path
  let out := settle (joined.take (cap - 1)) cap
  if pathIsBeneathRoot out root then out else root.take (cap - 1)

def resolveKernelPath (t : Task) (path : List Char) (cap : Nat) : List Char :=
  let root := taskFsRoot t
  let cwd := taskCwd t
  if path = [] then []
  else if path.head? = some '/' then withAlias root (resolveAbsolute root path cap) cap
  else if path = dot then cwd.take (cap - 1)
  else if path = dotdot then resolveParent root cwd cap
  else withAlias root (resolveRelative root cwd path cap) cap

/-- A path argument: null, a string of the caller's memory that can be read or not, or a kernel
string. -/
inductive PathArg where
  | null
  | user (s : List Char) (readable : Bool)
  | kernel (s : List Char)

def resolveUserPath (t : Task) (arg : PathArg) (cap : Nat) : List Char :=
  match arg with
  | .user s readable =>
    if PATH_LOCAL - 1 ≤ s.length ∨ readable = false then [] else resolveKernelPath t s cap
  | _ => []

/-- The argument of `resolve_user_path_at` as a string; a kernel string is used in place. -/
def PathArg.read : PathArg → Except Int (List Char)
  | .null => .ok []
  | .user s readable =>
    if PATH_LOCAL - 1 ≤ s.length then .error (-ENAMETOOLONG)
    else if readable = false then .error (-EFAULT)
    else .ok s
  | .kernel s => .ok s

/-- A path relative to the directory `base`; no root is looked at. -/
def resolveBeneath (base path : List Char) (cap : Nat) : List Char :=
  let joined := if 1 < base.length ∧ base.getLast? = some '/' then base ++ path
    else base ++ '/' :: path
  settle (joined.take (cap - 1)) cap

def resolveUserPathAt (t : Task) (dirfd : Int) (arg : PathArg) (cap : Nat) : Int × List Char :=
  match arg.read with
  | .error e => (e, [])
  | .ok path =>
    if path = [] then (-ENOENT, [])
    else if path.head? = some '/' ∨ dirfd = AT_FDCWD then (0, resolveKernelPath t path cap)
    else if dirfd < 0 ∨ THREAD_MAX_FD ≤ dirfd then (-EBADF, [])
    else
      match t.fds dirfd with
      | none => (-EBADF, [])
      | some f =>
        if f.isDir = false then (-ENOTDIR, [])
        else (0, resolveBeneath (f.path.getD ['/']) path cap)

/-! ## What normalisation leaves -/

/-- Components without `.` and `..`. -/
def Plain (cs : List (List Char)) : Prop := ∀ c ∈ cs, IsName c ∧ c ≠ dot ∧ c ≠ dotdot

variable {cs : List (List Char)} {a s out path root text cwd l : List Char} {cap k : Nat}
    {t : Task} {arg : PathArg}

theorem Plain.names (h : Plain cs) : ∀ c ∈ cs, IsName c := fun c hc => (h c hc).1

theorem Plain.not_dotdot (h : Plain cs) : dotdot ∉ cs := fun hmem => (h _ hmem).2.2 rfl

theorem plain_walkComps {held : List (List Char)} (hcs : ∀ c ∈ cs, IsName c) (hheld : Plain held) :
    Plain (walkComps cs held) := by
  induction cs generalizing held with
  | nil => exact hheld
  | cons c cs ih =>
    rw [forall_mem_cons] at hcs
    rw [walkComps]
    split
    · exact hheld
    split
    · exact ih hcs.2 hheld
    next hdot =>
    split
    · exact ih hcs.2 fun d hd => hheld d (mem_of_mem_dropLast hd)
    next hdotdot =>
    exact ih hcs.2 (forall_mem_append.mpr ⟨hheld, forall_mem_singleton.mpr ⟨hcs.1, hdot, hdotdot⟩⟩)

theorem plain_nil : Plain [] := fun _ hc => absurd hc not_mem_nil

theorem plain_walk (s : List Char) : Plain (walkComps (comps s) []) :=
  plain_walkComps (fun _ => isName_of_mem_comps) plain_nil

theorem needsScan_append {b : List Char} (h : needsScan (a ++ b) = false) :
    needsScan b = false := by
  induction a with
  | nil => exact h
  | cons c a ih =>
    rw [cons_append, needsScan, Bool.or_eq_false_iff] at h
    exact ih h.2

/-- **An absolute path that needs no normalisation is canonical** and has no `.` or `..`. -/
theorem exists_plain_of_scan (hscan : needsScan ('/' :: s) = false)
    (hlast : s = [] ∨ s.getLast? ≠ some '/') : ∃ cs, Plain cs ∧ '/' :: s = render cs := by
  induction hn : s.length using Nat.strong_induction_on generalizing s with
  | _ n ih =>
    by_cases hnil : s = []
    · exact ⟨[], plain_nil, by rw [hnil]; rfl⟩
    have hend := hlast.resolve_left hnil
    obtain ⟨x, r, rfl, hx, hr⟩ := exists_first_slash s
    simp only [needsScan, Bool.or_eq_false_iff, beq_self_eq_true, Bool.true_and,
      beq_eq_false_iff_ne] at hscan
    obtain ⟨⟨hhead, hdot⟩, hscan⟩ := hscan
    have hname : IsName x := by
      refine ⟨fun hxnil => ?_, hx⟩
      subst hxnil
      rcases hr with rfl | ⟨r', rfl⟩
      · exact hnil rfl
      · exact hhead rfl
    have hplain : x ≠ dot ∧ x ≠ dotdot := by
      constructor
      · rintro rfl
        rcases hr with rfl | ⟨r', rfl⟩ <;> cases hdot
      · rintro rfl
        rcases hr with rfl | ⟨r', rfl⟩ <;> cases hdot
    rcases hr with rfl | ⟨r', rfl⟩
    · exact ⟨[x], forall_mem_singleton.mpr ⟨hname, hplain⟩, by simp [render]⟩
    have hr' : r' ≠ [] := by
      rintro rfl
      simp at hend
    have hlast' : r'.getLast? ≠ some '/' := by
      rwa [getLast?_append, getLast?_cons_of_ne_nil hr', Option.or_of_isSome] at hend
      simpa using hr'
    have hlen : r'.length < n := by
      rw [← hn, length_append, length_cons]
      omega
    obtain ⟨cs, hcs, heq⟩ := ih r'.length hlen (needsScan_append hscan) (.inr hlast') rfl
    have hne : cs ≠ [] := by
      rintro rfl
      exact hr' (List.cons.inj heq).2
    refine ⟨x :: cs, forall_mem_cons.mpr ⟨⟨hname, hplain⟩, hcs⟩, ?_⟩
    rw [heq, render, if_neg hne, render, slashed_cons]
    rfl

theorem plain_of_not_needs (hslash : text.head? = some '/')
    (hneeds : ¬pathNeedsNormalize text = true) :
    ∃ cs, Plain cs ∧ text = render cs := by
  obtain ⟨s, rfl⟩ : ∃ s, text = '/' :: s := head?_eq_some_iff.mp hslash
  simp only [pathNeedsNormalize, Bool.or_eq_true, not_or, Bool.not_eq_true] at hneeds
  refine exists_plain_of_scan hneeds.2 ?_
  by_cases hs : s = []
  · exact .inl hs
  right
  have hlong : 1 < ('/' :: s).length := by
    have := length_pos_iff.mpr hs
    rw [length_cons]
    omega
  have htrail := hneeds.1.1
  rwa [decide_eq_true hlong, Bool.true_and, beq_eq_false_iff_ne,
  getLast?_cons_of_ne_nil hs] at htrail

/-- The components of a path, with `.` and `..` resolved where it is to be normalised. -/
def settled (text : List Char) : List (List Char) :=
  if pathNeedsNormalize text then walkComps (comps text) [] else comps text

/-- The number of characters kept of them: what is normalised passes through the buffer `tmp`. -/
def room (text : List Char) (cap : Nat) : Nat :=
  if pathNeedsNormalize text then min (cap - 1) (PATH_TMP - 1) else cap - 1

theorem settled_spec (h : text.head? = some '/') :
    Plain (settled text) ∧ (¬pathNeedsNormalize text = true → render (settled text) = text) := by
  unfold settled
  split
  next hneeds => exact ⟨plain_walk text, fun h => absurd hneeds h⟩
  next hneeds =>
    obtain ⟨cs, hcs, rfl⟩ := plain_of_not_needs h hneeds
    rw [comps_render hcs.names]
    exact ⟨hcs, fun _ => rfl⟩

/-- **What both relative branches leave** is a cut canonical path without `.` and `..`. -/
theorem settle_spec {joined : List Char} (hjoined : joined.head? = some '/')
    (htext : joined.take (cap - 1) = text) :
    Plain (settled text) ∧ settle text cap = (render (settled text)).take (room text cap) := by
  by_cases hzero : cap - 1 = 0
  · rw [hzero, take_zero] at htext
    subst htext
    refine ⟨plain_nil, ?_⟩
    rw [show room [] cap = 0 from hzero]
    rfl
  have hhead : text.head? = some '/' := by rw [← htext, head?_take, if_neg hzero, hjoined]
  obtain ⟨hplain, hrender⟩ := settled_spec hhead
  refine ⟨hplain, ?_⟩
  unfold settle
  split
  next hneeds => rw [room, if_pos hneeds, settled, if_pos hneeds, normalizePath, take_take]
  next hneeds =>
    have htake : text.take (cap - 1) = text := take_of_length_le (htext ▸ length_take_le _ _)
    rw [room, if_neg hneeds, hrender hneeds, htake]
    exact trimSlashes_of_canonical ⟨_, hplain.names, (hrender hneeds).symm⟩

/-! ## Confinement -/

/-- The path is the root or beneath it and has no `..` component. -/
def Confined (root path : List Char) : Prop :=
  pathIsBeneathRoot path root = true ∧ dotdot ∉ comps path

/-- A canonical process root. -/
def IsRoot (root : List Char) : Prop := ∃ cs, Plain cs ∧ root = render cs

/-- The first `k` characters end behind the two dots of a longer component. -/
def CutDots (path : List Char) (k : Nat) : Prop :=
  ∃ a x r, path = a ++ '/' :: '.' :: '.' :: x :: r ∧ x ≠ '/' ∧ a.length + 3 = k

/-- The first `k` characters of the path with these components are the root, or beneath it. -/
def Under (root : List Char) (cs : List (List Char)) (k : Nat) : Prop :=
  root.length ≤ k ∧ (comps root <+: cs ∨ k = root.length ∧ root <+: render cs)

/-- The working directory and a path relative to it. -/
def joined (cwd path : List Char) : List Char :=
  if cwd = ['/'] then '/' :: path else cwd ++ '/' :: path

/-- A directory's path and a path relative to it. -/
def joinedAt (base path : List Char) : List Char :=
  if 1 < base.length ∧ base.getLast? = some '/' then base ++ path else base ++ '/' :: path

/-- The joined path leads to the root or beneath it. -/
def Below (root text : List Char) (cap : Nat) : Prop := Under root (settled text) (room text cap)

/-- No component of the joined path is cut down to `..`. -/
def Whole (text : List Char) (cap : Nat) : Prop := ¬CutDots (render (settled text)) (room text cap)

/-- **What must hold of the working directory, the path and the buffer**: the root fits, and no
component of the path that is meant is cut down to `..`. -/
def Fits (root cwd path : List Char) (cap : Nat) : Prop :=
  root.length < cap ∧
    if path.head? = some '/' then ¬CutDots
      (render (comps root ++ settled (path.take (PATH_TMP - 1)))) (cap - 1)
    else if path = dot then ¬CutDots cwd (cap - 1)
    else if path = dotdot then cwd = root ∨ ∀ a, parentOf cwd = some a → ¬CutDots a (cap - 1)
    else Below root ((joined cwd path).take (cap - 1)) cap →
      Whole ((joined cwd path).take (cap - 1)) cap

theorem not_cutDots (h : s.length ≤ k) : ¬CutDots s k := by
  rintro ⟨a, x, r, rfl, -, rfl⟩
  simp only [length_append, length_cons] at h
  omega

theorem room_le (text : List Char) (cap : Nat) : room text cap ≤ cap - 1 := by
  unfold room
  split
  · exact Nat.min_le_left _ _
  · exact le_rfl

theorem IsRoot.canonical (h : IsRoot root) : Canonical root := by
  obtain ⟨cs, hcs, rfl⟩ := h
  exact ⟨cs, hcs.names, rfl⟩

theorem IsRoot.plain (h : IsRoot root) : Plain (comps root) := by
  obtain ⟨cs, hcs, rfl⟩ := h
  rwa [comps_render hcs.names]

theorem IsRoot.length_pos (h : IsRoot root) : 0 < root.length := by
  obtain ⟨r, rfl⟩ := h.canonical.head
  exact Nat.succ_pos _

theorem pathIsBeneathRoot_system (path : List Char) :
    pathIsBeneathRoot path ['/'] = true ↔ path.head? = some '/' := by
  simp [pathIsBeneathRoot]

theorem pathIsBeneathRoot_iff (hroot : root ≠ ['/']) :
    pathIsBeneathRoot path root = true ↔ Extends root path := by
  rw [pathIsBeneathRoot, if_neg hroot, extends_iff_take]
  simp

theorem length_le_of_beneath (h : pathIsBeneathRoot out root = true) :
    root.length ≤ out.length := by
  by_cases hsys : root = ['/']
  · subst hsys
    have hhead := (pathIsBeneathRoot_system out).mp h
    obtain ⟨r, rfl⟩ := head?_eq_some_iff.mp hhead
    simp
  · obtain ⟨r, rfl, -⟩ := (pathIsBeneathRoot_iff hsys).mp h
    simp

theorem length_splitFirst (s : List Char) :
    (splitFirst s).1.length + (slashed (splitFirst s).2).length ≤ s.length := by
  induction s with
  | nil => simp [splitFirst]
  | cons c s ih =>
    simp only [splitFirst]
    split
    · simp only [keepPart]
      split
      · simp
        omega
      · simp
        omega
    · simp
      omega

theorem length_slashed_comps (s : List Char) : (slashed (comps s)).length ≤ s.length + 1 := by
  have h := length_splitFirst s
  unfold comps keepPart
  split
  · omega
  · simp
    omega

theorem length_slashed_walk (cs held : List (List Char)) :
    (slashed (walkComps cs held)).length ≤ (slashed held).length + (slashed cs).length := by
  induction cs generalizing held with
  | nil => simp [walkComps]
  | cons c cs ih =>
    rw [walkComps, slashed_cons, length_append]
    split
    · omega
    split
    · have := ih held
      omega
    split
    · have hdrop : (slashed held.dropLast).length ≤ (slashed held).length := by
        rcases eq_nil_or_concat held with rfl | ⟨l, x, rfl⟩
        · exact le_rfl
        · simp [slashed_append]
      have := ih held.dropLast
      omega
    · have := ih (held ++ [c])
      rw [slashed_append] at this
      simp only [slashed_cons, slashed_nil, append_nil, length_append, length_cons] at this ⊢
      omega

/-- **Normalisation does not make a path longer.** -/
theorem length_render_walk (h : s.head? = some '/') :
    (render (walkComps (comps s) [])).length ≤ s.length := by
  obtain ⟨r, rfl⟩ := head?_eq_some_iff.mp h
  have hcomps := length_slashed_comps r
  have hwalk := length_slashed_walk (comps r) []
  rw [comps_slash]
  unfold render
  split
  · simp
  · simp only [slashed_nil, length_nil, length_cons] at hwalk ⊢
    omega

/-- The virtual path of the absolute branch is not cut behind its normalisation. -/
theorem virt_spec (h : path.head? = some '/') : Plain (settled (path.take (PATH_TMP - 1))) ∧
      (if pathNeedsNormalize (path.take (PATH_TMP - 1)) then normalizePath
        (path.take (PATH_TMP - 1)) PATH_TMP
        else path.take (PATH_TMP - 1)) = render (settled (path.take (PATH_TMP - 1))) := by
  have hhead : (path.take (PATH_TMP - 1)).head? = some '/' := by
    rw [head?_take, h]
    rfl
  have hlen : (path.take (PATH_TMP - 1)).length ≤ PATH_TMP - 1 := by simp
  generalize path.take (PATH_TMP - 1) = cut at hhead hlen
  obtain ⟨hplain, hrender⟩ := settled_spec hhead
  refine ⟨hplain, ?_⟩
  split
  next hneeds =>
    have hshort := length_render_walk hhead
    rw [settled, if_pos hneeds, normalizePath, take_of_length_le (by rw [length_take]; omega),
      take_of_length_le (by omega)]
  next hneeds => exact (hrender hneeds).symm

theorem parentOf_append (hl : '/' ∉ l) :
    parentOf (a ++ '/' :: l) = if a = [] then none else some a := by
  have hskip : ∀ m b : List Char, '/' ∉ m → (m ++ '/' :: b).dropWhile (· ≠ '/') = '/' :: b := by
    intro m b hm
    induction m with
    | nil => simp
    | cons x m ih =>
      rw [mem_cons, not_or] at hm
      rw [cons_append, dropWhile_cons_of_pos (by simpa using Ne.symm hm.1), ih hm.2]
  have hfront : ((a ++ '/' :: l).reverse.dropWhile (· ≠ '/')).reverse.dropLast = a := by
    rw [reverse_append, reverse_cons, append_assoc, singleton_append,
      hskip l.reverse a.reverse (by simpa using hl)]
    simp
  simp only [parentOf, hfront]

/-- The second name of a terminal is beneath the root of the system, as the first is. -/
theorem confined_withAlias : Confined root (withAlias root out cap) ↔ Confined root out := by
  unfold withAlias
  split
  next hsys =>
    subst hsys
    unfold mapTtyAliasPath
    split
    · rfl
    next hcap =>
    split
    next c =>
      split
      next hc =>
        have hslash : '/' ≠ c := by
          rintro rfl
          exact absurd hc.1 (by decide)
        have htake : ['/', 'd', 'e', 'v', '/', 't', 't', 'y', c].take (cap - 1) =
            slashed [['d', 'e', 'v'], ['t', 't', 'y', c]] := take_of_length_le (by simp; omega)
        rw [htake, show ['/', 't', 't', 'y', c] = slashed [['t', 't', 'y', c]] from rfl]
        refine iff_of_true ⟨rfl, ?_⟩ ⟨rfl, ?_⟩
        · rw [comps_slashed (by simp [IsName, hslash])]
          simp [dotdot]
        · rw [comps_slashed (by simp [IsName, hslash])]
          simp [dotdot]
      · rfl
    · rfl
  · rfl

theorem IsRoot.confined (h : IsRoot root) : Confined root root := by
  refine ⟨?_, h.plain.not_dotdot⟩
  by_cases hsys : root = ['/']
  · subst hsys
    rfl
  · exact (pathIsBeneathRoot_iff hsys).mpr ⟨[], by simp, .inl rfl⟩

theorem not_dotdot_of_cut (hhead : (s.take k).head? = some '/') (h : dotdot ∉ comps s) :
    dotdot ∉ comps (s.take k) ↔ ¬CutDots s k := by
  have hcut : dotdot ∉ comps (s.take k ++ s.drop k) := by rwa [take_append_drop]
  refine not_congr ((mem_comps_of_cut (by simp [IsName, dotdot]) hhead hcut).trans ⟨?_, ?_⟩)
  · rintro ⟨a, ha⟩
    have hsplit : s = a ++ '/' :: (dotdot ++ s.drop k) := by
      conv_lhs => rw [← take_append_drop k s, ← ha, append_assoc]
      rfl
    rw [hsplit, comps_append_slash, mem_append, not_or] at h
    rcases hrest : s.drop k with _ | ⟨x, r⟩
    · rw [hrest] at h
      exact absurd (by decide) h.2
    · rw [hrest] at h hsplit
      have hlen : s.length - k ≠ 0 := by
        rw [← length_drop, hrest]
        simp
      refine ⟨a, x, r, hsplit, ?_, ?_⟩
      · rintro rfl
        refine h.2 ?_
        rw [comps_append_slash]
        exact mem_append_left _ (by decide)
      · have := congrArg length ha
        simp only [length_append, length_cons, dotdot, length_nil, length_take] at this
        omega
  · rintro ⟨a, x, r, rfl, -, rfl⟩
    exact ⟨a, by simp [dotdot, take_append]⟩

section

variable (hroot : IsRoot root)

include hroot

theorem head_of_beneath (h : pathIsBeneathRoot out root = true) : out.head? = some '/' := by
  by_cases hsys : root = ['/']
  · subst hsys
    exact (pathIsBeneathRoot_system out).mp h
  · obtain ⟨r, rfl, -⟩ := (pathIsBeneathRoot_iff hsys).mp h
    obtain ⟨r', rfl⟩ := hroot.canonical.head
    rfl

theorem Confined.head (h : Confined root path) : path.head? = some '/' := head_of_beneath hroot h.1

theorem Confined.parent (h : Confined root (a ++ '/' :: l)) (hl : '/' ∉ l) (ha : a ≠ [])
    (hne : a ++ '/' :: l ≠ root) : Confined root a := by
  refine ⟨?_, fun hmem => h.2 ?_⟩
  · by_cases hsys : root = ['/']
    · subst hsys
      have hhead := h.head hroot
      rw [pathIsBeneathRoot_system]
      rwa [head?_append_of_ne_nil _ ha] at hhead
    · rw [pathIsBeneathRoot_iff hsys]
      obtain ⟨r, hr, hslash⟩ := (pathIsBeneathRoot_iff hsys).mp h.1
      rcases hslash with rfl | ⟨r', rfl⟩
      · exact absurd (by simpa using hr) hne
      -- the last slash is not inside the root
      rcases append_eq_append_iff.mp hr with ⟨c, rfl, hc⟩ | ⟨c, rfl, hc⟩
      · cases c with
        | nil => exact ⟨[], by simp, .inl rfl⟩
        | cons x c =>
          rw [cons_append, List.cons.injEq] at hc
          exact absurd (hc.2 ▸ by simp) hl
      · cases c with
        | nil => exact ⟨[], by simp, .inl rfl⟩
        | cons x c =>
          rw [cons_append, List.cons.injEq] at hc
          exact ⟨x :: c, rfl, .inr ⟨c, by rw [hc.1]⟩⟩
  · rw [comps_append_slash]
    exact mem_append_left _ hmem

/-- What the end of a buffer leaves of a canonical path is beneath the root if the root is a
beginning of it, or is all that is left. -/
theorem beneath_cut_iff (hcs : Plain cs) :
    pathIsBeneathRoot ((render cs).take k) root = true ↔ Under root cs k := by
  have hpath : Canonical (render cs) := ⟨cs, hcs.names, rfl⟩
  by_cases hsys : root = ['/']
  · obtain ⟨r, hr⟩ := hpath.head
    subst hsys
    rw [pathIsBeneathRoot_system, head?_take, hr, Under, and_iff_left (.inl nil_prefix)]
    simp [Nat.one_le_iff_ne_zero]
  rw [pathIsBeneathRoot_iff hsys]
  have hextends := extends_iff hroot.canonical hpath hsys
  rw [comps_render hcs.names] at hextends
  constructor
  · rintro ⟨r, heq, hr⟩
    have hle : root.length ≤ k := by
      have := congrArg length heq
      rw [length_take, length_append] at this
      omega
    refine ⟨hle, ?_⟩
    rcases hr with rfl | ⟨r', rfl⟩
    · rw [append_nil] at heq
      by_cases hk : k ≤ (render cs).length
      · have := congrArg length heq
        rw [length_take, Nat.min_eq_left hk] at this
        exact .inr ⟨this, heq ▸ take_prefix k _⟩
      · rw [take_of_length_le (by omega)] at heq
        rw [← heq, comps_render hcs.names]
        exact .inl prefix_rfl
    · refine .inl (hextends.mp ⟨'/' :: r' ++ (render cs).drop k, ?_, .inr ⟨_, rfl⟩⟩)
      rw [← append_assoc, ← heq, take_append_drop]
  · rintro ⟨hle, hcs' | ⟨rfl, hroot'⟩⟩
    · exact (hextends.mpr hcs').take hle
    · refine ⟨[], ?_, .inl rfl⟩
      rw [append_nil]
      exact (prefix_iff_eq_take.mp hroot').symm

/-- A cut canonical path. -/
theorem confined_render_iff (hcs : Plain cs) :
    Confined root ((render cs).take k) ↔ Under root cs k ∧ ¬CutDots (render cs) k := by
  have hplain : dotdot ∉ comps (render cs) := by
    rw [comps_render hcs.names]
    exact hcs.not_dotdot
  rw [Confined, ← beneath_cut_iff hroot hcs]
  exact and_congr_right fun h => not_dotdot_of_cut (head_of_beneath hroot h) hplain

variable (hcap : 0 < cap)

include hcap

/-- **A confined path, cut by a buffer**, is confined if the root is kept and no `..` is left at the
end. -/
theorem Confined.cut_iff (h : Confined root s) :
    Confined root (s.take (cap - 1)) ↔ root.length < cap ∧ ¬CutDots s (cap - 1) := by
  have hhead := h.head hroot
  have hpos := hroot.length_pos
  have hbeneath : pathIsBeneathRoot (s.take (cap - 1)) root = true ↔ root.length < cap := by
    refine ⟨fun hb => ?_, fun hlt => ?_⟩
    · have hle := (length_le_of_beneath hb).trans (length_take_le _ _)
      omega
    · by_cases hsys : root = ['/']
      · subst hsys
        rw [length_singleton] at hlt
        rw [pathIsBeneathRoot_system, head?_take, hhead, if_neg (by omega)]
      · exact (pathIsBeneathRoot_iff hsys).mpr
          (((pathIsBeneathRoot_iff hsys).mp h.1).take (by omega))
  unfold Confined
  rw [hbeneath]
  refine and_congr_right fun hlt => not_dotdot_of_cut ?_ h.2
  rw [head?_take, hhead, if_neg (by omega)]

/-! ### Branches -/

theorem resolveRelative_iff (hcwd : Confined root cwd) :
    Confined root (resolveRelative root cwd path cap) ↔ root.length < cap ∧
      (Below root ((joined cwd path).take (cap - 1)) cap →
      Whole ((joined cwd path).take (cap - 1)) cap) := by
  have hjoined : (joined cwd path).head? = some '/' := by
    unfold joined
    split
    · rfl
    · rw [head?_append, hcwd.head hroot]
      rfl
  change Confined root
      (if pathIsBeneathRoot (settle ((joined cwd path).take (cap - 1)) cap) root then
    settle ((joined cwd path).take (cap - 1)) cap else root.take (cap - 1)) ↔ _
  obtain ⟨hcs, heq⟩ := settle_spec hjoined rfl
  rw [heq]
  have hiff := beneath_cut_iff (k := room ((joined cwd path).take (cap - 1)) cap) hroot hcs
  split
  next hbeneath =>
    have hbelow : Below root ((joined cwd path).take (cap - 1)) cap := hiff.mp hbeneath
    have hlt : root.length < cap := (hbelow.1.trans (room_le _ cap)).trans_lt (by omega)
    rw [confined_render_iff hroot hcs, and_iff_right (hiff.mp hbeneath), and_iff_right hlt,
      imp_iff_right hbelow]
    rfl
  next hbeneath =>
    rw [hroot.confined.cut_iff hroot hcap]
    refine and_congr_right fun hlt => iff_of_true ?_ fun h => absurd (hiff.mpr h) hbeneath
    exact not_cutDots (by omega)

theorem resolveAbsolute_iff (hpath : path.head? = some '/') :
    Confined root (resolveAbsolute root path cap) ↔ root.length < cap ∧
      ¬CutDots (render (comps root ++ settled (path.take (PATH_TMP - 1)))) (cap - 1) := by
  obtain ⟨hvs, heq⟩ := virt_spec hpath
  simp only [resolveAbsolute, heq]
  generalize settled (path.take (PATH_TMP - 1)) = vs at hvs
  have hall : Plain (comps root ++ vs) := forall_mem_append.mpr ⟨hroot.plain, hvs⟩
  have hpath : Canonical (render (comps root ++ vs)) := ⟨_, hall.names, rfl⟩
  have hdots : dotdot ∉ comps (render (comps root ++ vs)) := by
    rw [comps_render hall.names]
    exact hall.not_dotdot
  by_cases hsys : root = ['/']
  · subst hsys
    refine Confined.cut_iff hroot hcap ⟨?_, hdots⟩
    obtain ⟨r, hr⟩ : ∃ r, render vs = '/' :: r := hpath.head
    rw [hr]
    rfl
  have hne : comps root ≠ [] := mt (canonical_comps_nil hroot.canonical).mp hsys
  have hbeneath : pathIsBeneathRoot (render (comps root ++ vs)) root = true := by
    rw [pathIsBeneathRoot_iff hsys, extends_iff hroot.canonical hpath hsys, comps_render hall.names]
    exact prefix_append _ _
  rw [← Confined.cut_iff hroot hcap ⟨hbeneath, hdots⟩, if_neg hsys]
  by_cases hnil : vs = []
  · rw [hnil, append_nil, hroot.canonical.render_comps]
    rfl
  · have hvs' : render vs ≠ ['/'] := by
      rw [ne_eq, ← canonical_comps_nil ⟨vs, hvs.names, rfl⟩, comps_render hvs.names]
      exact hnil
    rw [if_neg hvs', render, render, if_neg hnil, if_neg (by simp [hnil]), slashed_append,
      hroot.canonical.slashed_comps hne]

theorem resolveParent_iff (hcwd : Confined root cwd) :
    Confined root (resolveParent root cwd cap) ↔
      root.length < cap ∧ (cwd = root ∨ ∀ a, parentOf cwd = some a → ¬CutDots a (cap - 1)) := by
  have hself : Confined root (root.take (cap - 1)) ↔ root.length < cap := by
    rw [hroot.confined.cut_iff hroot hcap]
    exact and_iff_left_of_imp fun hlt => not_cutDots (by omega)
  unfold resolveParent
  split
  next heq => exact hself.trans (and_iff_left (.inl heq)).symm
  next hne =>
  rw [or_iff_right hne]
  obtain ⟨a, l, rfl, hl⟩ := exists_last_slash (mem_of_mem_head? (hcwd.head hroot))
  rw [parentOf_append hl]
  by_cases ha : a = []
  · rw [if_pos ha]
    exact hself.trans (and_iff_left nofun).symm
  · rw [if_neg ha, (hcwd.parent hroot hl ha hne).cut_iff hroot hcap]
    simp

omit hcap in
/-- **Resolution from a directory descriptor** is confined if moreover the path does not climb out
of the root. -/
theorem resolveBeneath_iff {base : List Char} (hbase : Confined root base) :
    Confined root (resolveBeneath base path cap) ↔
      Below root ((joinedAt base path).take (cap - 1)) cap ∧
      Whole ((joinedAt base path).take (cap - 1)) cap := by
  have hjoined : (joinedAt base path).head? = some '/' := by
    unfold joinedAt
    split <;> rw [head?_append, hbase.head hroot] <;> rfl
  change Confined root (settle ((joinedAt base path).take (cap - 1)) cap) ↔ _
  obtain ⟨hcs, heq⟩ := settle_spec hjoined rfl
  rw [heq]
  exact confined_render_iff hroot hcs

end

/-- **Resolution from the working directory is confined**, up to what the buffer cuts. -/
theorem resolveKernelPath_iff (hroot : IsRoot (taskFsRoot t))
    (hcwd : Confined (taskFsRoot t) (taskCwd t)) (hcap : 0 < cap) (hpath : path ≠ []) :
    Confined (taskFsRoot t) (resolveKernelPath t path cap) ↔
      Fits (taskFsRoot t) (taskCwd t) path cap := by
  simp only [resolveKernelPath, Fits]
  rw [if_neg hpath]
  split
  next habs => exact confined_withAlias.trans (resolveAbsolute_iff hroot hcap habs)
  · split
    · exact hcwd.cut_iff hroot hcap
    · split
      · exact resolveParent_iff hroot hcap hcwd
      · exact confined_withAlias.trans (resolveRelative_iff hroot hcap hcwd)

/-! ## The three calls -/

/-- A call that returns 0 has resolved from the working directory, or from a directory
descriptor. -/
theorem resolveUserPathAt_cases {dirfd : Int} (harg : arg.read = .ok path)
    (hret : (resolveUserPathAt t dirfd arg cap).1 = 0) : path ≠ [] ∧
    if path.head? = some '/' ∨ dirfd = AT_FDCWD then
      resolveUserPathAt t dirfd arg cap = (0, resolveKernelPath t path cap)
    else ∃ f, t.fds dirfd = some f ∧
      resolveUserPathAt t dirfd arg cap = (0, resolveBeneath (f.path.getD ['/']) path cap) := by
  unfold resolveUserPathAt at hret ⊢
  rw [harg] at hret ⊢
  dsimp only at hret ⊢
  split at hret
  · exact absurd hret (by decide)
  next hpath =>
  refine ⟨hpath, ?_⟩
  rw [if_neg hpath]
  split at hret
  next hcase => rw [if_pos hcase, if_pos hcase]
  next hcase =>
  rw [if_neg hcase, if_neg hcase]
  split at hret
  · exact absurd hret (by decide)
  next hrange =>
  rw [if_neg hrange]
  split at hret
  · exact absurd hret (by decide)
  next f hf =>
  split at hret
  · exact absurd hret (by decide)
  next hisdir => exact ⟨f, hf, if_neg hisdir⟩

/-- A process with the root `/j` and the directory `/j/d` open as descriptor 3. -/
def jailed : Task where
  processRoot := ['/', 'j']
  threadRoot := []
  cwd := ['/', 'j']
  fds fd := if fd = 3 then some ⟨true, some ['/', 'j', '/', 'd']⟩ else none

end AxonOS.Fs

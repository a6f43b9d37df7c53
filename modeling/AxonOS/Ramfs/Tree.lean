import AxonOS.Lib.Path
import AxonOS.Lib.RootedTree

/-! # The tree of `ramfs.c`

Nodes on a heap, with the sibling list of a directory as a list of pointers. A pointer is never used
twice, so that a pointer to a freed node stays visible as one: its place on the heap is empty.

Every function returns the source's code. `mem k` says whether the `k`-th allocation of a call
succeeds, in the order of the source, where a lookup counts as one and the pieces of one object as
one. Inode numbers, times, extended attributes and the page cache are left out, as no function here
decides anything by them.
-/

namespace AxonOS.Ramfs.Tree

open Lib

abbrev Ptr := Nat
abbrev Name := List Char

/-! ## Nodes -/

/-- What a node is, by `is_dir`, the type bits of `mode` and `link_target`. -/
inductive Body where
  | dir (children : List Ptr)
  | reg (data : List UInt8)
  | lnk (target : List Char)
  | link (target : Ptr)
  deriving DecidableEq

/-- `perm` are the bits 07777 of `mode`. -/
structure Node where
  name : Name
  body : Body
  perm : Nat
  uid : Nat
  gid : Nat
  nlink : Nat
  openCount : Nat
  parent : Option Ptr
  deriving DecidableEq

structure Fs where
  nodes : Ptr → Option Node
  fresh : Ptr

/-- `ramfs_root`. -/
def ROOT : Ptr := 0

/-- The guard of the walks through a sibling list. -/
def GUARD : Nat := 65536

/-- The longest name `comp[256]` holds. -/
def NAME_CAP : Nat := 255

def MAX_DEPTH : Nat := 16

/-- Nodes that `stack[64]` of `ramfs_remove` holds. -/
def STACK_CAP : Nat := 64

def COUNT_LIMIT : Nat := 2 ^ 32

namespace Node

def isDir (n : Node) : Bool :=
  match n.body with
  | .dir _ => true
  | _ => false

def children (n : Node) : List Ptr :=
  match n.body with
  | .dir cs => cs
  | _ => []

def linkTarget (n : Node) : Option Ptr :=
  match n.body with
  | .link t => some t
  | _ => none

def symlink (n : Node) : Option (List Char) :=
  match n.body with
  | .lnk t => some t
  | _ => none

def addChild (c : Ptr) (n : Node) : Node :=
  match n.body with
  | .dir cs => { n with body := .dir (c :: cs) }
  | _ => n

def dropChild (c : Ptr) (n : Node) : Node :=
  match n.body with
  | .dir cs => { n with body := .dir (cs.erase c) }
  | _ => n

end Node

namespace Fs

variable (s : Fs)

def isDir (p : Ptr) : Bool := (s.nodes p).any Node.isDir

def children (p : Ptr) : List Ptr := ((s.nodes p).map Node.children).getD []

def parent (p : Ptr) : Option Ptr := (s.nodes p).bind Node.parent

def nameOf (p : Ptr) : Option Name := (s.nodes p).map Node.name

def symlink (p : Ptr) : Option (List Char) := (s.nodes p).bind Node.symlink

def linkTarget (p : Ptr) : Option Ptr := (s.nodes p).bind Node.linkTarget

def modify (p : Ptr) (f : Node → Node) : Fs :=
  { s with nodes := fun q => if q = p then (s.nodes q).map f else s.nodes q }

def free (p : Ptr) : Fs := { s with nodes := fun q => if q = p then none else s.nodes q }

/-- A new node, inserted at the head of the children of `p`. -/
def attach (p : Ptr) (n : Node) : Fs where
  nodes := fun q =>
    if q = s.fresh then some { n with parent := some p }
    else if q = p then (s.nodes q).map (Node.addChild s.fresh)
    else s.nodes q
  fresh := s.fresh + 1

end Fs

/-! ## Credentials -/

/-- What the functions read of a thread. -/
structure Thread where
  euid : Nat
  egid : Nat
  groups : List Nat
  umask : Nat

structure Cred where
  user : Option Thread
  current : Option Thread

def ramfsCred (ct : Cred) : Option Thread := ct.user.orElse fun _ => ct.current

def ramfsSetCreateOwner (ct : Cred) (n : Node) : Node :=
  match ramfsCred ct with
  | some t => { n with uid := t.euid, gid := t.egid }
  | none => n

/-- `base & 07777 & ~umask`. -/
def maskedPerm (base umask : Nat) : Nat := base &&& 0o7777 &&& (0o7777 ^^^ (umask &&& 0o7777))

def ramfsApplyUmaskMode (ct : Cred) (base : Nat) (n : Node) : Node :=
  match ct.user with
  | none => n
  | some _ => { n with perm := maskedPerm base (((ramfsCred ct).map Thread.umask).getD 0o022) }

def ramfsInGroup (t : Thread) (gid : Nat) : Bool := t.egid = gid || t.groups.contains gid

def ramfsDirWritable (dir : Node) (t : Thread) : Bool :=
  t.euid = 0 || (t.euid = dir.uid && dir.perm &&& 0o200 ≠ 0) ||
    (ramfsInGroup t dir.gid && dir.perm &&& 0o020 ≠ 0) || dir.perm &&& 0o002 ≠ 0

/-- Write permission on the parent, and the sticky bit. -/
def ramfsMayUnlinkNode (parent n : Node) (t : Thread) : Bool :=
  ramfsDirWritable parent t &&
    !(parent.perm &&& 0o1000 ≠ 0 && t.euid ≠ 0 && t.euid ≠ n.uid && t.euid ≠ parent.uid)

/-! ## Lookup -/

def dot : Name := ['.']
def dotdot : Name := ['.', '.']

/-- The first of the entries before the guard with that name. -/
def ramfsFindChild (s : Fs) (p : Ptr) (name : Name) : Option Ptr :=
  ((s.children p).take GUARD).find? fun c => decide (s.nameOf c = some name)

def ramfsResolveLink (s : Fs) (p : Ptr) : Ptr := (s.linkTarget p).getD p

/-- The names from the root, or from the 64th ancestor, down to a node. -/
def namesUp (s : Fs) : Nat → Ptr → Option (List Name)
  | 0, _ => some []
  | k + 1, p =>
    if p = ROOT then some []
    else
      match s.nodes p with
      | none => none
      | some n => n.parent.bind fun q => (namesUp s k q).map (· ++ [n.name])

/-- `ramfs_build_path`, as the components of the path; `parentbuf` has 2048 bytes. -/
def ramfsBuildPath (s : Fs) (p : Ptr) : Option (List Name) :=
  (namesUp s 64 p).filter fun names =>
    decide ((names.map List.length).sum + names.length + 1 < 2048)

/-- The components of the path a symlink is replaced by, with the rest behind it. -/
def redirect (s : Fs) (child : Ptr) (target : List Char) (rest : List Name) : Option (List Name) :=
  if target.head? = some '/' then some (comps target ++ rest)
  else (ramfsBuildPath s ((s.parent child).getD ROOT)).map (· ++ comps target ++ rest)

/-- How a pass over a path ends. -/
inductive Walk where
  | found (p : Ptr)
  | missing
  | restart (cs : List Name)
  deriving DecidableEq

/-- One pass of `ramfs_lookup` (`follow`) or `ramfs_lookup_nofollow_impl` over the components of the
path. -/
def walk (s : Fs) (follow : Bool) : Ptr → List Name → Walk
  | cur, [] => .found cur
  | cur, c :: cs =>
    if s.isDir cur = false then .missing
    else if c.take NAME_CAP = dot then walk s follow cur cs
    else if c.take NAME_CAP = dotdot then walk s follow ((s.parent cur).getD ROOT) cs
    else
      match ramfsFindChild s cur (c.take NAME_CAP) with
      | none => .missing
      | some child =>
        match s.symlink child with
        | none => walk s follow child cs
        | some target =>
          -- the last component stays unfollowed
          if follow = false ∧ cs = [] then .found child
          else
            match redirect s child target cs with
            | none => .missing
            | some cs' => .restart cs'

def resolve (s : Fs) (follow : Bool) : Nat → List Name → Option Ptr
  | 0, _ => none
  | k + 1, cs =>
    match walk s follow ROOT cs with
    | .found p => some p
    | .missing => none
    | .restart cs' => resolve s follow k cs'

def ramfsLookupNofollow (s : Fs) (mem : Bool) (path : List Char) : Option Ptr :=
  if path = ['/'] then some ROOT
  else if path.head? ≠ some '/' ∨ mem = false then none
  else resolve s false MAX_DEPTH (comps path)

def ramfsLookup (s : Fs) (mem : Bool) (path : List Char) : Option Ptr :=
  if path = ['/'] then some ROOT
  else if path.head? ≠ some '/' ∨ mem = false then none
  else (resolve s true MAX_DEPTH (comps path)).map (ramfsResolveLink s)

/-! ## Creating -/

/-- What follows the last slash. -/
def lastName (path : List Char) : Name := (path.reverse.takeWhile (· ≠ '/')).reverse

/-- What stands before the last slash; `"/"` if that is the first character. -/
def parentPath (path : List Char) : List Char :=
  match ((path.reverse.dropWhile (· ≠ '/')).drop 1).reverse with
  | [] => ['/']
  | d => d

def ramfsAllocNode (name : Name) (body : Body) : Node :=
  let isDir := match body with
    | .dir _ => true
    | _ => false
  ⟨name, body, if isDir then 0o755 else 0o644, 0, 0, if isDir then 2 else 1, 0, none⟩

/-- The directory a new name goes to; the error is the source's code. -/
def newPlace (s : Fs) (mem : Bool) (path : List Char) : Except Int Ptr :=
  if lastName path = [] then .error (-3)
  else
    match ramfsLookup s mem (parentPath path) with
    | none => .error (-2)
    | some p => if s.isDir p then .ok p else .error (-3)

/-- A new file and a handle on it. -/
def ramfsCreate (s : Fs) (ct : Cred) (mem : Nat → Bool) (path : List Char) :
    Int × Option Ptr × Fs :=
  if path.head? ≠ some '/' then (-1, none, s)
  else if mem 0 = false then (-2, none, s)
  else
    match newPlace s (mem 1) path with
    | .error e => (e, none, s)
    | .ok p =>
      if (ramfsFindChild s p (lastName path)).isSome then (-4, none, s)
      else if mem 2 = false then (-5, none, s)
      -- without the handle the node is taken out again
      else if mem 3 = false then (-6, none, s)
      else
        let n := ramfsApplyUmaskMode ct 0o666
          (ramfsSetCreateOwner ct (ramfsAllocNode (lastName path) (.reg [])))
        (0, some s.fresh, s.attach p { n with openCount := 1 })

/-- One slash at the end is cut off. -/
def cutSlash (path : List Char) : List Char :=
  if 1 < path.length ∧ path.getLast? = some '/' then path.dropLast else path

def ramfsMkdir (s : Fs) (ct : Cred) (mem : Nat → Bool) (path : List Char) : Int × Fs :=
  if path.head? ≠ some '/' then (-1, s)
  else if mem 0 = false then (-2, s)
  else
    match newPlace s (mem 1) (cutSlash path) with
    | .error e => (e, s)
    | .ok p =>
      if (ramfsFindChild s p (lastName (cutSlash path))).isSome then (-4, s)
      else if mem 2 = false then (-5, s)
      else
        (0, s.attach p (ramfsApplyUmaskMode ct 0o777
          (ramfsSetCreateOwner ct (ramfsAllocNode (lastName (cutSlash path)) (.dir [])))))

def ramfsSymlink (s : Fs) (ct : Cred) (mem : Nat → Bool) (path target : List Char) : Int × Fs :=
  if path.head? ≠ some '/' then (-1, s)
  else if mem 0 = false then (-2, s)
  else
    match newPlace s (mem 1) path with
    | .error e => (e, s)
    | .ok p =>
      if (ramfsFindChild s p (lastName path)).isSome then (-4, s)
      else if mem 2 = false then (-5, s)
      else if mem 3 = false then (-6, s)
      else
        let n := ramfsAllocNode (lastName path) (.lnk target)
        (0, s.attach p (ramfsSetCreateOwner ct { n with perm := 0o777 }))

/-- Another name for the file `target`. -/
def ramfsLinkInode (s : Fs) (mem : Nat → Bool) (target : Ptr) (newpath : List Char) : Int × Fs :=
  if newpath.head? ≠ some '/' then (-1, s)
  else if s.isDir target then (-1, s)
  else
    let target := ramfsResolveLink s target
    if mem 1 = false then (-5, s)
    else
      match newPlace s (mem 2) newpath with
      | .error e => (e, s)
      | .ok p =>
        if mem 3 = false then (-5, s)
        else if (ramfsFindChild s p (lastName newpath)).isSome then (-17, s)
        else
          (0, (s.attach p ⟨lastName newpath, .link target, 0, 0, 0, 0, 0, none⟩).modify target
            fun n => { n with nlink := (n.nlink + 1) % COUNT_LIMIT })

def ramfsLink (s : Fs) (mem : Nat → Bool) (oldpath newpath : List Char) : Int × Fs :=
  if oldpath.head? ≠ some '/' ∨ newpath.head? ≠ some '/' then (-1, s)
  else
    match ramfsLookup s (mem 0) oldpath with
    | none => (-2, s)
    | some target => ramfsLinkInode s mem target newpath

/-! ## Handles -/

structure Handle where
  node : Ptr
  isDir : Bool
  deriving DecidableEq

def ramfsLinkOpenFile (s : Fs) (mem : Nat → Bool) (file : Handle) (newpath : List Char) :
    Int × Fs :=
  if newpath.head? ≠ some '/' then (-1, s)
  else if file.isDir then (-1, s)
  else ramfsLinkInode s mem file.node newpath

def ramfsOpen (s : Fs) (mem : Nat → Bool) (path : List Char) : Int × Option Handle × Fs :=
  match ramfsLookupNofollow s (mem 0) path with
  | none => (-1, none, s)
  | some n =>
    let n := ramfsResolveLink s n
    if mem 1 = false then (-2, none, s)
    else
      (0, some ⟨n, s.isDir n⟩,
        s.modify n fun m => { m with openCount := (m.openCount + 1) % COUNT_LIMIT })

/-- Take a node out of its parent's list; behind the guard it is not found. -/
def ramfsUnlinkFromParent (s : Fs) (n : Ptr) : Fs :=
  match s.parent n with
  | none => s
  | some p =>
    if n ∈ (s.children p).take GUARD then
      (s.modify p (Node.dropChild n)).modify n fun m => { m with parent := none }
    else s

/-- A file that has no name and is not open is freed. -/
def ramfsMaybeFreeInode (s : Fs) (n : Ptr) : Fs :=
  match s.nodes n with
  | none => s
  | some m =>
    if m.isDir ∨ 0 < m.nlink ∨ 0 < m.openCount then s
    else (ramfsUnlinkFromParent s n).free n

def ramfsRelease (s : Fs) (file : Handle) : Fs :=
  ramfsMaybeFreeInode
    (s.modify file.node fun m => { m with openCount := m.openCount - 1 }) file.node

/-! ## Removing and renaming -/

/-- The loop that frees a directory: `stack` with its top first. A child that finds the stack full
is not pushed. -/
def freeLoop : Nat → List Ptr → Fs → Fs
  | 0, _, s => s
  | _ + 1, [], s => s
  | k + 1, cur :: stack, s =>
    let pushed := ((s.children cur).take GUARD).take (STACK_CAP - stack.length)
    freeLoop k (pushed.reverse ++ stack) (s.free cur)

/-- What is done with the node found by `ramfs_remove`. -/
def removeNode (s : Fs) (n : Ptr) : Fs :=
  match s.linkTarget n with
  | some target =>
    let s := ((ramfsUnlinkFromParent s n).free n).modify target fun m =>
      { m with nlink := m.nlink - 1 }
    if (s.nodes target).any fun m => m.nlink = 0 then ramfsMaybeFreeInode s target else s
  | none =>
    let s := (ramfsUnlinkFromParent s n).modify n fun m => { m with nlink := m.nlink - 1 }
    if s.isDir n then freeLoop s.fresh [n] s else ramfsMaybeFreeInode s n

def ramfsRemove (s : Fs) (ct : Cred) (mem : Bool) (path : List Char) : Int × Fs :=
  if path = ['/'] then (-2, s)
  else
    match ramfsLookupNofollow s mem path with
    | none => (-3, s)
    | some n =>
      match s.parent n with
      | none => (-4, s)
      | some p =>
        match ramfsCred ct, s.nodes p, s.nodes n with
        | some t, some pn, some m =>
          if ramfsMayUnlinkNode pn m t then (0, removeNode s n) else (-1, s)
        | _, _, _ => (0, removeNode s n)

/-- The last part of `ramfs_rename`: out of the old directory and, under the new name, into the
other one. -/
def moveNode (s : Fs) (o p : Ptr) (name : Name) : Fs :=
  let s := ramfsUnlinkFromParent s o
  (s.modify o fun n => { n with name := name, parent := some p }).modify p (Node.addChild o)

def ramfsRename (s : Fs) (ct : Cred) (mem : Nat → Bool) (oldpath newpath : List Char) : Int × Fs :=
  if oldpath.head? ≠ some '/' ∨ newpath.head? ≠ some '/' then (-1, s)
  else if oldpath = newpath then (0, s)
  else
    match ramfsLookupNofollow s (mem 0) oldpath with
    | none => (-2, s)
    | some o =>
      if mem 1 = false then (-5, s)
      else
        match newPlace s (mem 2) newpath with
        | .error e => (e, s)
        | .ok p =>
          let existing := ramfsFindChild s p (lastName newpath)
          let r := if existing.any (· ≠ o) then ramfsRemove s ct (mem 3) newpath else (0, s)
          if r.1 ≠ 0 then r
          else if mem 4 = false then
            -- the old name is freed, and the node is in no directory
            (-5, (ramfsUnlinkFromParent r.2 o).modify o fun n => { n with name := [] })
          else (0, moveNode r.2 o p (lastName newpath))

/-! ## Registration -/

def bare : Fs where
  nodes := fun p => if p = ROOT then some (ramfsAllocNode [] (.dir [])) else none
  fresh := 1

/-- `ramfs_register`: the root, and `/dev` in it. -/
def ramfsRegister : Fs := (ramfsMkdir bare ⟨none, none⟩ (fun _ => true) "/dev".toList).2

end AxonOS.Ramfs.Tree

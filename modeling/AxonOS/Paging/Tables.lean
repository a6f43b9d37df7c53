import AxonOS.Paging.Entry
import AxonOS.Lib.Exec

/-! # The page-table code

The functions of `mm.c` and `user_map.c` that read and write the tables of one address space, as
programs over the state they can reach. A table is named by its page number; the walks of the source
cast `entry & ~0xFFF` to a pointer, so an entry with a bit above its address, `PG_NX` included,
leads to a page that is not mapped, and reading through it is a fault.

`alloc_pt_page` and `frame_alloc` take their pages from two lists of what the allocators will
return.
-/

namespace AxonOS.Paging

open Lib

/-! ## The state -/

/-- Why a function stops: it returns a negative value, or the processor faults. -/
inductive Stop where
  | ret (code : Int)
  | fault
  deriving DecidableEq, Repr

/-- The page-table pages by page number, `mm->allocs`, what the next calls of `alloc_pt_page` get,
the reference counts of the frames, what the next calls of `frame_alloc` get, and the bytes of the
frames. -/
structure PtState where
  mem : Nat → Nat → Pte
  allocs : List Nat
  pool : List (Option Nat)
  refs : Nat → Nat
  frames : List (Option Nat)
  data : Nat → Nat → Nat

abbrev PtM := EStateM Stop PtState

def PtState.setEntry (s : PtState) (t i : Nat) (e : Pte) : PtState :=
  { s with mem := fun t' i' => if t' = t ∧ i' = i then e else s.mem t' i' }

def PtState.setTable (s : PtState) (t : Nat) (entries : Nat → Pte) : PtState :=
  { s with mem := fun t' i' => if t' = t then entries i' else s.mem t' i' }

def PtState.setRefs (s : PtState) (pfn n : Nat) : PtState :=
  { s with refs := fun k => if k = pfn then n else s.refs k }

def PtState.setPage (s : PtState) (pfn : Nat) (bytes : Nat → Nat) : PtState :=
  { s with data := fun k => if k = pfn then bytes else s.data k }

/-- `if (c) return code;` -/
def failIf (c : Bool) (code : Int) : PtM Unit := if c then throw (.ret code) else pure ()

/-- `if (c) f();` -/
def doIf (c : Bool) (x : PtM Unit) : PtM Unit := if c then x else pure ()

/-- `if (f() != 0) return code;` -/
def orReturn {α : Type} (x : PtM α) (code : Int) : PtM α :=
  tryCatch x fun e => throw (match e with | .ret _ => .ret code | .fault => .fault)

def readEntry (t i : Nat) : PtM Pte := do
  if t < 2 ^ 20 then
    let s ← get
    pure (s.mem t i)
  else throw .fault

def writeEntry (t i : Nat) (e : Pte) : PtM Unit := do
  if t < 2 ^ 20 then modify fun s => s.setEntry t i e else throw .fault

/-! ## Allocation -/

/-- `alloc_pt_page`, with the value the caller returns when it fails. -/
def allocPtPage (code : Int) : PtM Nat := do
  let s ← get
  match s.pool with
  | some p :: rest =>
    set { s.setTable p (fun _ => {}) with allocs := p :: s.allocs, pool := rest }
    pure p
  | none :: rest =>
    set { s with pool := rest }
    throw (.ret code)
  | [] => throw (.ret code)

def dupPtPage (src : Nat) (code : Int) : PtM Nat := do
  failIf (decide (2 ^ 20 ≤ src)) code
  let dst ← allocPtPage code
  modify fun s => s.setTable dst (s.mem src)
  pure dst

def mmOwnsPtPage (pt : Nat) : PtM Bool := do
  let s ← get
  pure (s.allocs.contains pt)

def frameAlloc : PtM (Option Nat) := do
  let s ← get
  match s.frames with
  | some p :: rest =>
    set { s.setRefs p 1 with frames := rest }
    pure (some p)
  | none :: rest =>
    set { s with frames := rest }
    pure none
  | [] => pure none

def frameRelease (pfn : Nat) : PtM Unit := modify fun s => s.setRefs pfn (s.refs pfn - 1)

def frameReleaseAll : List Nat → PtM Unit
  | [] => pure ()
  | p :: rest => do
      frameRelease p
      frameReleaseAll rest

/-- The loop of `mm_user_frame_alloc_avoid_va`: at most `n` more tries, with the pages `hold` put
aside. -/
def allocAvoidLoop (vpn : Nat) : Nat → List Nat → PtM (Option Nat × List Nat)
  | 0, hold => pure (none, hold)
  | n + 1, hold => do
      match ← frameAlloc with
      | none => pure (none, hold)
      | some p => if p ≠ vpn then pure (some p, hold) else allocAvoidLoop vpn n (p :: hold)

def mmUserFrameAllocAvoidVa (vpn : Nat) : PtM (Option Nat) := do
  let r ← allocAvoidLoop vpn 8 []
  frameReleaseAll r.2
  pure r.1

/-! ## Splitting large leaves -/

/-- The flags that the 4 KiB leaves take over from a 2 MiB leaf. -/
def Flags.keep2m (f : Flags) (vpn : Nat) : Flags :=
  { f with
    us := f.us || decide (0x200 ≤ vpn ∧ vpn < 2 ^ 20)
    accessed := false, dirty := false, ps := false, reserved := false, owned := false, avail := 0 }

/-- The 4 KiB leaf number `i` of a 2 MiB leaf. -/
def slice2m (e : Pte) (vpn i : Nat) : Pte := ⟨e.toFlags.keep2m vpn, e.pfn / 512 * 512 + i⟩

def split2mTo4k (l2 l2i vpn : Nat) (code : Int) : PtM Unit := do
  let ent2 ← readEntry l2 l2i
  if !ent2.present || !ent2.ps then pure ()
  else
    let l1 ← allocPtPage code
    modify fun s => s.setTable l1 (slice2m ent2 vpn)
    writeEntry l2 l2i ⟨ent2.toFlags.keep2m vpn, l1⟩

/-- The flags that the 2 MiB leaves take over from a 1 GiB leaf, without `PG_PS_2M`. -/
def Flags.keep1g (f : Flags) : Flags :=
  { f with
    accessed := false, dirty := false, ps := false, reserved := false, cow := false, owned := false,
    avail := 0 }

/-- The 2 MiB leaf number `i` of a 1 GiB leaf. -/
def slice1g (e : Pte) (i : Nat) : Pte :=
  ⟨{ e.toFlags.keep1g with ps := true }, e.pfn / 2 ^ 18 * 2 ^ 18 + i * 512⟩

def splitL31gToL2 (l3 l3i : Nat) (code : Int) : PtM Unit := do
  let ent3 ← readEntry l3 l3i
  if !ent3.present || !ent3.ps then pure ()
  else
    let l2 ← allocPtPage code
    modify fun s => s.setTable l2 (slice1g ent3)
    writeEntry l3 l3i ⟨ent3.toFlags.keep1g, l2⟩

/-! ## Walks -/

/-- `mm_va_leaf_pa`. The offset in a 1 GiB leaf is cut to 22 bits. -/
def mmVaLeafPa (pml4 vpn : Nat) : PtM (Option Nat) := do
  if 2 ^ 20 ≤ vpn then pure none
  else
    let e4 ← readEntry pml4 (ix 4 vpn)
    if !e4.present || e4.ps || !ptPagePaOk e4 then pure none
    else
      let e3 ← readEntry e4.ptr (ix 3 vpn)
      if !e3.present then pure none
      else if e3.ps then pure (some (e3.pfn / 2 ^ 18 * 2 ^ 18 + vpn % 2 ^ 10))
      else if !ptPagePaOk e3 then pure none
      else
        let e2 ← readEntry e3.ptr (ix 2 vpn)
        if !e2.present || !ptPagePaOk e2 then pure none
        else if e2.ps then pure (some (leafPfn 2 e2 vpn))
        else
          let e1 ← readEntry e2.ptr (ix 1 vpn)
          if !e1.present || !ptPagePaOk e1 then pure none else pure (some e1.pfn)

/-- `mm_va_leaf_entry_direct`: the entry of the leaf of any size. -/
def mmVaLeafEntryDirect (pml4 vpn : Nat) : PtM (Option Pte) := do
  if 2 ^ 20 ≤ vpn then pure none
  else
    let e4 ← readEntry pml4 (ix 4 vpn)
    if !e4.present || e4.ps || !ptPagePaOk e4 then pure none
    else
      let e3 ← readEntry e4.ptr (ix 3 vpn)
      if !e3.present then pure none
      else if e3.ps then pure (some e3)
      else if !ptPagePaOk e3 then pure none
      else
        let e2 ← readEntry e3.ptr (ix 2 vpn)
        if !e2.present then pure none
        else if e2.ps then pure (some e2)
        else if !ptPagePaOk e2 then pure none
        else
          let e1 ← readEntry e2.ptr (ix 1 vpn)
          if !e1.present then pure none else pure (some e1)

/-- The test of one level in `mm_user_leaf_pa_direct`. -/
def userOk (e : Pte) (write : Bool) : Bool := e.present && e.us && (!write || e.rw)

/-- `mm_user_leaf_pa_direct`, for the page. -/
def mmUserLeafPaDirect (pml4 vpn : Nat) (write : Bool) : PtM (Option Nat) := do
  if 2 ^ 20 ≤ vpn then pure none
  else
    let e4 ← readEntry pml4 (ix 4 vpn)
    if !userOk e4 write || !ptPagePaOk e4 then pure none
    else
      let e3 ← readEntry e4.ptr (ix 3 vpn)
      if !userOk e3 write then pure none
      else if e3.ps then pure (some (leafPfn 3 e3 vpn))
      else if !ptPagePaOk e3 then pure none
      else
        let e2 ← readEntry e3.ptr (ix 2 vpn)
        if !userOk e2 write then pure none
        else if e2.ps then pure (some (leafPfn 2 e2 vpn))
        else if !ptPagePaOk e2 then pure none
        else
          let e1 ← readEntry e2.ptr (ix 1 vpn)
          if !userOk e1 write then pure none else pure (some e1.pfn)

/-! ## `mm_map_user_page` -/

/-- The values one level of `mm_map_user_page_locked` returns when the allocation, the check of the
entry and the copy fail. -/
structure MapCodes where
  alloc : Int
  bad : Int
  dup : Int

/-- One level of `mm_map_user_page_locked`: the table below the entry `t[i]`, which is made if there
is none, split off a large leaf, or copied if the address space does not own it. -/
def mapLevel (t i : Nat) (split : PtM Unit) (codes : MapCodes) : PtM Nat := do
  let e ← readEntry t i
  doIf (e.present && e.ps) split
  let e ← readEntry t i
  if !e.present then
    let l ← allocPtPage codes.alloc
    writeEntry t i ⟨.user, l⟩
    pure l
  else
    failIf (!ptPagePaOk e) codes.bad
    let owned ← mmOwnsPtPage e.pfn
    let l ← (if owned then pure e.pfn
      else do
        let l ← dupPtPage e.pfn codes.dup
        writeEntry t i ⟨e.toFlags.low, l⟩
        pure l)
    let e ← readEntry t i
    writeEntry t i (e.widen true true true)
    pure l

/-- The three levels of `mm_map_user_page_locked`: the level-1 table of a page. -/
def mapTables (pml4 vpn : Nat) : PtM Nat := do
  let l3 ← mapLevel pml4 (ix 4 vpn) (pure ()) ⟨-3, -4, -5⟩
  let l2 ← mapLevel l3 (ix 3 vpn) (splitL31gToL2 l3 (ix 3 vpn) (-6)) ⟨-7, -8, -9⟩
  mapLevel l2 (ix 2 vpn) (split2mTo4k l2 (ix 2 vpn) vpn (-10)) ⟨-11, -12, -13⟩

/-- `mm_map_user_page_locked`. -/
def mmMapUserPage (swapper pml4 va pa : Nat) (flags : Flags) : PtM Unit := do
  failIf (decide (pml4 = swapper)) (-1)
  failIf (decide (AxonOS.Arch.MMIO_IDENTITY_LIMIT ≤ va)) (-2)
  failIf (decide (pa % 4096 ≠ 0 ∨ 2 ^ 52 ≤ pa)) (-2)
  failIf (flags.owned && decide (AxonOS.Arch.MMIO_IDENTITY_LIMIT ≤ pa)) (-2)
  let vpn := va / 4096
  let l1 ← mapTables pml4 vpn
  let old ← readEntry l1 (ix 1 vpn)
  writeEntry l1 (ix 1 vpn) ⟨{ flags with present := true, us := true, ps := false }, pa / 4096⟩
  doIf (old.owned && decide (old.pfn ≠ pa / 4096)) (frameRelease old.pfn)

/-! ## `mm_map_4k_sharedaware` -/

/-- A copy of the table that `t[i] = e` leads to takes its place. -/
def replaceByCopy (t i : Nat) (e : Pte) (code : Int) : PtM Nat := do
  let n ← dupPtPage e.ptr code
  writeEntry t i ⟨e.toFlags.low, n⟩
  pure n

/-- The table below `t[i] = e`, or a copy of it if the condition holds. -/
def copyIf (c : Bool) (t i : Nat) (e : Pte) : PtM Nat :=
  if c then replaceByCopy t i e (-1) else pure e.ptr

/-- The level-3 table, exclusive with respect to the two entries given. -/
def sharedawareL3 (pml4 i4 : Nat) (se4 ke4 : Pte) : PtM Nat := do
  let ent4 ← readEntry pml4 i4
  if ent4.present then
    failIf (!ptPagePaOk ent4) (-1)
    copyIf (mmPteSamePtPage ent4 se4 || mmPteSamePtPage ent4 ke4) pml4 i4 ent4
  else
    let l3 ← allocPtPage (-1)
    writeEntry pml4 i4 ⟨.user, l3⟩
    pure l3

/-- The level-2 table before the second look at the baseline. -/
def sharedawareL2 (l3 i3 : Nat) (se3 ke3 : Pte) : PtM Nat := do
  let ent3 ← readEntry l3 i3
  doIf (ent3.present && ent3.ps) (splitL31gToL2 l3 i3 (-1))
  let ent3 ← readEntry l3 i3
  failIf ent3.ps (-1)
  if ent3.present then
    failIf (!ptPagePaOk ent3) (-1)
    copyIf (mmPteSamePtPage ent3 se3 || mmPteSamePtPage ent3 ke3) l3 i3 ent3
  else
    let l2 ← allocPtPage (-1)
    writeEntry l3 i3 ⟨.user, l2⟩
    pure l2

/-- The level-1 table: always one that the address space owns. -/
def sharedawareL1 (l2 i2 : Nat) (shareL2 swapperL2 : Option Nat) (se2 ke2 : Pte) : PtM Nat := do
  let ce2 ← readEntry l2 i2
  if !ce2.present then
    let l1 ← allocPtPage (-1)
    writeEntry l2 i2 ⟨.user, l1⟩
    pure l1
  else
    failIf (!ptPagePaOk ce2) (-1)
    failIf ce2.ps (-1)
    let shareL1 := if shareL2.isSome && leads se2 then some se2.ptr else none
    let swapperL1 := if swapperL2.isSome && leads ke2 then some ke2.ptr else none
    let owned ← mmOwnsPtPage ce2.ptr
    let l1 ← copyIf (!owned || shareL1 == some ce2.ptr || swapperL1 == some ce2.ptr ||
      mmPteSamePtPage ce2 se2 || mmPteSamePtPage ce2 ke2) l2 i2 ce2
    let owned ← mmOwnsPtPage l1
    let ce2 ← readEntry l2 i2
    failIf (!owned || shareL1 == some l1 || swapperL1 == some l1 ||
      mmPteSamePtPage ce2 se2 || mmPteSamePtPage ce2 ke2) (-1)
    pure l1

/-- The leaf that `mm_map_4k_sharedaware_body` stores. -/
def sharedawareLeaf (vpn pfn : Nat) (flags : Flags) : Pte :=
  ⟨{ flags with
      present := true
      us := flags.us || decide (0x200 ≤ vpn ∧ vpn < 2 ^ 20)
      ps := false
      rw := flags.rw && !flags.cow }, pfn⟩

/-- `entry |= PG_US`, and `PG_RW` if the leaf is writable. -/
def widenEntry (t i : Nat) (rw : Bool) : PtM Unit := do
  let e ← readEntry t i
  writeEntry t i (e.widen false rw true)

/-- `c ? t[i] : 0`. -/
def readIf (c : Bool) (t i : Nat) : PtM Pte := if c then readEntry t i else pure {}

def readOpt (t : Option Nat) (i : Nat) : PtM Pte :=
  match t with
  | some t => readEntry t i
  | none => pure {}

/-- The tables of a page. -/
structure PageTables where
  l3 : Nat
  l2 : Nat
  l1 : Nat

/-- The tables that `mm_map_4k_sharedaware_body` makes exclusive before it maps the page. -/
def sharedawareTables (swapper pml4 shareL4 vpn : Nat) : PtM PageTables := do
  let se4 ← readEntry shareL4 (ix 4 vpn)
  failIf (!se4.present || !ptPagePaOk se4) (-1)
  let ke4 ← readEntry swapper (ix 4 vpn)
  let ke4 : Pte := if ke4.present then ke4 else {}
  let l3 ← sharedawareL3 pml4 (ix 4 vpn) se4 ke4
  let se3 ← readEntry se4.ptr (ix 3 vpn)
  let ke3 ← readIf (leads ke4) ke4.ptr (ix 3 vpn)
  let l2 ← sharedawareL2 l3 (ix 3 vpn) se3 ke3
  failIf (!se3.present) (-1)
  let shareL2 := if !se3.ps then some se3.ptr else none
  let swapperL2 := if leads ke3 then some ke3.ptr else none
  let _ ← readOpt shareL2 (ix 2 vpn)
  let _ ← readOpt swapperL2 (ix 2 vpn)
  -- the level-2 table must be exclusive before a split or a leaf is written
  let ent3 ← readEntry l3 (ix 3 vpn)
  let l2 ← (if shareL2 == some l2 || swapperL2 == some l2 || mmPteSamePtPage ent3 se3 ||
      mmPteSamePtPage ent3 ke3 then replaceByCopy l3 (ix 3 vpn) ent3 (-1)
    else pure l2)
  split2mTo4k l2 (ix 2 vpn) vpn (-1)
  let se2 ← readOpt shareL2 (ix 2 vpn)
  let ke2 ← readOpt swapperL2 (ix 2 vpn)
  let l1 ← sharedawareL1 l2 (ix 2 vpn) shareL2 swapperL2 se2 ke2
  pure ⟨l3, l2, l1⟩

/-- `mm_map_4k_sharedaware_body`; the swapper's tables are there (`g_mm_ready`). -/
def mmMap4kSharedaware (swapper pml4 shareL4 vpn pfn : Nat) (flags : Flags) : PtM Unit := do
  failIf (decide (2 ^ 20 ≤ vpn)) (-1)
  failIf (decide (pml4 = shareL4)) (-1)
  failIf (decide (pml4 = swapper)) (-1)
  let tables ← sharedawareTables swapper pml4 shareL4 vpn
  let before ← mmVaLeafPa shareL4 vpn
  widenEntry pml4 (ix 4 vpn) flags.rw
  widenEntry tables.l3 (ix 3 vpn) flags.rw
  widenEntry tables.l2 (ix 2 vpn) flags.rw
  writeEntry tables.l1 (ix 1 vpn) (sharedawareLeaf vpn pfn flags)
  let after ← mmVaLeafPa shareL4 vpn
  failIf (before.isSome && before != after) (-1)

def mmMap4kPrivateForce (swapper pml4 vpn pfn : Nat) (flags : Flags) : PtM Unit :=
  mmMap4kSharedaware swapper pml4 swapper vpn pfn flags

/-! ## `mm_unmap_user_range` -/

/-- The level-3 table of `mm_fork_private_pt_path`, exclusive with respect to the entry `se4`. -/
def forkL3 (pml4 i4 : Nat) (se4 : Pte) : PtM Nat := do
  let ent4 ← readEntry pml4 i4
  failIf (!ent4.present) (-1)
  failIf (!ptPagePaOk ent4) (-1)
  copyIf (decide (ent4.ptr = se4.ptr)) pml4 i4 ent4

/-- The level-2 table. -/
def forkL2 (l3 i3 : Nat) (se3 : Pte) : PtM Nat := do
  let ent3 ← readEntry l3 i3
  failIf (!ent3.present) (-1)
  doIf (ent3.ps || se3.ps) (splitL31gToL2 l3 i3 (-1))
  let ent3 ← readEntry l3 i3
  failIf ent3.ps (-1)
  failIf (!ent3.present || !ptPagePaOk ent3) (-1)
  copyIf (leads se3 && decide (ent3.ptr = se3.ptr)) l3 i3 ent3

/-- The level-1 table, if the entry is not a 2 MiB leaf. -/
def forkL1 (l2 i2 : Nat) (se2 : Pte) : PtM (Option Nat) := do
  let ent2 ← readEntry l2 i2
  failIf (!ent2.present) (-1)
  if ent2.ps then pure none
  else
    failIf (!ptPagePaOk ent2) (-1)
    let l1 ← copyIf (leads se2 && decide (ent2.ptr = se2.ptr)) l2 i2 ent2
    pure (some l1)

/-- `mm_fork_private_pt_path`: the level-2 table and, unless the page lies in a 2 MiB leaf, the
level-1 table of a page. Only sharing with `shareL4` is looked for. -/
def mmForkPrivatePtPath (pml4 shareL4 vpn : Nat) : PtM (Nat × Option Nat) := do
  failIf (decide (pml4 = shareL4)) (-1)
  failIf (decide (2 ^ 20 ≤ vpn)) (-1)
  let se4 ← readEntry shareL4 (ix 4 vpn)
  failIf (!se4.present || !ptPagePaOk se4) (-1)
  let l3 ← forkL3 pml4 (ix 4 vpn) se4
  let se3 ← readEntry se4.ptr (ix 3 vpn)
  let l2 ← forkL2 l3 (ix 3 vpn) se3
  let se2 ← readIf (leads se3) se3.ptr (ix 2 vpn)
  let l1 ← forkL1 l2 (ix 2 vpn) se2
  pure (l2, l1)

/-- The 2 MiB page of `vpn` lies in the range. -/
def covers2m (begin_ end_ vpn : Nat) : Bool :=
  decide (begin_ ≤ vpn / 512 * 512 ∧ vpn / 512 * 512 + 512 ≤ end_)

/-- The preparation pass of `mm_unmap_user_range`; `n` bounds the number of pages left. -/
def unmapPrepare (pml4 shareL4 begin_ end_ : Nat) : Nat → Nat → PtM Unit
  | 0, _ => pure ()
  | n + 1, vpn => do
      if end_ ≤ vpn then pure ()
      else
        match ← mmVaLeafPa pml4 vpn with
        | none => unmapPrepare pml4 shareL4 begin_ end_ n (vpn + 1)
        | some _ =>
          let (l2, _) ← orReturn (mmForkPrivatePtPath pml4 shareL4 vpn) (-1)
          let ent2 ← readEntry l2 (ix 2 vpn)
          if ent2.ps then
            failIf ent2.owned (-1)
            if covers2m begin_ end_ vpn then
              unmapPrepare pml4 shareL4 begin_ end_ n (vpn / 512 * 512 + 512)
            else
              split2mTo4k l2 (ix 2 vpn) vpn (-1)
              unmapPrepare pml4 shareL4 begin_ end_ n (vpn + 1)
          else unmapPrepare pml4 shareL4 begin_ end_ n (vpn + 1)

/-- A present level-1 entry is cleared and its frame given back. -/
def unmapLeaf (l1 : Option Nat) (vpn : Nat) : PtM Unit :=
  match l1 with
  | none => pure ()
  | some l1 => do
      let old ← readEntry l1 (ix 1 vpn)
      if old.present then
        writeEntry l1 (ix 1 vpn) {}
        doIf old.owned (frameRelease old.pfn)
      else pure ()

/-- The commit pass of `mm_unmap_user_range`. -/
def unmapCommit (pml4 shareL4 begin_ end_ : Nat) : Nat → Nat → PtM Unit
  | 0, _ => pure ()
  | n + 1, vpn => do
      if end_ ≤ vpn then pure ()
      else
        match ← mmVaLeafPa pml4 vpn with
        | none => unmapCommit pml4 shareL4 begin_ end_ n (vpn + 1)
        | some _ =>
          let (l2, l1) ← orReturn (mmForkPrivatePtPath pml4 shareL4 vpn) (-1)
          let ent2 ← readEntry l2 (ix 2 vpn)
          if ent2.ps then
            failIf ent2.owned (-1)
            if covers2m begin_ end_ vpn then
              writeEntry l2 (ix 2 vpn) {}
              unmapCommit pml4 shareL4 begin_ end_ n (vpn / 512 * 512 + 512)
            else
              split2mTo4k l2 (ix 2 vpn) vpn (-1)
              let (l2, l1) ← orReturn (mmForkPrivatePtPath pml4 shareL4 vpn) (-1)
              let ent2 ← readEntry l2 (ix 2 vpn)
              failIf ent2.ps (-1)
              unmapLeaf l1 vpn
              unmapCommit pml4 shareL4 begin_ end_ n (vpn + 1)
          else
            unmapLeaf l1 vpn
            unmapCommit pml4 shareL4 begin_ end_ n (vpn + 1)

/-- The first page of the range that `mm_unmap_user_range` works on. -/
def unmapBegin (vaBegin : Nat) : Nat := max vaBegin 0x200000 / 4096

def unmapEnd (vaEnd : Nat) : Nat := (min vaEnd AxonOS.Arch.MMIO_IDENTITY_LIMIT + 0xFFF) / 4096

def mmUnmapUserRange (swapper pml4 shareL4 vaBegin vaEnd : Nat) : PtM Unit := do
  failIf (decide (pml4 = swapper)) (-1)
  if vaEnd ≤ vaBegin ∨ min vaEnd AxonOS.Arch.MMIO_IDENTITY_LIMIT ≤ max vaBegin 0x200000 then pure ()
  else
    let begin_ := unmapBegin vaBegin
    let end_ := unmapEnd vaEnd
    unmapPrepare pml4 shareL4 begin_ end_ (end_ - begin_) begin_
    unmapCommit pml4 shareL4 begin_ end_ (end_ - begin_) begin_

/-! ## `mm_cow_fault_page` -/

def mmSplitHugeLeafForVa (pml4 vpn : Nat) : PtM Unit := do
  let e4 ← readEntry pml4 (ix 4 vpn)
  failIf (!e4.present || e4.ps || !ptPagePaOk e4) (-1)
  let e3 ← readEntry e4.ptr (ix 3 vpn)
  failIf (!e3.present) (-1)
  doIf e3.ps (splitL31gToL2 e4.ptr (ix 3 vpn) (-1))
  let e3 ← readEntry e4.ptr (ix 3 vpn)
  failIf (!ptPagePaOk e3 || e3.ps) (-1)
  let e2 ← readEntry e3.ptr (ix 2 vpn)
  failIf (!e2.present) (-1)
  doIf e2.ps (split2mTo4k e3.ptr (ix 2 vpn) vpn (-1))

/-- The flags of a private writable leaf: `PG_RW | PG_US | PG_SOFT_OWNED`. -/
def Flags.privateRw : Flags := { rw := true, us := true, owned := true }

/-- The flags that a shared leaf keeps when it becomes writable. -/
def Flags.sharedRw (f : Flags) : Flags :=
  { f with
    rw := true, accessed := false, dirty := false, ps := false, reserved := false, cow := false,
    avail := 0 }

/-- The mapping of a private page in `mm_cow_fault_page`, against the comparison tree if there is
one. -/
def cowMap (swapper pml4 : Nat) (shareCmp : Option Nat) (vpn pfn : Nat) : PtM Unit :=
  match shareCmp with
  | some shareL4 =>
    if shareL4 ≠ pml4 then mmMap4kSharedaware swapper pml4 shareL4 vpn pfn .privateRw
    else mmMap4kPrivateForce swapper pml4 vpn pfn .privateRw
  | none => mmMap4kPrivateForce swapper pml4 vpn pfn .privateRw

/-- The leaf that `mm_cow_fault_page` works on, after a large leaf has been split. -/
def cowLeaf (pml4 vpn : Nat) : PtM Pte := do
  match ← mmVaLeafEntryDirect pml4 vpn with
  | none => throw (.ret (-2))
  | some old =>
    if old.ps then
      orReturn (mmSplitHugeLeafForVa pml4 vpn) (-1)
      match ← mmVaLeafEntryDirect pml4 vpn with
      | none => throw (.ret (-2))
      | some old => pure old
    else pure old

/-- The checks that `mm_cow_fault_page` makes after it has mapped a copy. -/
def cowVerify (pml4 vpn oldPfn : Nat) : PtM Unit := do
  match ← mmVaLeafEntryDirect pml4 vpn with
  | none => throw (.ret (-3))
  | some e =>
    failIf (!e.present || !e.rw) (-4)
    failIf (decide (e.pfn = oldPfn)) (-5)
    failIf e.cow (-6)
    failIf (!e.owned) (-7)
    let pa ← mmUserLeafPaDirect pml4 vpn true
    failIf (pa != some e.pfn) (-8)

/-- `mm_cow_fault_page`; `shared` is what `user_vma_is_shared_page_mm` says about the page. -/
def mmCowFaultPage (swapper pml4 : Nat) (shareCmp : Option Nat) (shared : Bool) (va : Nat) :
    PtM Unit := do
  let vpn := va / 4096
  failIf (decide (vpn < 1 ∨ 2 ^ 20 ≤ vpn)) (-1)
  let old ← cowLeaf pml4 vpn
  if shared then
    orReturn (mmMapUserPage swapper pml4 (vpn * 4096) (old.pfn * 4096) old.toFlags.sharedRw) (-1)
  else
    failIf (!(old.present && old.us && !old.rw && old.cow)) (-2)
    let s ← get
    if old.owned && s.refs old.pfn == 1 then
      orReturn (cowMap swapper pml4 shareCmp vpn old.pfn) (-1)
    else
      match ← mmUserFrameAllocAvoidVa vpn with
      | none => throw (.ret (-1))
      | some newp =>
        if 2 ^ 20 ≤ old.pfn then throw .fault
        else
          modify fun s => s.setPage newp (s.data old.pfn)
          tryCatch (cowMap swapper pml4 shareCmp vpn newp) fun e =>
            match e with
            | .fault => throw .fault
            | .ret _ => do
                frameRelease newp
                throw (.ret (-1))
          cowVerify pml4 vpn old.pfn
          doIf old.owned (frameRelease old.pfn)

/-! ## `user_map_unmap_range` and `user_map_mprotect_range` -/

/-- The 2 MiB page of `vpn` holds the page `t`. -/
def in2m (vpn t : Nat) : Bool := decide (vpn / 512 = t / 512)

/-- One page of `user_map_unmap_range` under the root `l4` of the live CR3. -/
def unmapPage (l4 vpn : Nat) : PtM Unit := do
  let e4 ← readEntry l4 (ix 4 vpn)
  if !e4.present then pure ()
  else
    let e3 ← readEntry e4.ptr (ix 3 vpn)
    if !e3.present || e3.ps then pure ()
    else
      let e2 ← readEntry e3.ptr (ix 2 vpn)
      if !e2.present then pure ()
      else if e2.ps then
        if in2m vpn e3.ptr || in2m vpn e4.ptr || in2m vpn l4 then pure ()
        else writeEntry e3.ptr (ix 2 vpn) {}
      else writeEntry e2.ptr (ix 1 vpn) {}

def unmapPages (l4 : Nat) : Nat → Nat → PtM Unit
  | 0, _ => pure ()
  | n + 1, vpn => do
      unmapPage l4 vpn
      unmapPages l4 n (vpn + 1)

def userMapUnmapRange (l4 vaBegin vaEnd : Nat) : PtM Unit := do
  failIf (decide (vaEnd < vaBegin)) (-1)
  failIf (decide (AxonOS.Arch.MMIO_IDENTITY_LIMIT ≤ vaBegin)) (-1)
  let begin_ := vaBegin / 4096
  let end_ := (min vaEnd AxonOS.Arch.MMIO_IDENTITY_LIMIT + 0xFFF) / 4096
  unmapPages l4 (end_ - begin_) begin_

/-- The flags that `prot` stands for; `data` says that the range meets the user data region. -/
def protFlags (prot : Nat) (data : Bool) : Flags :=
  if prot = 0 then {}
  else
    { present := true, us := true, ps := true
      rw := decide (prot / 2 % 2 = 1) || data
      nx := decide (prot / 4 % 2 = 0) }

/-- A leaf with new flags: the address and the two software bits stay. -/
def protLeaf (f : Flags) (ps : Bool) (e : Pte) (pfn : Nat) : Pte :=
  ⟨{ f with ps := f.ps && ps, cow := e.cow, owned := e.owned, rw := f.rw && !e.cow }, pfn⟩

/-- The inner loop of `user_map_mprotect_range` over `n` pages of a level-1 table. -/
def protPages (l1 : Nat) (f : Flags) : Nat → Nat → PtM Unit
  | 0, _ => pure ()
  | n + 1, vpn => do
      let e ← readEntry l1 (ix 1 vpn)
      doIf e.present (writeEntry l1 (ix 1 vpn) (protLeaf f false e e.pfn))
      protPages l1 f n (vpn + 1)

/-- One 2 MiB chunk of `user_map_mprotect_range`. -/
def protChunk (l4 protBegin protEnd : Nat) (f : Flags) (vpn : Nat) : PtM Unit := do
  let e4 ← readEntry l4 (ix 4 vpn)
  failIf (!e4.present) (-1)
  let e3 ← readEntry e4.ptr (ix 3 vpn)
  failIf (!e3.present) (-1)
  failIf e3.ps (-1)
  let e2 ← readEntry e3.ptr (ix 2 vpn)
  failIf (!e2.present) (-1)
  if e2.ps then
    if vpn < protBegin ∨ protEnd < vpn + 512 then pure ()
    else writeEntry e3.ptr (ix 2 vpn) (protLeaf f true e2 (e2.pfn / 512 * 512))
  else
    let lo := max vpn protBegin
    let hi := min (vpn + 512) protEnd
    protPages e2.ptr f (hi - lo) lo

def protChunks (l4 protBegin protEnd : Nat) (f : Flags) : Nat → Nat → PtM Unit
  | 0, _ => pure ()
  | n + 1, vpn => do
      protChunk l4 protBegin protEnd f vpn
      protChunks l4 protBegin protEnd f n (vpn + 512)

/-- `user_map_mprotect_range` on the tables of the root `l4`. -/
def userMapMprotectRange (l4 vaBegin vaEnd prot : Nat) : PtM Unit := do
  failIf (decide (vaEnd < vaBegin)) (-1)
  failIf (decide (AxonOS.Arch.MMIO_IDENTITY_LIMIT ≤ vaBegin)) (-1)
  let vaEnd := min vaEnd AxonOS.Arch.MMIO_IDENTITY_LIMIT
  let protBegin := vaBegin / 4096
  let protEnd := min ((vaEnd + 0xFFF) / 4096) (2 ^ 20)
  let begin_ := vaBegin / 0x200000
  let end_ := min ((vaEnd + 0x1FFFFF) / 0x200000) 2048
  let f := protFlags prot (decide (vaBegin < 0x10000000 ∧ 0x200000 < vaEnd))
  protChunks l4 protBegin protEnd f (end_ - begin_) (begin_ * 512)

end AxonOS.Paging

import AxonOS.Arch.Addr
import AxonOS.Lib.Chain

/-! # Physical frames

The page pool of `mem/pmm.c` and the frame metadata of `mm/frame.c`. The pool is an intrusive
list: the first word of a free page holds the address of the next one, so the list is stored
in memory (`mem`). The metadata is a table of slots; the field `link` of a slot belongs to the
list of free slots while the slot is free and to the hash chain of its address while it is
live. A link of `-1`, and a pool address of `0`, is `none` here.
-/

namespace AxonOS.Frame

open Lib Arch

def FRAME_META_MAX : Nat := 262144
def FRAME_HASH_SIZE : Nat := 8192

/-- `frame_meta_t`. `raw` is the `kmalloc` block behind the page, if there is one; `refs` is a
32-bit counter. -/
structure FrameMeta where
  pa : Nat
  raw : Option Nat
  refs : Nat
  link : Option Nat
  deriving DecidableEq, Repr

instance : Inhabited FrameMeta := ⟨⟨0, none, 0, none⟩⟩

/-- The state of the page pool: the static variables of `pmm.c`. -/
structure Pmm where
  base : Nat
  fin : Nat
  freeHead : Nat
  total : Nat
  free : Nat
  inited : Bool
  deriving DecidableEq, Repr

/-- The metadata, the pool and the first word of every page. `frames` is empty when the table
could not be allocated (`frames == NULL`), `hash` is `none` when `frame_hash == NULL`. -/
structure FrameState where
  frames : List FrameMeta
  hash : Option (Nat → Option Nat)
  freeHead : Option Nat
  pmm : Pmm
  mem : Nat → Nat

def FrameState.slot (st : FrameState) (i : Nat) : FrameMeta := st.frames.getD i default

def FrameState.setSlot (st : FrameState) (i : Nat) (m : FrameMeta) : FrameState :=
  { st with frames := st.frames.set i m }

/-! ## The page pool -/

def store (mem : Nat → Nat) (p v : Nat) : Nat → Nat := fun q => if q = p then v else mem q

/-- How often the loop of `pmm_init` runs: from `lo` in steps of a page, while `p + 4096`,
which wraps on the last page of the address space, is at most `hi`. -/
def pmmPageCount (lo hi : Nat) : Nat :=
  if (lo + PAGE_SIZE_4K) % 2 ^ 64 < lo then hi / PAGE_SIZE_4K + 1 else (hi - lo) / PAGE_SIZE_4K

/-- The loop of `pmm_init`: `n` pages from `p` on are pushed one by one. -/
def pmmPush : Nat → Nat → (Nat → Nat) × Nat → (Nat → Nat) × Nat
  | 0, _, s => s
  | n + 1, p, (mem, head) => pmmPush n ((p + PAGE_SIZE_4K) % 2 ^ 64) (store mem p head, p)

def pmmInit (lo hi : Nat) (p : Pmm) (mem : Nat → Nat) : Pmm × (Nat → Nat) :=
  let lo := alignUp4K lo
  let hi := alignDown4K hi
  if hi ≤ (lo + PAGE_SIZE_4K) % 2 ^ 64 then (p, mem)
  else
    let hi := if MMIO_IDENTITY_LIMIT < hi then alignDown4K MMIO_IDENTITY_LIMIT else hi
    let n := pmmPageCount lo hi
    let (mem', head) := pmmPush n lo (mem, 0)
    (⟨lo, hi, head, n, n, decide (0 < n)⟩, mem')

/-- `pmm_alloc_page`; the page address `0` is the null pointer. -/
def pmmAllocPage (p : Pmm) (mem : Nat → Nat) : Option Nat × Pmm :=
  if !p.inited then (none, p)
  else if p.freeHead = 0 then (none, p)
  else (some p.freeHead, { p with freeHead := mem p.freeHead, free := p.free - 1 })

def pmmFreePage (page : Nat) (p : Pmm) (mem : Nat → Nat) : Pmm × (Nat → Nat) :=
  if !p.inited || page == 0 then (p, mem)
  else if page < p.base ∨ p.fin ≤ page then (p, mem)
  else if page % PAGE_SIZE_4K ≠ 0 then (p, mem)
  else ({ p with freeHead := page, free := p.free + 1 }, store mem page p.freeHead)

/-! ## The metadata table -/

def frameHashPa (pa : Nat) : Nat := pgAddr pa / 4096 % FRAME_HASH_SIZE

/-- The loop of `frame_init` that links slot `i - 1`, then `i - 2`, down to `0`. -/
def linkSlots : Nat → List FrameMeta × Option Nat → List FrameMeta × Option Nat
  | 0, s => s
  | i + 1, (t, head) => linkSlots i (t.set i { t.getD i default with link := head }, some i)

/-- `frame_init`. The three flags are the outcomes of its `kmalloc` calls: the large table,
the small table and the hash table. -/
def frameInit (large small hashOk : Bool) (st : FrameState) : FrameState :=
  let cap := if large then FRAME_META_MAX else if small then 4096 else 0
  let linked := linkSlots cap (List.replicate cap default, none)
  { st with
    frames := linked.1
    freeHead := linked.2
    hash := if hashOk then some (fun _ => none) else none }

/-- The test of the two loops of `frame_slot_locked`. -/
def slotMatches (st : FrameState) (pa i : Nat) : Bool :=
  (st.slot i).refs != 0 && (st.slot i).pa == pa

/-- `frame_slot_locked`. The outer `none` is a walk that does not end: a chain that is longer
than the table has a cycle. -/
def frameSlotLocked (st : FrameState) (pa : Nat) : Option (Option Nat) :=
  let pa := pgAddr pa
  match st.hash with
  | none => some ((List.range st.frames.length).find? (slotMatches st pa))
  | some hash =>
    chainFind (fun i => (st.slot i).link) (slotMatches st pa) st.frames.length
      (hash (frameHashPa pa))

def frameTakeFreeLocked (st : FrameState) : Option Nat × FrameState :=
  match st.freeHead with
  | none => (none, st)
  | some slot =>
    (some slot, { st.setSlot slot { st.slot slot with link := none } with
      freeHead := (st.slot slot).link })

def frameReturnFreeLocked (slot : Nat) (st : FrameState) : FrameState :=
  if st.frames.length ≤ slot then st
  else { st.setSlot slot ⟨0, none, 0, st.freeHead⟩ with freeHead := some slot }

def setBucket (hash : Nat → Option Nat) (h : Nat) (v : Option Nat) : Nat → Option Nat :=
  fun k => if k = h then v else hash k

def frameHashInsertLocked (slot : Nat) (st : FrameState) : FrameState :=
  match st.hash with
  | none => st
  | some hash =>
    let h := frameHashPa (st.slot slot).pa
    { st.setSlot slot { st.slot slot with link := hash h } with
      hash := some (setBucket hash h (some slot)) }

/-- `*pp = frames[slot].link; frames[slot].link = -1`, where `pp` is the place of a link: the
bucket `h` (`none`) or the link field of a slot. -/
def unlinkAt (slot h : Nat) (hash : Nat → Option Nat) (st : FrameState) (pp : Option Nat) :
    FrameState :=
  let st' :=
    match pp with
    | none => { st with hash := some (setBucket hash h (st.slot slot).link) }
    | some k => st.setSlot k { st.slot k with link := (st.slot slot).link }
  st'.setSlot slot { st'.slot slot with link := none }

/-- The loop of `frame_hash_remove_locked`; `cur` is the content of the link at `pp`. -/
def hashRemoveWalk (slot h : Nat) (hash : Nat → Option Nat) (st : FrameState) :
    Nat → Option Nat → Option Nat → Option FrameState
  | _, _, none => some st
  | 0, _, some _ => none
  | n + 1, pp, some cur =>
    if cur = slot then some (unlinkAt slot h hash st pp)
    else hashRemoveWalk slot h hash st n (some cur) (st.slot cur).link

def frameHashRemoveLocked (slot : Nat) (st : FrameState) : Option FrameState :=
  match st.hash with
  | none => some st
  | some hash =>
    let h := frameHashPa (st.slot slot).pa
    hashRemoveWalk slot h hash st st.frames.length none (hash h)

/-! ## The interface -/

/-- The part of `frame_alloc` under the lock: a slot for `page`, if there is one. -/
def frameTrack (page : Nat) (raw : Option Nat) (st : FrameState) : Option Nat × FrameState :=
  match frameTakeFreeLocked st with
  | (none, st) => (none, st)
  | (some slot, st) =>
    (some slot, frameHashInsertLocked slot
      (st.setSlot slot { st.slot slot with pa := page, raw := raw, refs := 1 }))

/-- `frame_alloc`. `kmallocRaw` is what `kmalloc` answers where the pool was never set up. -/
def frameAlloc (kmallocRaw : Option Nat) (st : FrameState) : Option Nat × FrameState :=
  if st.frames.isEmpty then (none, st)
  else if st.pmm.inited then
    match pmmAllocPage st.pmm st.mem with
    | (none, pmm) => (none, { st with pmm := pmm })
    | (some page, pmm) =>
      match frameTrack page none { st with pmm := pmm } with
      | (some _, st') => (some page, st')
      | (none, st') =>
        let (pmm', mem') := pmmFreePage page st'.pmm st'.mem
        (none, { st' with pmm := pmm', mem := mem' })
  else
    match kmallocRaw with
    | none => (none, st)
    | some raw =>
      let page := alignUp4K raw
      match frameTrack page (some raw) st with
      | (some _, st') => (some page, st')
      | (none, st') => (none, st')

def frameRetain (pa : Nat) (st : FrameState) : Option (Int × FrameState) :=
  match frameSlotLocked st pa with
  | none => none
  | some none => some (-1, st)
  | some (some slot) =>
    some (0, st.setSlot slot { st.slot slot with refs := ((st.slot slot).refs + 1) % 2 ^ 32 })

/-- `frame_release`. The block of a `kmalloc` frame goes back to the heap, the page of a pool
frame to the pool. -/
def frameRelease (pa : Nat) (st : FrameState) : Option FrameState :=
  match frameSlotLocked st pa with
  | none => none
  | some none => some st
  | some (some slot) =>
    let m := st.slot slot
    let st1 := st.setSlot slot { m with refs := m.refs - 1 }
    if m.refs - 1 = 0 then
      match frameHashRemoveLocked slot st1 with
      | none => none
      | some st2 =>
        let st3 := frameReturnFreeLocked slot st2
        match m.raw with
        | some _ => some st3
        | none =>
          let (pmm, mem) := pmmFreePage (pgAddr pa) st3.pmm st3.mem
          some { st3 with pmm := pmm, mem := mem }
    else some st1

def frameRefcount (pa : Nat) (st : FrameState) : Option Nat :=
  match frameSlotLocked st pa with
  | none => none
  | some none => some 0
  | some (some slot) => some (st.slot slot).refs

end AxonOS.Frame

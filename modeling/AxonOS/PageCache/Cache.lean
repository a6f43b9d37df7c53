import AxonOS.Lib.Buckets

/-! # The page cache

`mm/pagecache.c`: pages of files in a hash table with chaining, by the identity of the file, its
generation and the index of the page. Shared mappings of a page are to use one frame, the one in the
cache. When a file changes, `pagecache_invalidate` drops the entries whose frames nobody else holds,
and gives the others the new generation in place: they stay in the bucket of the old one.

Frames are their counters; that `mm/frame.c` counts right is proved with its model. What a frame
holds is left out, and what `frame_alloc_zero`, `fs_read` and `kmalloc` return is given with every
call.
-/

namespace AxonOS.PageCache

open Lib
open Function (update)

abbrev Word := BitVec 64

def PAGECACHE_BUCKETS : Nat := 512
def PAGECACHE_MAX : Int := 32768

/-- `struct pagecache_ent`. -/
structure Ent where
  backingId : Word
  generation : Word
  pageIndex : Word
  pa : Nat
  lastUsed : Word
  dsm : Bool
  deriving DecidableEq, Repr

/-- The variables of `pagecache.c`, and the counters of frames. -/
structure Cache where
  bucket : Nat → List Ent
  count : Int
  tick : Word
  refs : Nat → Nat

/-! ## Frames -/

/-- `frame_retain`; `none` is -1. -/
def frameRetain (refs : Nat → Nat) (pa : Nat) : Option (Nat → Nat) :=
  if refs pa = 0 then none else some (update refs pa ((refs pa + 1) % 2 ^ 32))

def frameRelease (refs : Nat → Nat) (pa : Nat) : Nat → Nat :=
  if refs pa = 0 then refs else update refs pa (refs pa - 1)

/-! ## Looking up -/

def pcHash (backingId generation pageIndex : Word) : Nat :=
  let h := backingId ^^^ (generation * 0x9E3779B97F4A7C15) ^^^ (pageIndex * 0xBF58476D1CE4E5B9)
  (h &&& BitVec.ofNat 64 (PAGECACHE_BUCKETS - 1)).toNat

def Ent.hash (e : Ent) : Nat := pcHash e.backingId e.generation e.pageIndex

/-- The comparison of `pc_find_locked`. -/
def Ent.has (backingId generation pageIndex : Word) (e : Ent) : Bool :=
  e.backingId = backingId && e.generation = generation && e.pageIndex = pageIndex

/-- `pc_find_locked`: the place in the chain. -/
def pcFindLocked (c : Cache) (backingId generation pageIndex : Word) : Option Nat :=
  (c.bucket (pcHash backingId generation pageIndex)).findIdx?
    (Ent.has backingId generation pageIndex)

/-! ## Eviction -/

/-- The entries with their buckets and their places in the chains, in the order of the loops. -/
def places (c : Cache) : List (Nat × Nat × Ent) :=
  (List.range PAGECACHE_BUCKETS).flatMap fun i => (c.bucket i).zipIdx.map fun p => (i, p.2, p.1)

/-- One round of the loops of `pc_evict_one_locked`, with `best` and `best_tick`. -/
def consider (c : Cache) (best : Option (Nat × Nat × Ent) × Word) (p : Nat × Nat × Ent) :
    Option (Nat × Nat × Ent) × Word :=
  let e := p.2.2
  if e.dsm then best
  else if c.refs e.pa = 1 && e.lastUsed ≤ best.2 then (some p, e.lastUsed)
  else best

/-- `pc_evict_one_locked`; `none` is -1. -/
@[irreducible]
def pcEvictOneLocked (c : Cache) : Option Cache :=
  match ((places c).foldl (consider c) (none, BitVec.allOnes 64)).1 with
  | none => none
  | some (i, j, e) =>
    some { c with
      bucket := update c.bucket i ((c.bucket i).eraseIdx j)
      count := c.count - 1
      refs := frameRelease c.refs e.pa }

/-- The loop of `pagecache_get` around `pc_evict_one_locked`. -/
def evictLoop : Nat → Cache → Cache
  | 0, c => c
  | fuel + 1, c =>
    if PAGECACHE_MAX ≤ c.count then
      match pcEvictOneLocked c with
      | none => c
      | some c => evictLoop fuel c
    else c

/-- Every round takes one entry away, so that this many rounds are enough. -/
def makeRoom (c : Cache) : Cache := evictLoop (c.count - PAGECACHE_MAX + 1).toNat c

/-! ## `pagecache_get` -/

/-- The fields of `struct fs_file` that are used; `shm` is that the path has `/PostgreSQL.` in
it. -/
structure File where
  backingId : Word
  shm : Bool

/-- What is returned to a call of `pagecache_get`: by `frame_alloc_zero`, by `fs_read` if there is
something to read (whether it reads all), and by `kmalloc` (whether it returns a block). -/
structure Env where
  page : Option Nat
  read : Bool
  ent : Bool

/-- What both lookups do with an entry that they find, at a place in a chain. -/
def useHit (c : Cache) (b j : Nat) : Cache × Option Nat :=
  match (c.bucket b)[j]? with
  | none => (c, none)
  | some e =>
    match frameRetain c.refs e.pa with
    | none => (c, none)
    | some refs =>
      ({ c with
          bucket := update c.bucket b ((c.bucket b).set j { e with lastUsed := c.tick + 1 })
          tick := c.tick + 1
          refs := refs },
        some e.pa)

/-- A new entry, with the frame `pa`. -/
def insertEnt (c : Cache) (f : File) (generation pageIndex : Word) (pa : Nat) :
    Cache × Option Nat :=
  let b := pcHash f.backingId generation pageIndex
  let ent : Ent := ⟨f.backingId, generation, pageIndex, pa, c.tick + 1, f.shm⟩
  let c :=
    { c with
        bucket := update c.bucket b (ent :: c.bucket b), count := c.count + 1, tick := c.tick + 1 }
  match frameRetain c.refs pa with
  | none => ({ c with refs := frameRelease c.refs pa }, none)
  | some refs => ({ c with refs := refs }, some pa)

/-- `pagecache_get` after the first lookup has found nothing. -/
def fillPage (c : Cache) (f : File) (generation pageIndex : Word) (env : Env) :
    Cache × Option Nat :=
  match env.page with
  | none => (c, none)
  | some pa =>
    let c := { c with refs := update c.refs pa 1 }
    if !env.read then ({ c with refs := frameRelease c.refs pa }, none)
    else
      match pcFindLocked c f.backingId generation pageIndex with
      | some j =>
        let (c, r) := useHit c (pcHash f.backingId generation pageIndex) j
        ({ c with refs := frameRelease c.refs pa }, r)
      | none =>
        let c := makeRoom c
        if env.ent then insertEnt c f generation pageIndex pa
        else ({ c with refs := frameRelease c.refs pa }, none)

/-- `aligned >> 12`. -/
def pageOf (fileOff : Word) : Word := (fileOff &&& ~~~ 0xFFF) >>> 12

/-- `pagecache_get`; `generation` is what `fs_current_generation` returns. The result is the
frame. -/
def pagecacheGet (c : Cache) (f : File) (generation fileOff : Word) (env : Env) :
    Cache × Option Nat :=
  if f.backingId = 0 then (c, none)
  else
    let pageIndex := pageOf fileOff
    match pcFindLocked c f.backingId generation pageIndex with
    | some j => useHit c (pcHash f.backingId generation pageIndex) j
    | none => fillPage c f generation pageIndex env

/-! ## `pagecache_invalidate` -/

/-- The inner loop of `pagecache_invalidate`, over one chain: what is left of it, the counters, and
`g_pc_count`. -/
def invalidateChain (backingId newGeneration : Word) :
    List Ent → (Nat → Nat) → Int → List Ent × (Nat → Nat) × Int
  | [], refs, count => ([], refs, count)
  | e :: es, refs, count =>
    let restamped := if newGeneration = 0 then e else { e with generation := newGeneration }
    if e.backingId = backingId then
      if e.dsm then
        let (es, refs, count) := invalidateChain backingId newGeneration es refs count
        (restamped :: es, refs, count)
      else if refs e.pa = 1 then
        invalidateChain backingId newGeneration es (frameRelease refs e.pa) (count - 1)
      else
        let (es, refs, count) := invalidateChain backingId newGeneration es refs count
        (restamped :: es, refs, count)
    else
      let (es, refs, count) := invalidateChain backingId newGeneration es refs count
      (e :: es, refs, count)

/-- One round of the outer loop of `pagecache_invalidate`. -/
def invalidateBucket (backingId newGeneration : Word) (c : Cache) (i : Nat) : Cache :=
  let (es, refs, count) := invalidateChain backingId newGeneration (c.bucket i) c.refs c.count
  { c with bucket := update c.bucket i es, refs := refs, count := count }

@[irreducible]
def pagecacheInvalidate (c : Cache) (backingId newGeneration : Word) : Cache :=
  if backingId = 0 then c
  else (List.range PAGECACHE_BUCKETS).foldl (invalidateBucket backingId newGeneration) c

/-! ## The system -/

/-- A caller has mapped a page, and holds its frame. -/
structure Hold where
  backingId : Word
  pageIndex : Word
  pa : Nat
  deriving DecidableEq, Repr

/-- An answer of `pagecache_get` for a page that some caller holds: the frame held, and the
result. -/
structure Answer where
  held : Nat
  result : Option Nat
  deriving DecidableEq, Repr

/-- The cache, the live generation of every file, the mappings, and the answers. -/
structure State where
  cache : Cache
  generation : Word → Word
  held : List Hold
  answers : List Answer

inductive Op where
  | get (f : File) (fileOff : Word) (env : Env)
  /-- A caller unmaps: `frame_release`. -/
  | release (i : Nat)
  /-- The file changes. -/
  | invalidate (backingId newGeneration : Word)

/-- The hold is on this page. -/
def Hold.on (backingId pageIndex : Word) (h : Hold) : Bool :=
  h.backingId = backingId && h.pageIndex = pageIndex

def State.step (s : State) : Op → State
  | .get f fileOff env =>
    let (c, r) := pagecacheGet s.cache f (s.generation f.backingId) fileOff env
    { s with
      cache := c
      held :=
        match r with
        | none => s.held
        | some pa => ⟨f.backingId, pageOf fileOff, pa⟩ :: s.held
      answers :=
        (s.held.filter (Hold.on f.backingId (pageOf fileOff))).map
          (fun h => ⟨h.pa, r⟩) ++ s.answers }
  | .release i =>
    match s.held[i]? with
    | none => s
    | some h =>
      { s with
        cache := { s.cache with refs := frameRelease s.cache.refs h.pa }
        held := s.held.eraseIdx i }
  | .invalidate backingId newGeneration =>
    { s with
      cache := pagecacheInvalidate s.cache backingId newGeneration
      generation := update s.generation backingId newGeneration }

def State.exec (s : State) (ops : List Op) : State := ops.foldl State.step s

end AxonOS.PageCache

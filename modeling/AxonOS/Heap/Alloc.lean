import AxonOS.Lib.ByteMem

/-! # The kernel heap

The allocator of `mem/heap.c` on byte memory. A block is a header of 64 bytes followed by its
payload; all blocks form an address-ordered doubly linked list (`next`, `prev`) and the free
ones an explicit doubly linked list (`free_next`, `free_prev`). A header lives in memory like
anything else: a field is a little-endian number at its offset, so a store to one header can
in principle clobber another one or a payload, and that it does not has to be proved.

`size_t` and pointer arithmetic is modulo `2^64`; a store truncates to the width of the field.
The build is the default one, with `HEAP_GUARD`. Messages are left out.
-/

namespace AxonOS.Heap

open Lib

/-- The fields of `heap_block_header_t`. -/
inductive Field where
  | size
  | next
  | prev
  | freeNext
  | freePrev
  | magic
  | free
  | reqSize
  | allocCaller
  deriving DecidableEq, Repr

/-- `offsetof(heap_block_header_t, f)`. -/
def Field.off : Field → Nat
  | .size => 0
  | .next => 8
  | .prev => 16
  | .freeNext => 24
  | .freePrev => 32
  | .magic => 40
  | .free => 44
  | .reqSize => 48
  | .allocCaller => 56

/-- `sizeof` of the field. -/
def Field.width : Field → Nat
  | .magic => 4
  | .free => 4
  | _ => 8

/-- `sizeof(heap_block_header_t)`. -/
def HDR : Nat := 64

def HEAP_MAGIC_FREE : Nat := 0xC0FFEE00
def HEAP_MAGIC_ALLOC : Nat := 0xC0FFEE01
def HEAP_CANARY_QWORD : Nat := 0xDEADBEEFCAFEBABE

/-- The memory and the static variables of `heap.c`. -/
structure HeapState where
  mem : Mem
  base : Nat
  capacity : Nat
  head : Nat
  rover : Nat
  freeHead : Nat
  used : Nat
  peak : Nat

@[irreducible] def HeapState.get (h : HeapState) (f : Field) (b : Nat) : Nat :=
  loadLE h.mem (b + f.off) f.width

def HeapState.put (h : HeapState) (f : Field) (b v : Nat) : HeapState :=
  { h with mem := storeLE h.mem (b + f.off) f.width v }

def HeapState.putIf (h : HeapState) (f : Field) (p v : Nat) : HeapState :=
  if p = 0 then h else h.put f p v

def HeapState.withFreeHead (h : HeapState) (p : Nat) : HeapState := { h with freeHead := p }

def HeapState.withRover (h : HeapState) (p : Nat) : HeapState := { h with rover := p }

def HeapState.memcpy (h : HeapState) (dst src n : Nat) : HeapState :=
  { h with mem := copyBytes h.mem dst src n }

def HeapState.memset (h : HeapState) (dst v n : Nat) : HeapState :=
  { h with mem := fun y => if dst ≤ y ∧ y < dst + n then v else h.mem y }

/-- `ALIGN16(x)` for an `x` computed in 64 bits. -/
def align16 (x : Nat) : Nat := (x % 2 ^ 64 + 15) % 2 ^ 64 / 16 * 16

def heapPtrInRange (h : HeapState) (p : Nat) : Bool :=
  if h.base = 0 ∨ h.capacity = 0 then false
  else decide (h.base ≤ p) && decide (p < (h.base + h.capacity) % 2 ^ 64)

/-- `heap_init`; `kernelEnd` is the address of `_end`. -/
def heapInit (kernelEnd heapStart heapSize : Nat) (mem : Mem) : HeapState :=
  let start := if heapStart = 0 then (kernelEnd + 0xFFF) / 0x1000 * 0x1000 else heapStart
  let size := if heapSize = 0 then 512 * 1024 * 1024 else heapSize
  let h : HeapState := ⟨mem, start, size, start, start, start, 0, 0⟩
  let h := h.put .size start (size + 2 ^ 64 - HDR)
  let h := h.put .next start 0
  let h := h.put .prev start 0
  let h := h.put .free start 1
  let h := h.put .magic start HEAP_MAGIC_FREE
  let h := h.put .reqSize start 0
  let h := h.put .allocCaller start 0
  let h := h.put .freeNext start 0
  h.put .freePrev start 0

/-! ## The free list -/

/-- The first assignment of `fl_remove`: what points to `b` takes its forward link. -/
def unlinkForward (b : Nat) (h : HeapState) : HeapState :=
  if h.get .freePrev b ≠ 0 then h.put .freeNext (h.get .freePrev b) (h.get .freeNext b)
  else if h.freeHead = b then h.withFreeHead (h.get .freeNext b)
  else h

def flRemove (b : Nat) (h : HeapState) : HeapState :=
  if b = 0 then h
  else
    let h := unlinkForward b h
    let h := h.putIf .freePrev (h.get .freeNext b) (h.get .freePrev b)
    (h.put .freeNext b 0).put .freePrev b 0

def flInsert (b : Nat) (h : HeapState) : HeapState :=
  if b = 0 then h
  else
    let h := h.put .freePrev b 0
    let h := h.put .freeNext b h.freeHead
    let h := h.putIf .freePrev h.freeHead b
    h.withFreeHead b

/-! ## Splitting and merging -/

/-- `b->size += sizeof header + n->size; b->next = n->next; if (b->next) b->next->prev = b`:
the block `n` after `b` becomes part of `b`. -/
def absorb (b n : Nat) (h : HeapState) : HeapState :=
  let h := h.put .size b (h.get .size b + HDR + h.get .size n)
  let h := h.put .next b (h.get .next n)
  h.putIf .prev (h.get .next b) b

/-- The header `split_block` writes for the remainder `new` of `blk`. -/
def initRemainder (blk new remaining : Nat) (h : HeapState) : HeapState :=
  let h := h.put .size new (remaining - HDR)
  let h := h.put .free new 1
  let h := h.put .magic new HEAP_MAGIC_FREE
  let h := h.put .reqSize new 0
  let h := h.put .allocCaller new 0
  let h := h.put .next new (h.get .next blk)
  let h := h.put .prev new blk
  let h := h.put .freeNext new 0
  h.put .freePrev new 0

def splitBlock (blk size : Nat) (h : HeapState) : HeapState :=
  let remaining := (h.get .size blk + 2 ^ 64 - size) % 2 ^ 64
  if remaining ≤ HDR + 16 then h
  else
    let new := (blk + HDR + size) % 2 ^ 64
    let h := initRemainder blk new remaining h
    let h := h.putIf .prev (h.get .next new) new
    let h := h.put .next blk new
    let h := h.put .size blk size
    let h := flInsert new h
    if h.get .next new ≠ 0 ∧ h.get .free (h.get .next new) ≠ 0
        ∧ h.get .magic (h.get .next new) = HEAP_MAGIC_FREE then
      let h := flRemove (h.get .next new) h
      absorb new (h.get .next new) h
    else h

/-- `blk->magic = FREE; blk->req_size = 0; blk->alloc_caller = 0`. -/
def markFree (blk : Nat) (h : HeapState) : HeapState :=
  ((h.put .magic blk HEAP_MAGIC_FREE).put .reqSize blk 0).put .allocCaller blk 0

/-- The first half of `coalesce`: a free block after `blk` is merged into it. -/
def coalesceNext (blk : Nat) (h : HeapState) : HeapState :=
  if h.get .next blk ≠ 0 ∧ h.get .free (h.get .next blk) ≠ 0 then
    let h := if h.rover = h.get .next blk then h.withRover blk else h
    let h := flRemove (h.get .next blk) h
    absorb blk (h.get .next blk) h
  else h

/-- `coalesce`: the surviving free block. -/
def coalesce (blk : Nat) (h : HeapState) : Nat × HeapState :=
  let h := coalesceNext blk h
  if h.get .prev blk ≠ 0 ∧ h.get .free (h.get .prev blk) ≠ 0 then
    let h := if h.rover = blk then h.withRover (h.get .prev blk) else h
    let h := flRemove blk h
    let surv := h.get .prev blk
    (surv, markFree surv (absorb surv blk h))
  else (blk, markFree blk h)

/-! ## The interface -/

/-- `memcpy(p + req, &canary, 8)`. -/
def putCanary (p req : Nat) (h : HeapState) : HeapState :=
  { h with mem := storeLE h.mem ((p + req) % 2 ^ 64) 8 HEAP_CANARY_QWORD }

/-- The walk of `kmalloc_nolock` along the free list to the first block that fits. The outer
`none` is a walk that has made as many steps as the heap has bytes and is not done. -/
def firstFit (h : HeapState) (size : Nat) : Nat → Nat → Option Nat
  | _, 0 => some 0
  | 0, _ + 1 => none
  | n + 1, c + 1 =>
    if h.get .free (c + 1) ≠ 0 ∧ h.get .magic (c + 1) = HEAP_MAGIC_FREE
        ∧ size ≤ h.get .size (c + 1) then some (c + 1)
    else firstFit h size n (h.get .freeNext (c + 1))

/-- `heap_used_now += n; if (heap_used_now > heap_peak) heap_peak = heap_used_now`. -/
def countUsed (n : Nat) (h : HeapState) : HeapState :=
  let used := (h.used + n) % 2 ^ 64
  { h with used := used, peak := if h.peak < used then used else h.peak }

/-- `if (heap_used_now >= n) heap_used_now -= n; else heap_used_now = 0`. -/
def discountUsed (n : Nat) (h : HeapState) : HeapState :=
  { h with used := if n ≤ h.used then h.used - n else 0 }

/-- The tags `kmalloc_nolock` writes into the block it returns; `caller` is
`__builtin_return_address(1)`. -/
def tagAlloc (cur req caller : Nat) (h : HeapState) : HeapState :=
  let h := h.put .free cur 0
  let h := h.put .magic cur HEAP_MAGIC_ALLOC
  let h := h.put .reqSize cur req
  let h := h.put .freeNext cur 0
  let h := h.put .freePrev cur 0
  h.put .allocCaller cur caller

/-- What `kmalloc_nolock` does with the block it has found. -/
def takeBlock (cur size req caller : Nat) (h : HeapState) : Nat × HeapState :=
  let h := flRemove cur h
  let h := splitBlock cur size h
  let h := tagAlloc cur req caller h
  let h := countUsed (h.get .size cur) h
  let p := cur + HDR
  let h := putCanary p req h
  (p, h.withRover (if h.get .next cur ≠ 0 then h.get .next cur else h.head))

/-- `kmalloc_nolock`; the null pointer is `0`. -/
def kmallocNolock (req caller : Nat) (h : HeapState) : Option (Nat × HeapState) :=
  if h.head = 0 ∨ req = 0 then some (0, h)
  else
    let size := align16 (req + 8)
    match firstFit h size h.capacity h.freeHead with
    | none => none
    | some 0 => some (0, h)
    | some cur => some (takeBlock cur size req caller h)

def kcalloc (num size caller : Nat) (h : HeapState) : Option (Nat × HeapState) :=
  let total := num * size % 2 ^ 64
  (kmallocNolock total caller h).map fun r => if r.1 = 0 then r else (r.1, r.2.memset r.1 0 total)

/-- The tags `kfree_nolock` writes. -/
def tagFreed (blk : Nat) (h : HeapState) : HeapState :=
  let h := h.put .free blk 1
  let h := h.put .magic blk HEAP_MAGIC_FREE
  let h := h.put .freeNext blk 0
  h.put .freePrev blk 0

/-- `kfree_nolock`. A damaged canary is reported and the block freed all the same. -/
def kfreeNolock (ptr : Nat) (h : HeapState) : HeapState :=
  if ptr = 0 then h
  else if heapPtrInRange h ptr = false then h
  else
    let blk := ptr - HDR
    if heapPtrInRange h blk = false then h
    else if h.get .magic blk ≠ HEAP_MAGIC_ALLOC ∨ h.get .free blk ≠ 0 then h
    else
      let h := tagFreed blk h
      let h := discountUsed (h.get .size blk) h
      let hadFreePrev := h.get .prev blk ≠ 0 ∧ h.get .free (h.get .prev blk) ≠ 0
      let r := coalesce blk h
      if hadFreePrev then r.2 else flInsert r.1 r.2

/-- The scan of `krealloc_nolock` over the free blocks after `blk`: the accumulated size, the
last block counted, and the rover. -/
def growScan (h : HeapState) (blk newSize : Nat) :
    Nat → Nat → Nat → Nat → Nat → Option (Nat × Nat × Nat)
  | _, 0, acc, last, rover => some (acc, last, rover)
  | 0, _ + 1, _, _, _ => none
  | n + 1, s + 1, acc, last, rover =>
    if h.get .free (s + 1) = 0 ∨ h.get .magic (s + 1) ≠ HEAP_MAGIC_FREE then
      some (acc, last, rover)
    else
      let rover := if rover = s + 1 then blk else rover
      let acc := (acc + HDR + h.get .size (s + 1)) % 2 ^ 64
      if newSize ≤ acc then some (acc, s + 1, rover)
      else growScan h blk newSize n (h.get .next (s + 1)) acc (s + 1) rover

/-- The loop that takes the absorbed blocks off the free list. -/
def dropAbsorbed (after : Nat) : Nat → Nat → HeapState → Option HeapState
  | _, 0, h => some h
  | 0, g + 1, h => if g + 1 = after then some h else none
  | n + 1, g + 1, h =>
    if g + 1 = after then some h
    else
      let nx := h.get .next (g + 1)
      dropAbsorbed after n nx (flRemove (g + 1) h)

/-- `req_size`, `alloc_caller` and the canary of a block resized in place. -/
def retag (blk newReq caller : Nat) (h : HeapState) : HeapState :=
  let h := h.put .reqSize blk newReq
  let h := h.put .allocCaller blk caller
  putCanary (blk + HDR) newReq h

/-- The shrinking branch of `krealloc_nolock`. -/
def reallocShrink (blk newSize newReq caller : Nat) (h : HeapState) : HeapState :=
  let oldSize := h.get .size blk
  let h := splitBlock blk newSize h
  let h :=
    if h.get .size blk < oldSize then discountUsed (oldSize - h.get .size blk) h else h
  retag blk newReq caller h

/-- Growing in place: the blocks up to `last` have been found to suffice. -/
def reallocGrow (blk newSize newReq caller acc last : Nat) (h : HeapState) : Option HeapState :=
  let oldSize := h.get .size blk
  let after := if last ≠ 0 then h.get .next last else 0
  match dropAbsorbed after h.capacity (h.get .next blk) h with
  | none => none
  | some h =>
    let h := h.put .size blk acc
    let h := h.put .next blk after
    let h := h.putIf .prev after blk
    let h := splitBlock blk newSize h
    let h := countUsed (newSize - oldSize) h
    some (retag blk newReq caller h)

/-- Moving to a new block. -/
def reallocMove (ptr blk newReq caller : Nat) (h : HeapState) : Option (Nat × HeapState) :=
  let oldReq := h.get .reqSize blk
  match kmallocNolock newReq caller h with
  | none => none
  | some (0, h) => some (0, h)
  | some (n, h) =>
    let h := h.memcpy n ptr (min oldReq newReq)
    let h := kfreeNolock ptr h
    let h := if heapPtrInRange h (n - HDR) then h.put .allocCaller (n - HDR) caller else h
    some (n, h)

def kreallocNolock (ptr newReq caller : Nat) (h : HeapState) : Option (Nat × HeapState) :=
  if ptr = 0 then kmallocNolock newReq caller h
  else if newReq = 0 then some (0, kfreeNolock ptr h)
  else if heapPtrInRange h ptr = false then some (0, h)
  else
    let blk := ptr - HDR
    if heapPtrInRange h blk = false ∨ h.get .magic blk ≠ HEAP_MAGIC_ALLOC ∨ h.get .free blk ≠ 0 then
      some (0, h)
    else
      let newSize := align16 (newReq + 8)
      if newSize ≤ h.get .size blk then some (ptr, reallocShrink blk newSize newReq caller h)
      else if h.get .next blk ≠ 0 ∧ h.get .free (h.get .next blk) ≠ 0 then
        match growScan h blk newSize h.capacity (h.get .next blk) (h.get .size blk) 0 h.rover with
        | none => none
        | some (acc, last, rover) =>
          let h := h.withRover rover
          if newSize ≤ acc then
            (reallocGrow blk newSize newReq caller acc last h).map fun h => (ptr, h)
          else reallocMove ptr blk newReq caller h
      else reallocMove ptr blk newReq caller h

end AxonOS.Heap

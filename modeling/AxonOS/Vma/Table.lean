import AxonOS.Lib.Loop

/-! # VMA tables

The records of `mm/user_vma.c` and the operations on them that `user_vma_unmap_range` is
made of. Two stores hold records of the same shape: the global table `g_user_vmas`, whose
records are keyed by a thread id, and one table per address space (`mm->vma_storage`). Both
are arrays of `USER_VMA_MAX` slots in the kernel; here a table is a list of slots of any
length, and a loop over the array is a loop over the length of the list.

Addresses and lengths are natural numbers below `2^64`; every sum the code forms in
`uintptr_t` is reduced modulo `2^64`.
-/

namespace AxonOS.Vma

open Lib

abbrev FileId := Nat
abbrev MmId := Nat

/-- `USER_VMA_KIND_*`; a slot that was never written has kind `unset` (`0`). -/
inductive VmaKind where
  | unset
  | mmap
  | shm
  | mmapLazy
  | elfLoad
  deriving DecidableEq, Repr

/-- `user_vma_t`. -/
structure UserVma where
  used : Bool
  tid : Nat
  addr : Nat
  len : Nat
  prot : Nat
  kind : VmaKind
  file : Option FileId
  fileOff : Nat
  deriving DecidableEq, Repr

instance : Inhabited UserVma := ⟨⟨false, 0, 0, 0, 0, .unset, none, 0⟩⟩

/-- `v->addr + v->len`, as `uintptr_t` computes it. -/
def UserVma.vend (v : UserVma) : Nat := (v.addr + v.len) % 2 ^ 64

/-- The fields of `thread_t` the VMA code reads. -/
structure Thread where
  tid : Nat
  ring : Nat
  mm : Option MmId
  deriving DecidableEq, Repr

/-- A table together with the file reference counts its operations change. -/
structure Slots where
  vmas : List UserVma
  refs : FileId → Int

/-- The state the VMA code works on: the thread table (`threads`, `thread_count`), the global
store, the store of every address space, and the reference count of every open file. -/
structure VmaState where
  threads : List (Option Thread)
  threadCount : Nat
  global : List UserVma
  storage : MmId → Option (List UserVma)
  fileRefs : FileId → Int

def MAX_THREADS : Nat := 512

/-- `thread_get((int)tid)`: the low 32 bits as a signed number, so that everything from
`MAX_THREADS` up, the negative half included, is no thread. -/
def threadGet (w : VmaState) (tid : Nat) : Option Thread :=
  let pid := tid % 2 ^ 32
  if MAX_THREADS ≤ pid then none
  else
    match w.threads[pid]? with
    | some (some t) => if t.tid = pid then some t else none
    | _ => none

def threadGetByIndex (w : VmaState) (idx : Nat) : Option Thread :=
  if w.threadCount ≤ idx then none else (w.threads[idx]?).join

/-- `(uint64_t)(t->tid ? t->tid : 1)`. -/
def Thread.recordTid (t : Thread) : Nat := if t.tid = 0 then 1 else t.tid

def userVmaTidMatchesRunnerMmNolock (w : VmaState) (runner : Option Thread) (recordTid : Nat) :
    Bool :=
  match runner with
  | none => recordTid == 1
  | some r =>
    match r.mm with
    | none => r.recordTid == recordTid
    | some mm =>
      (List.range w.threadCount).any fun j =>
        match threadGetByIndex w j with
        | none => false
        | some u => u.ring == 3 && u.mm == some mm && u.recordTid == recordTid

/-! ## References to files -/

def fsFileGet (refs : FileId → Int) : Option FileId → FileId → Int
  | none => refs
  | some f => fun g => if g = f then refs g + 1 else refs g

/-- `fs_file_free`, as far as the count goes: the last holder also destroys the object. -/
def fsFileFree (refs : FileId → Int) : Option FileId → FileId → Int
  | none => refs
  | some f => fun g => if g = f then refs g - 1 else refs g

/-- `user_vma_drop_file_nolock`, on the record. -/
def UserVma.dropFile (v : UserVma) : UserVma :=
  match v.file with
  | none => v
  | some _ => { v with file := none, fileOff := 0 }

/-- `user_vma_clear_nolock`, on the record. -/
def UserVma.clear (v : UserVma) : UserVma :=
  if v.used then { v.dropFile with used := false } else v

/-- `user_vma_clear_nolock(&vmas[i])`. -/
def userVmaClearNolock (i : Nat) (s : Slots) : Slots :=
  let v := s.vmas.getD i default
  { vmas := s.vmas.set i v.clear
    refs := if v.used then fsFileFree s.refs v.file else s.refs }

/-! ## Adding and splitting by thread id -/

/-- `user_vma_find_containing_nolock`: the index of the first record that contains `va`. -/
def userVmaFindContainingNolock (tid va : Nat) (t : List UserVma) : Option Nat :=
  t.findIdx? fun v => v.used && v.tid == tid && decide (v.addr ≤ va) && decide (va < v.vend)

def freeSlot (t : List UserVma) : Option Nat := t.findIdx? fun v => !v.used

/-- `user_vma_add_nolock`: an equal record takes the new protection, otherwise the first free
slot is filled. -/
def userVmaAddNolock (tid addr len prot : Nat) (kind : VmaKind) (t : List UserVma) :
    Int × List UserVma :=
  match t.findIdx? fun v =>
      v.used && v.tid == tid && v.addr == addr && v.len == len && v.kind == kind with
  | some i => (0, t.set i { t.getD i default with prot := prot })
  | none =>
    match freeSlot t with
    | some i => (0, t.set i ⟨true, tid, addr, len, prot, kind, none, 0⟩)
    | none => (-1, t)

/-- `user_vma_split_at_nolock`. The record that receives the file is looked up again, while
the record being split still has its old length. -/
def userVmaSplitAtNolock (tid splitVa : Nat) (s : Slots) : Int × Slots :=
  match userVmaFindContainingNolock tid splitVa s.vmas with
  | none => (0, s)
  | some i =>
    let v := s.vmas.getD i default
    if splitVa = v.addr ∨ v.vend ≤ splitVa then (0, s)
    else
      let leftLen := splitVa - v.addr
      let rightLen := v.len - leftLen
      match userVmaAddNolock tid splitVa rightLen v.prot v.kind s.vmas with
      | (0, t) =>
        let (t', refs) :=
          match userVmaFindContainingNolock tid splitVa t, v.file with
          | some j, some f =>
            (t.set j { t.getD j default with
                file := some f, fileOff := (v.fileOff + leftLen) % 2 ^ 64 },
              fsFileGet s.refs (some f))
          | _, _ => (t, s.refs)
        (0, { vmas := t'.set i { t'.getD i default with len := leftLen }, refs := refs })
      | (_, t) => (-1, { s with vmas := t })

/-! ## Splitting every record of an address space -/

/-- `split_va` is strictly inside the record. -/
def UserVma.straddles (splitVa : Nat) (v : UserVma) : Bool :=
  decide (v.addr < splitVa) && decide (splitVa < v.vend)

/-- The right part of a split record: the copy in the free slot. -/
def UserVma.rightOf (splitVa : Nat) (v : UserVma) : UserVma :=
  { v with
    addr := splitVa
    len := v.vend - splitVa
    fileOff := if v.file.isSome then (v.fileOff + (splitVa - v.addr)) % 2 ^ 64 else v.fileOff }

/-- The left part, which stays in the slot of the record. -/
def UserVma.leftOf (splitVa : Nat) (v : UserVma) : UserVma := { v with len := splitVa - v.addr }

/-- One iteration of the split loops. `owns` is the test on the record's thread id. -/
def splitStep (owns : Nat → Bool) (splitVa i : Nat) (s : Slots) : Flow Slots Int :=
  let v := s.vmas.getD i default
  if !v.used || !owns v.tid then .next s
  else if !v.straddles splitVa then .next s
  else
    match freeSlot s.vmas with
    | none => .ret (-1) s
    | some j =>
      .next
        { vmas := (s.vmas.set j (v.rightOf splitVa)).set i (v.leftOf splitVa)
          refs := fsFileGet s.refs v.file }

/-- The loop the two split functions share. -/
def splitOwnedAt (owns : Nat → Bool) (splitVa : Nat) (s : Slots) : Int × Slots :=
  match forLoop (splitStep owns splitVa) s.vmas.length 0 s with
  | .next s' => (0, s')
  | .ret r s' => (r, s')

def userVmaSplitRunnerAtNolock (w : VmaState) (runner : Option Thread) (splitVa : Nat)
    (s : Slots) : Int × Slots :=
  match runner with
  | none => (-1, s)
  | some r => splitOwnedAt (userVmaTidMatchesRunnerMmNolock w (some r)) splitVa s

/-- `user_vma_split_mm_at_nolock`: in the store of an address space every record counts. -/
def userVmaSplitMmAtNolock (splitVa : Nat) (s : Slots) : Int × Slots :=
  splitOwnedAt (fun _ => true) splitVa s

/-! ## The capacity check -/

/-- One iteration of the counting loop; the accumulator is `(free, need)`. -/
def capacityStep (owns : Nat → Bool) (addr fin : Nat) (acc : Nat × Nat) (v : UserVma) : Nat × Nat :=
  if !v.used then (acc.1 + 1, acc.2)
  else if !owns v.tid then acc
  else
    (acc.1, acc.2 + (if v.straddles addr then 1 else 0) + (if v.straddles fin then 1 else 0))

/-- `(free, need)` of a table for the two ends of a range. -/
def capacity (owns : Nat → Bool) (addr fin : Nat) (t : List UserVma) : Nat × Nat :=
  t.foldl (capacityStep owns addr fin) (0, 0)

def userVmaUnmapCapacityNolock (w : VmaState) (owner : Option Thread) (addr fin : Nat) : Int :=
  let owns : Nat → Bool := fun tid =>
    owner.isSome && userVmaTidMatchesRunnerMmNolock w owner tid
  let g := capacity owns addr fin w.global
  if g.2 > g.1 then -1
  else
    match (owner.bind (·.mm)).bind w.storage with
    | none => 0
    | some mmVmas =>
      let c := capacity (fun _ => true) addr fin mmVmas
      if c.2 > c.1 then -1 else 0

/-! ## Unmapping -/

/-- One iteration of the clearing loop on one table. -/
def clearStep (owns : Nat → Bool) (addr fin i : Nat) (s : Slots) : Flow Slots Int :=
  let v := s.vmas.getD i default
  if v.used && owns v.tid && !(decide (v.vend ≤ addr) || decide (fin ≤ v.addr)) then
    .next (userVmaClearNolock i s)
  else .next s

def clearOwnedIn (owns : Nat → Bool) (addr fin : Nat) (s : Slots) : Slots :=
  match forLoop (clearStep owns addr fin) s.vmas.length 0 s with
  | .next s' => s'
  | .ret _ s' => s'

def VmaState.withGlobal (w : VmaState) (s : Slots) : VmaState :=
  { w with global := s.vmas, fileRefs := s.refs }

def VmaState.withStorage (w : VmaState) (mm : MmId) (s : Slots) : VmaState :=
  { w with
    storage := fun m => if m = mm then some s.vmas else w.storage m
    fileRefs := s.refs }

def userVmaCanUnmapRange (w : VmaState) (tid addr len : Nat) : Int :=
  if len = 0 ∨ (addr + len) % 2 ^ 64 < addr then -1
  else
    match threadGet w tid with
    | none => 0
    | some owner => userVmaUnmapCapacityNolock w (some owner) addr ((addr + len) % 2 ^ 64)

/-- The four splits of `user_vma_unmap_range`, in the order of the code; each one that fails
ends the chain and leaves what the earlier ones have done. -/
def unmapSplits (w : VmaState) (owner : Thread) (mm : MmId) (addr fin : Nat) : Int × VmaState :=
  match userVmaSplitRunnerAtNolock w (some owner) addr ⟨w.global, w.fileRefs⟩ with
  | (0, g1) =>
    match userVmaSplitRunnerAtNolock w (some owner) fin g1 with
    | (0, g2) =>
      let w1 := w.withGlobal g2
      match w.storage mm with
      | none => (0, w1)
      | some mmVmas =>
        match userVmaSplitMmAtNolock addr ⟨mmVmas, g2.refs⟩ with
        | (0, m1) =>
          match userVmaSplitMmAtNolock fin m1 with
          | (0, m2) => (0, w1.withStorage mm m2)
          | (_, m2) => (-1, w1.withStorage mm m2)
        | (_, m1) => (-1, w1.withStorage mm m1)
    | (_, g2) => (-1, w.withGlobal g2)
  | (_, g1) => (-1, w.withGlobal g1)

/-- The clearing loop of `user_vma_unmap_range`. It treats slot `i` of the global store and
slot `i` of the mm store in one iteration; the two tables do not depend on each other and the
reference counts only add up, so the loop is written as one pass over each table. -/
def unmapClear (w : VmaState) (owner : Thread) (mm : MmId) (addr fin : Nat) : VmaState :=
  let g := clearOwnedIn (userVmaTidMatchesRunnerMmNolock w (some owner)) addr fin
    ⟨w.global, w.fileRefs⟩
  let w1 := w.withGlobal g
  match w.storage mm with
  | none => w1
  | some mmVmas => w1.withStorage mm (clearOwnedIn (fun _ => true) addr fin ⟨mmVmas, g.refs⟩)

def userVmaUnmapRange (w : VmaState) (tid addr len : Nat) : Int × VmaState :=
  let fin := (addr + len) % 2 ^ 64
  match threadGet w tid with
  | some ⟨otid, oring, some mm⟩ =>
    let owner : Thread := ⟨otid, oring, some mm⟩
    if userVmaUnmapCapacityNolock w (some owner) addr fin ≠ 0 then (-1, w)
    else
      match unmapSplits w owner mm addr fin with
      | (0, w1) => (0, unmapClear w1 owner mm addr fin)
      | (_, w1) => (-1, w1)
  | _ =>
    let s1 := (userVmaSplitAtNolock tid addr ⟨w.global, w.fileRefs⟩).2
    let s2 := (userVmaSplitAtNolock tid fin s1).2
    (0, w.withGlobal (clearOwnedIn (fun t => t == tid) addr fin s2))

end AxonOS.Vma

import AxonOS.Vma.Table

/-! # Registering mappings in both stores

`user_vma_add`, `user_vma_add_file` and `user_vma_grow` enter a mapping in the global store under
the thread id of the caller and in the store of the caller's address space; `user_vma_clone_mm`
copies the latter at fork. The store of an address space is allocated with the first mapping; it has
as many slots as the global one. `kmallocOk` says whether that allocation succeeds.
-/

namespace AxonOS.Vma

/-- `user_vma_mm_storage(mm, 1)`. -/
def userVmaMmStorage (kmallocOk : Bool) (w : VmaState) (mm : MmId) : Option (List UserVma) :=
  match w.storage mm with
  | some t => some t
  | none => if kmallocOk then some (List.replicate w.global.length default) else none

/-- The slots of an address space after `user_vma_add_mm`. -/
def addToSlots (addr len prot : Nat) (kind : VmaKind) (t : List UserVma) : Int × List UserVma :=
  match t.findIdx? fun v => v.used && v.addr == addr && v.len == len && v.kind == kind with
  | some i => (0, t.set i { t.getD i default with prot := prot })
  | none =>
    match freeSlot t with
    | some i => (0, t.set i ⟨true, 0, addr, len, prot, kind, none, 0⟩)
    | none => (-1, t)

def userVmaAddMm (kmallocOk : Bool) (w : VmaState) (mm : MmId) (addr len prot : Nat)
    (kind : VmaKind) : Int × VmaState :=
  match userVmaMmStorage kmallocOk w mm with
  | none => (-1, w)
  | some t =>
    let r := addToSlots addr len prot kind t
    (r.1, w.withStorage mm ⟨r.2, w.fileRefs⟩)

/-- `user_vma_add`. The result is the one of the global store. -/
def userVmaAdd (kmallocOk : Bool) (w : VmaState) (tid addr len prot : Nat) (kind : VmaKind) :
    Int × VmaState :=
  let r := userVmaAddNolock tid addr len prot kind w.global
  let w1 := w.withGlobal ⟨r.2, w.fileRefs⟩
  match (threadGet w tid).bind (·.mm) with
  | none => (r.1, w1)
  | some mm => (r.1, (userVmaAddMm kmallocOk w1 mm addr len prot kind).2)

/-- The record in slot `i` lets go of its file and takes another. -/
def replaceFile (i : Nat) (file : FileId) (fileOff : Nat) (s : Slots) : Slots :=
  let v := s.vmas.getD i default
  { vmas := s.vmas.set i { v with file := some file, fileOff := fileOff }
    refs := fsFileGet (fsFileFree s.refs v.file) (some file) }

/-- The second half of `user_vma_add_file`: the first record of the address space with this address
and length takes the file. -/
def attachFileMm (w : VmaState) (mm : MmId) (addr len : Nat) (file : FileId) (fileOff : Nat) :
    VmaState :=
  match w.storage mm with
  | none => w
  | some t =>
    match t.findIdx? fun v => v.used && v.addr == addr && v.len == len with
    | none => w
    | some i => w.withStorage mm (replaceFile i file fileOff ⟨t, w.fileRefs⟩)

/-- The kinds a file mapping may have; any other one becomes `MMAP_LAZY`. -/
def VmaKind.ofFile : VmaKind → VmaKind
  | .unset => .mmapLazy
  | k => k

/-- `user_vma_add_file`. In the global store the file goes to the first record that contains the
address. -/
def userVmaAddFile (kmallocOk : Bool) (w : VmaState) (tid addr len prot : Nat) (kind : VmaKind)
    (file : Option FileId) (fileOff : Nat) : Int × VmaState :=
  match file with
  | none => (-1, w)
  | some f =>
    if len = 0 then (-1, w)
    else
      match userVmaAddNolock tid addr len prot kind.ofFile w.global with
      | (0, t) =>
        match userVmaFindContainingNolock tid addr t with
        | none => (-1, w.withGlobal ⟨t, w.fileRefs⟩)
        | some i =>
          let w1 := w.withGlobal (replaceFile i f fileOff ⟨t, w.fileRefs⟩)
          match (threadGet w tid).bind (·.mm) with
          | none => (0, w1)
          | some mm =>
            (0, attachFileMm (userVmaAddMm kmallocOk w1 mm addr len prot kind.ofFile).2 mm
              addr len f fileOff)
      | (_, t) => (-1, w.withGlobal ⟨t, w.fileRefs⟩)

def setLen (i newLen : Nat) (t : List UserVma) : List UserVma :=
  t.set i { t.getD i default with len := newLen }

def userVmaGrow (w : VmaState) (runner : Option Thread) (addr oldLen newLen : Nat) :
    Int × VmaState :=
  match runner with
  | none => (-1, w)
  | some r =>
    if oldLen = 0 ∨ newLen < oldLen then (-1, w)
    else
      match w.global.findIdx? fun v => v.used && userVmaTidMatchesRunnerMmNolock w (some r) v.tid
          && v.addr == addr && v.len == oldLen with
      | none => (-1, w)
      | some i =>
        let w1 := w.withGlobal ⟨setLen i newLen w.global, w.fileRefs⟩
        match r.mm with
        | none => (0, w1)
        | some mm =>
          match w.storage mm with
          | none => (0, w1)
          | some t =>
            match t.findIdx? fun v => v.used && v.addr == addr && v.len == oldLen with
            | none => (0, w1)
            | some j => (0, w1.withStorage mm ⟨setLen j newLen t, w.fileRefs⟩)

def userVmaCloneMm (kmallocOk : Bool) (w : VmaState) (dst src : MmId) : Int × VmaState :=
  match w.storage src with
  | none => (0, w)
  | some source =>
    match userVmaMmStorage kmallocOk w dst with
    | none => (-1, w)
    | some _ =>
      (0, w.withStorage dst ⟨source,
        source.foldl (fun refs v => if v.used then fsFileGet refs v.file else refs) w.fileRefs⟩)

end AxonOS.Vma

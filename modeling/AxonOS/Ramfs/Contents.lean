import AxonOS.Arch.Word
import AxonOS.Lib.Run
import Mathlib.Data.List.GetD

/-! # Contents of ramfs files

`ramfs_read`, `ramfs_write` and `ramfs_ftruncate` of `ramfs.c` on the fields of a node that hold the
contents. The size may exceed the capacity (a hole at the end) and the capacity may exceed the size
(a geometric reserve); the data may be borrowed from the boot archive, until a call materialises
them. Times, generations and the page cache are left out, no node is a directory.

The answer of the heap to its `k`-th request is a parameter: a block with any bytes in it, or no
block. Against this stands a byte array (`Reference`), and the two are compared after every call.
-/

namespace AxonOS.Ramfs

open Lib List Option

/-- A byte count or position of the machine. -/
def SIZE_LIMIT : Nat := 2 ^ 64

/-! ## State -/

/-- What `n->data` points to, with all the bytes from there on. -/
inductive Data where
  | null
  | heap (bytes : Nat → UInt8)
  | archive (bytes : Nat → UInt8)

def Data.isNull : Data → Bool
  | .null => true
  | _ => false

def Data.byte : Data → Nat → UInt8
  | .null, _ => 0
  | .heap bytes, i => bytes i
  | .archive bytes, i => bytes i

theorem Data.byte_of_isNull {d : Data} (h : d.isNull = true) (i : Nat) : d.byte i = 0 := by
  cases d with
  | null => rfl
  | heap bytes | archive bytes => cases h

/-- The fields of `struct ramfs_node` that hold the contents; `asked` counts the requests to the
heap. -/
structure Node where
  data : Data
  dataBorrowed : Bool
  size : Nat
  capacity : Nat
  asked : Nat

def Node.empty : Node := ⟨.null, false, 0, 0, 0⟩

/-- After `ramfs_create_borrowed_file`. -/
def Node.borrowed (bytes : Nat → UInt8) (size : Nat) : Node :=
  if 0 < size then ⟨.archive bytes, true, size, size, 0⟩ else Node.empty

/-- The answers of the heap: to the `k`-th request, for `n` bytes, a block with some bytes in it, or
none. -/
def Heap : Type := Nat → Nat → Option (Nat → UInt8)

/-! ## The calls -/

/-- `ramfs_free_data_owned`. -/
def Node.freeDataOwned (n : Node) : Node :=
  if n.data.isNull then n else { n with data := .null, dataBorrowed := false, capacity := 0 }

/-- `ramfs_materialize_node_locked`. -/
def Node.materialize (h : Heap) (n : Node) : Int × Node :=
  if n.dataBorrowed = false then (0, n)
  else if n.size = 0 ∨ n.data.isNull then
    (0, { n with data := .null, dataBorrowed := false, capacity := 0 })
  else
    match h n.asked n.size with
    | none => (-ENOMEM, { n with asked := n.asked + 1 })
    | some fresh =>
      -- all `size` bytes are copied, whatever the capacity is
      (0, { n with
        data := .heap fun i => if i < n.size then n.data.byte i else fresh i
        dataBorrowed := false
        capacity := n.size
        asked := n.asked + 1 })

/-- `ramfs_ensure_heap_data_locked`; an archive pointer is what `heap_ptr_is_kmalloc` refuses. -/
def Node.ensureHeapData (h : Heap) (n : Node) : Int × Node :=
  if n.dataBorrowed then n.materialize h
  else
    match n.data with
    | .null => (0, n)
    | .heap _ => (0, n)
    | .archive _ =>
      if n.size = 0 then (0, { n with data := .null, capacity := 0 })
      else { n with dataBorrowed := true }.materialize h

/-- `krealloc(n->data, want)`: the old bytes up to the capacity, then whatever the block holds. -/
def Node.krealloc (h : Heap) (n : Node) (want : Nat) : Option (Nat → UInt8) :=
  match n.data with
  | .null => h n.asked want
  | .heap bytes => (h n.asked want).map fun fresh i => if i < n.capacity then bytes i else fresh i
  | .archive _ => none

/-- The geometric capacity: half as much again until `needed` fits. -/
def growCapacity (needed cap : Nat) : Nat :=
  if h : needed ≤ cap then cap
  else if hnext : (cap + cap / 2) % SIZE_LIMIT ≤ cap then needed
  else growCapacity needed ((cap + cap / 2) % SIZE_LIMIT)
termination_by needed - cap

/-- A block of `cap` bytes with the old data, zero behind the old capacity. -/
def Node.enlarge (h : Heap) (n : Node) (cap : Nat) : Option Node :=
  (n.krealloc h cap).map fun block =>
    let oldCap := if n.data.isNull then 0 else n.capacity
    { n with
      data := .heap fun i => if oldCap ≤ i ∧ i < cap then 0 else block i
      capacity := cap
      asked := n.asked + 1 }

/-- Room for `needed` bytes: the geometric capacity, or if that is refused exactly what is
needed. -/
def Node.reserve (h : Heap) (n : Node) (needed : Nat) : Option Node :=
  if needed ≤ n.capacity then some n
  else
    let cap := growCapacity needed (if n.capacity = 0 then 4096 else n.capacity)
    match n.enlarge h cap with
    | some n' => some n'
    | none => if needed < cap then { n with asked := n.asked + 1 }.enlarge h needed else none

/-- A write past the end: zeros up to the end of the write, as far as the capacity goes. -/
def Node.extendTo (n : Node) (needed : Nat) : Node :=
  if needed ≤ n.size then n
  else
    { n with
      data := match n.data with
        | .heap bytes =>
          .heap fun i => if n.size ≤ i ∧ i < min needed n.capacity then 0 else bytes i
        | d => d
      size := needed }

def Node.store (n : Node) (pos : Nat) (chunk : List UInt8) : Node :=
  { n with
    data := match n.data with
      | .heap bytes =>
        .heap fun i => if pos ≤ i ∧ i < pos + chunk.length then chunk.getD (i - pos) 0 else bytes i
      | d => d }

def CHUNK : Nat := 64 * 1024

/-- The loop of `ramfs_write`. -/
def Node.writeLoop (h : Heap) (n : Node) (pos : Nat) (data : List UInt8) : Int × Node :=
  if _hdata : data = [] then (0, n)
  else
    let chunk := data.take CHUNK
    let neededEnd := (pos + chunk.length) % SIZE_LIMIT
    if neededEnd < pos then (-1, n)
    else
      match n.reserve h neededEnd with
      | none => (-ENOMEM, n)
      | some n' => ((n'.extendTo neededEnd).store pos chunk).writeLoop h neededEnd (data.drop CHUNK)
termination_by data.length
decreasing_by
  have : data.length ≠ 0 := fun h0 => _hdata (length_eq_zero_iff.mp h0)
  simp only [length_drop, CHUNK]
  omega

def ramfsWrite (h : Heap) (n : Node) (data : List UInt8) (offset : Nat) : Int × Node :=
  let e := n.ensureHeapData h
  if e.1 ≠ 0 then (-ENOMEM, e.2)
  else
    let w := e.2.writeLoop h offset data
    (if w.1 = 0 then data.length else w.1, w.2)

/-- `ramfs_ftruncate`; `owner` says that the caller owns the file or is root. -/
def ramfsFtruncate (h : Heap) (n : Node) (owner : Bool) (length : Int) : Int × Node :=
  if length < 0 ∨ owner = false then (-22, n)
  else
    let newsize := length.toNat
    if newsize = n.size then (0, n)
    else if newsize = 0 then (0, { n.freeDataOwned with size := 0 })
    else if newsize < n.size then
      let e := n.ensureHeapData h
      if e.1 ≠ 0 then (-12, e.2)
      else
        match e.2.krealloc h newsize with
        | none => (-12, { e.2 with asked := e.2.asked + 1 })
        | some d =>
          (0, { e.2 with
            data := .heap d, size := newsize, capacity := newsize, asked := e.2.asked + 1 })
    -- a hole: no byte is stored
    else (0, { n with size := newsize })

/-- `ramfs_read` of `size` bytes. -/
def ramfsRead (n : Node) (size offset : Nat) : List UInt8 :=
  if n.size ≤ offset then []
  else
    let copy := if n.size < (offset + size) % SIZE_LIMIT then n.size - offset else size
    if n.data.isNull ∨ n.capacity ≤ offset then List.replicate copy 0
    else
      let avail := n.capacity - offset
      if copy ≤ avail then (List.range copy).map fun i => n.data.byte (offset + i)
      else ((List.range avail).map fun i => n.data.byte (offset + i))
        ++ List.replicate (copy - avail) 0

/-! ## The byte array -/

namespace Reference

/-- `data` over the bytes from `offset` on, zeros between the old end and `offset`. -/
def write (bytes data : List UInt8) (offset : Nat) : List UInt8 :=
  if data = [] then bytes
  else bytes.take offset ++ List.replicate (offset - bytes.length) 0 ++ data
    ++ bytes.drop (offset + data.length)

def truncate (bytes : List UInt8) (length : Nat) : List UInt8 :=
  bytes.take length ++ List.replicate (length - bytes.length) 0

def read (bytes : List UInt8) (size offset : Nat) : List UInt8 := (bytes.drop offset).take size

theorem length_write (bytes data : List UInt8) (offset : Nat) : (write bytes data offset).length =
      if data = [] then bytes.length else max bytes.length (offset + data.length) := by
  unfold write
  split
  · rfl
  · simp only [length_append, length_take, length_replicate, length_drop]
    omega

theorem getD_pad (bytes : List UInt8) (k i : Nat) :
    (bytes ++ List.replicate k 0).getD i 0 = bytes.getD i 0 := by
  simp only [getD_eq_getElem?_getD, getElem?_append, getElem?_replicate]
  split
  · rfl
  next h =>
    rw [getElem?_eq_none (Nat.le_of_not_lt h)]
    split <;> rfl

theorem getD_take (bytes : List UInt8) (k i : Nat) :
    (bytes.take k).getD i 0 = if i < k then bytes.getD i 0 else 0 := by
  simp only [getD_eq_getElem?_getD, getElem?_take]
  split <;> rfl

theorem getD_write (bytes data : List UInt8) (offset i : Nat) : (write bytes data offset).getD i 0 =
      if offset ≤ i ∧ i < offset + data.length then data.getD (i - offset) 0
          else bytes.getD i 0 := by
  by_cases h : data = []
  · rw [write, if_pos h, if_neg (by simp [h])]
  have hfront :
      (bytes.take offset ++ List.replicate (offset - bytes.length) 0).length = offset := by
    simp only [length_append, length_take, length_replicate]
    omega
  rw [write, if_neg h, append_assoc]
  by_cases hi : i < offset
  · rw [getD_append _ _ _ _ (by rw [hfront]; exact hi), getD_pad, getD_take, if_pos hi,
      if_neg (by omega)]
  rw [getD_append_right _ _ _ _ (by rw [hfront]; omega), hfront]
  by_cases hin : i < offset + data.length
  · rw [getD_append _ _ _ _ (by omega), if_pos ⟨by omega, hin⟩]
  · rw [getD_append_right _ _ _ _ (by omega), if_neg (by omega)]
    simp only [getD_eq_getElem?_getD, getElem?_drop]
    congr 2
    omega

theorem length_truncate (bytes : List UInt8) (length : Nat) :
    (truncate bytes length).length = length := by
  simp only [truncate, length_append, length_take, length_replicate]
  omega

theorem getD_truncate (bytes : List UInt8) (length i : Nat) :
    (truncate bytes length).getD i 0 = if i < length then bytes.getD i 0 else 0 := by
  rw [truncate, getD_pad, getD_take]

end Reference

/-! ## What a node shows -/

/-- The byte a read finds at `i`, behind the capacity 0. -/
def Node.view (n : Node) (i : Nat) : UInt8 := if i < n.capacity then n.data.byte i else 0

def Node.contents (n : Node) : List UInt8 := (List.range n.size).map n.view

/-- What the calls keep: borrowed data are archive data and end before the size, other data are heap
data, and nothing but zeros stands behind the size. -/
structure Inv (n : Node) : Prop where
  size_lt : n.size < SIZE_LIMIT
  borrowed : n.dataBorrowed = true → (∃ b, n.data = .archive b) ∧ n.capacity ≤ n.size
  owned : n.dataBorrowed = false → (n.data = .null ∧ n.capacity = 0) ∨ ∃ b, n.data = .heap b
  beyond : ∀ i, n.size ≤ i → n.view i = 0

variable {n n' : Node} {pos size needed offset length : Nat} {h : Heap} {data chunk : List UInt8}
    {b : Nat → UInt8}

theorem contents_eq_iff (hn : ∀ i, n.size ≤ i → n.view i = 0) {bytes : List UInt8} :
    n.contents = bytes ↔ n.size = bytes.length ∧ ∀ i, n.view i = bytes.getD i 0 := by
  have hget : ∀ i, n.contents.getD i 0 = n.view i := fun i => by
    by_cases hi : i < n.size
    · simp [Node.contents, hi]
    · simp [Node.contents, hi, hn i (Nat.le_of_not_lt hi)]
  constructor
  · rintro rfl
    exact ⟨by simp [Node.contents], fun i => (hget i).symm⟩
  · rintro ⟨hsize, hview⟩
    refine ext_getElem (by simp [Node.contents, hsize]) fun i h1 h2 => ?_
    have hi := (hget i).trans (hview i)
    rwa [getD_eq_getElem _ _ h1, getD_eq_getElem _ _ h2] at hi

/-! ### Reading -/

/-- Byte by byte: from the data below the capacity, zero behind it. -/
theorem ramfsRead_view (n : Node) (size offset : Nat) :
    ramfsRead n size offset = if n.size ≤ offset then [] else
      (List.range (if n.size < (offset + size) % SIZE_LIMIT then n.size - offset else size)).map
        fun i => n.view (offset + i) := by
  unfold ramfsRead
  split
  · rfl
  dsimp only
  generalize (if n.size < (offset + size) % SIZE_LIMIT then n.size - offset else size) = copy
  split
  next hnone =>
    refine ext_getElem (by simp) fun i h1 h2 => ?_
    rcases hnone with hnull | hcap
    · simp [Node.view, Data.byte_of_isNull hnull]
    · simp [Node.view, show ¬offset + i < n.capacity by omega]
  · split
    · refine map_congr_left fun i hi => ?_
      have hi' := mem_range.mp hi
      rw [Node.view, if_pos (by omega)]
    refine ext_getElem (by simp; omega) fun i h1 h2 => ?_
    rw [getElem_append]
    split
    next hin =>
      have hin' : i < n.capacity - offset := by simpa using hin
      simp [Node.view, show offset + i < n.capacity by omega]
    next hout =>
      have hout' : ¬i < n.capacity - offset := by simpa using hout
      simp [Node.view, show ¬offset + i < n.capacity by omega]

theorem ramfsRead_eq (h : offset < n.size → offset + size < SIZE_LIMIT) :
    ramfsRead n size offset = Reference.read n.contents size offset := by
  rw [ramfsRead_view, Reference.read]
  split
  next hend => simp [Node.contents, hend]
  next hoff =>
  rw [Nat.mod_eq_of_lt (h (Nat.lt_of_not_le hoff))]
  refine ext_getElem ?_ fun i h1 h2 => ?_
  · simp only [Node.contents, length_map, length_range, length_take, length_drop]
    split <;> omega
  · simp [Node.contents]

theorem ramfsRead_wrapped (hsize : n.size < SIZE_LIMIT) (hoff : offset < n.size)
    (hcount : size < SIZE_LIMIT) (hwrap : SIZE_LIMIT ≤ offset + size) :
    ramfsRead n size offset ≠ Reference.read n.contents size offset := by
  have hmod : (offset + size) % SIZE_LIMIT = offset + size - SIZE_LIMIT := by
    rw [Nat.mod_eq_sub_mod hwrap]
    exact Nat.mod_eq_of_lt (by omega)
  intro heq
  have hlen := congrArg List.length heq
  rw [ramfsRead_view, if_neg (Nat.not_le_of_lt hoff), hmod, if_neg (by omega)] at hlen
  simp [Reference.read, Node.contents] at hlen
  omega

/-! ### Writing -/

theorem le_growCapacity (needed cap : Nat) : needed ≤ growCapacity needed cap := by
  fun_induction growCapacity needed cap with
  | case1 cap h => exact h
  | case2 cap h hnext => exact le_rfl
  | case3 cap h hnext ih => exact ih

theorem ensureHeapData_owned (hn : Inv n) (howned : n.dataBorrowed = false) :
    n.ensureHeapData h = (0, n) := by
  unfold Node.ensureHeapData
  rcases hn.owned howned with ⟨hdata, -⟩ | ⟨b, hdata⟩
  · simp [howned, hdata]
  · simp [howned, hdata]

/-- Materialising shows all the bytes up to the size. -/
theorem ensureHeapData_borrowed {e : Int × Node} (hn : Inv n) (hborrowed : n.dataBorrowed = true)
    (he : n.ensureHeapData h = e) : e.1 = -ENOMEM ∨ e.1 = 0 ∧ Inv e.2 ∧ e.2.dataBorrowed = false ∧
      e.2.size = n.size ∧ e.2.capacity = n.size ∧ ∀ i, e.2.view i = if i < n.size then
      n.data.byte i else 0 := by
  subst he
  obtain ⟨⟨b, hdata⟩, hcap⟩ := hn.borrowed hborrowed
  unfold Node.ensureHeapData
  rw [if_pos hborrowed]
  unfold Node.materialize
  rw [if_neg (by simp [hborrowed])]
  split
  next hzero =>
    have hsize : n.size = 0 := by simpa [hdata, Data.isNull] using hzero
    refine .inr ⟨rfl, ⟨hn.size_lt, nofun, fun _ => .inl ⟨rfl, rfl⟩, ?_⟩, rfl, rfl,
      hsize.symm, ?_⟩
    · intro i hi
      simp [Node.view]
    · intro i
      simp [Node.view, hsize]
  · split
    · exact .inl rfl
    next fresh hfresh =>
    refine .inr ⟨rfl, ⟨hn.size_lt, nofun, fun _ => .inr ⟨_, rfl⟩, ?_⟩, rfl, rfl, rfl, ?_⟩
    · intro i hi
      simp [Node.view, hi]
    · intro i
      by_cases hi : i < n.size <;> simp [Node.view, hi, Data.byte]

/-- Enlarging changes nothing that shows. -/
theorem enlarge_spec {cap : Nat} (hn : Inv n) (howned : n.dataBorrowed = false)
    (hcap : n.capacity ≤ cap) (hrun : n.enlarge h cap = some n') :
    (∃ b, n'.data = .heap b) ∧ n'.dataBorrowed = false ∧ n'.capacity = cap ∧ ∀ i,
    n'.view i = n.view i := by
  obtain ⟨block, hblock, rfl⟩ := map_eq_some_iff.mp hrun
  refine ⟨⟨_, rfl⟩, howned, rfl, fun i => ?_⟩
  rcases hn.owned howned with ⟨hdata, hzero⟩ | ⟨b, hdata⟩
  · simp only [Node.view, hdata, Data.isNull, Data.byte, hzero]
    by_cases hi : i < cap <;> simp [hi]
  obtain ⟨fresh, -, rfl⟩ : ∃ fresh, h n.asked cap = some fresh ∧
      (fun i => if i < n.capacity then b i else fresh i) = block := by
    simpa [Node.krealloc, hdata] using hblock
  simp only [Node.view, hdata, Data.isNull, Data.byte]
  by_cases hi : i < n.capacity
  · simp [hi, Nat.not_le_of_lt hi, lt_of_lt_of_le hi hcap]
  · by_cases hi' : i < cap <;> simp [hi, hi', Nat.le_of_not_lt hi]

/-- A reserve is the node itself or an enlarged one. -/
theorem reserve_cases (hrun : n.reserve h needed = some n') : (needed ≤ n.capacity ∧ n' = n) ∨
      ∃ k cap, n.capacity < needed ∧ needed ≤ cap ∧
      { n with asked := k }.enlarge h cap = some n' := by
  unfold Node.reserve at hrun
  split at hrun
  next hfits =>
    cases hrun
    exact .inl ⟨hfits, rfl⟩
  next hfits =>
  have hlt := Nat.lt_of_not_le hfits
  have hle := le_growCapacity needed (if n.capacity = 0 then 4096 else n.capacity)
  simp only at hrun
  generalize growCapacity needed _ = cap at hle hrun
  split at hrun
  next n1 hn1 =>
    cases hrun
    exact .inr ⟨n.asked, cap, hlt, hle, hn1⟩
  · split at hrun
    · exact .inr ⟨n.asked + 1, needed, hlt, le_rfl, hrun⟩
    · cases hrun

theorem reserve_size (hrun : n.reserve h needed = some n') : n'.size = n.size := by
  rcases reserve_cases hrun with ⟨-, rfl⟩ | ⟨k, cap, -, -, henlarge⟩
  · rfl
  · obtain ⟨block, -, rfl⟩ := map_eq_some_iff.mp henlarge
    rfl

theorem reserve_spec (hn : Inv n) (howned : n.dataBorrowed = false) (hpos : 0 < needed)
    (hrun : n.reserve h needed = some n') :
    (∃ b, n'.data = .heap b) ∧ n'.dataBorrowed = false ∧ needed ≤ n'.capacity ∧ ∀ i,
    n'.view i = n.view i := by
  rcases reserve_cases hrun with ⟨hfits, rfl⟩ | ⟨k, cap, hlt, hle, henlarge⟩
  · refine ⟨?_, howned, hfits, fun _ => rfl⟩
    rcases hn.owned howned with ⟨-, hzero⟩ | hheap
    · omega
    · exact hheap
  · have hn' : Inv { n with asked := k } := { hn with }
    obtain ⟨hdata, hb, hcap, hview⟩ := enlarge_spec hn' howned (hlt.le.trans hle) henlarge
    exact ⟨hdata, hb, hcap ▸ hle, hview⟩

/-- Behind the size there are zeros already, so extending changes nothing that shows. -/
theorem extendTo_spec (hdata : n.data = .heap b) (hbeyond : ∀ i, n.size ≤ i → n.view i = 0)
    (needed : Nat) :
    (∃ b', (n.extendTo needed).data = .heap b') ∧ (n.extendTo needed).capacity = n.capacity ∧
      (n.extendTo needed).dataBorrowed = n.dataBorrowed ∧
      (n.extendTo needed).size = max n.size needed ∧ ∀ i,
      (n.extendTo needed).view i = n.view i := by
  unfold Node.extendTo
  split
  next hle => exact ⟨⟨b, hdata⟩, rfl, rfl, (Nat.max_eq_left hle).symm, fun _ => rfl⟩
  next hle =>
  refine ⟨⟨_, by rw [hdata]⟩, rfl, rfl, (Nat.max_eq_right (Nat.le_of_not_le hle)).symm, fun i => ?_⟩
  simp only [Node.view, hdata, Data.byte] at hbeyond ⊢
  by_cases hi : n.size ≤ i
  · have hzero := hbeyond i hi
    by_cases hcap : i < n.capacity
    · simp only [hcap, if_true] at hzero ⊢
      simp [hzero]
    · simp [hcap]
  · simp [hi]

theorem store_spec (hdata : n.data = .heap b) (hcap : pos + chunk.length ≤ n.capacity) :
    (∃ b', (n.store pos chunk).data = .heap b') ∧
      ∀ i, (n.store pos chunk).view i =
        if pos ≤ i ∧ i < pos + chunk.length then chunk.getD (i - pos) 0 else n.view i := by
  refine ⟨⟨fun i => if pos ≤ i ∧ i < pos + chunk.length then chunk.getD (i - pos) 0 else b i, ?_⟩,
    fun i => ?_⟩
  · simp only [Node.store, hdata]
  · simp only [Node.view, Node.store, hdata, Data.byte]
    by_cases hi : pos ≤ i ∧ i < pos + chunk.length
    · simp [hi, show i < n.capacity by omega]
    · simp [hi]

theorem chunk_spec (hn : Inv n) (howned : n.dataBorrowed = false) (hchunk : chunk ≠ [])
    (hend : pos + chunk.length < SIZE_LIMIT) (hrun : n.reserve h (pos + chunk.length) = some n') :
    let m := (n'.extendTo (pos + chunk.length)).store pos chunk
    Inv m ∧ m.dataBorrowed = false ∧ m.size = max n.size (pos + chunk.length) ∧
      ∀ i, m.view i = if pos ≤ i ∧ i < pos + chunk.length then chunk.getD (i - pos) 0
      else n.view i := by
  intro m
  have hlen : 0 < chunk.length := length_pos_iff.mpr hchunk
  have hlt := hn.size_lt
  have hsize := reserve_size hrun
  obtain ⟨⟨b, hdata⟩, hb, hcap, hview⟩ := reserve_spec hn howned (by omega) hrun
  have hbeyond : ∀ i, n'.size ≤ i → n'.view i = 0 := fun i hi => by
    rw [hview]
    exact hn.beyond i (hsize ▸ hi)
  obtain ⟨⟨b1, hdata1⟩, hcap1, hb1, hsize1, hview1⟩ :=
    extendTo_spec hdata hbeyond (pos + chunk.length)
  obtain ⟨hdata2, hview2⟩ := store_spec hdata1 (hcap1.symm ▸ hcap : pos + chunk.length ≤ _)
  have hsize2 : m.size = max n.size (pos + chunk.length) := hsize ▸ hsize1
  have hfalse : m.dataBorrowed = false := hb1.trans hb
  simp only [hview1, hview] at hview2
  refine ⟨⟨?_, fun h => ?_, fun _ => .inr hdata2, fun i hi => ?_⟩, hfalse, hsize2, hview2⟩
  · exact hsize2.trans_lt (max_lt hlt hend)
  · rw [hfalse] at h
    cases h
  · have hi' : max n.size (pos + chunk.length) ≤ i := hsize2 ▸ hi
    rw [hview2, if_neg (by omega)]
    exact hn.beyond i (by omega)

theorem writeLoop_spec (hn : Inv n) (howned : n.dataBorrowed = false)
    (hend : data ≠ [] → pos + data.length < SIZE_LIMIT)
    (hrun : (n.writeLoop h pos data).1 ≠ -ENOMEM) :
    let m := (n.writeLoop h pos data).2
    (n.writeLoop h pos data).1 = 0 ∧ Inv m ∧
      m.size = (if data = [] then n.size else max n.size (pos + data.length)) ∧
      ∀ i, m.view i = if pos ≤ i ∧ i < pos + data.length then data.getD (i - pos) 0
      else n.view i := by
  fun_induction Node.writeLoop h n pos data with
  | case1 n pos =>
    refine ⟨rfl, hn, by simp, fun i => ?_⟩
    rw [if_neg (by simp)]
  | case2 n pos data hdata chunk neededEnd hwrap =>
    have hlt := hend hdata
    have hle : chunk.length ≤ data.length := by simp [chunk]
    have heq : neededEnd = pos + chunk.length := Nat.mod_eq_of_lt (by omega)
    omega
  | case3 n pos data hdata chunk neededEnd hwrap hnone => exact absurd rfl hrun
  | case4 n pos data hdata chunk neededEnd hwrap n' hsome ih =>
    have hlt := hend hdata
    have hlen : chunk.length = min CHUNK data.length := length_take
    have hdrop : (data.drop CHUNK).length = data.length - CHUNK := length_drop
    have heq : neededEnd = pos + chunk.length := Nat.mod_eq_of_lt (by omega)
    have hchunk : chunk ≠ [] := by
      have := length_pos_iff.mpr hdata
      intro hnil
      rw [hnil] at hlen
      simp [CHUNK] at hlen
      omega
    rw [heq] at hsome ih hrun ⊢
    obtain ⟨hinv, hfalse, hsize, hview⟩ := chunk_spec hn howned hchunk (by omega) hsome
    obtain ⟨hret, hinv', hsize', hview'⟩ := ih hinv hfalse (fun _ => by omega) hrun
    refine ⟨hret, hinv', ?_, fun i => ?_⟩
    · rw [hsize', if_neg hdata]
      split
      next hnil =>
        rw [hnil] at hdrop
        simp only [length_nil] at hdrop
        omega
      · omega
    · -- a byte of this chunk, of the rest, or neither
      rw [hview', hview]
      have hchunkAt : ∀ k, k < chunk.length → chunk.getD k 0 = data.getD k 0 := fun k hk => by
        have hk' : k < CHUNK := by omega
        simp [chunk, hk']
      have hrestAt : ∀ k, (data.drop CHUNK).getD k 0 = data.getD (CHUNK + k) 0 := fun k => by
        simp [getD_eq_getElem?_getD]
      split_ifs with h1 h2 h3 h4 <;> try omega
      · rw [hrestAt]
        congr 1
        omega
      · exact hchunkAt _ (by omega)
      · rfl

theorem writeLoop_size_lt (hn : n.size < SIZE_LIMIT) :
    (n.writeLoop h pos data).2.size < SIZE_LIMIT := by
  fun_induction Node.writeLoop h n pos data with
  | case1 n pos => exact hn
  | case2 n pos data hdata chunk neededEnd hwrap
  | case3 n pos data hdata chunk neededEnd hwrap hnone =>
    exact hn
  | case4 n pos data hdata chunk neededEnd hwrap n' hsome ih =>
    refine ih ?_
    have hlt : neededEnd < SIZE_LIMIT := Nat.mod_lt _ (by decide)
    have hsize := reserve_size hsome
    simp only [Node.store, Node.extendTo]
    split
    · omega
    · exact hlt

/-- What a write or a shrinking finds behind the capacity of borrowed data. -/
def Node.base (n : Node) (i : Nat) : UInt8 :=
  if n.dataBorrowed then (if i < n.size then n.data.byte i else 0) else n.view i

theorem ensureHeapData_spec {e : Int × Node} (hn : Inv n) (he : n.ensureHeapData h = e) :
    e.1 = -ENOMEM ∨
    e.1 = 0 ∧ Inv e.2 ∧ e.2.dataBorrowed = false ∧ e.2.size = n.size ∧ ∀ i,
    e.2.view i = n.base i := by
  cases hb : n.dataBorrowed with
  | false =>
    obtain rfl := (ensureHeapData_owned hn hb).symm.trans he
    exact .inr ⟨rfl, hn, hb, rfl, fun i => by simp [Node.base, hb]⟩
  | true =>
    rcases ensureHeapData_borrowed hn hb he with hfail | ⟨hret, hinv, hfalse, hsize, -, hview⟩
    · exact .inl hfail
    · exact .inr ⟨hret, hinv, hfalse, hsize, fun i => by rw [hview, Node.base, if_pos hb]⟩

theorem ramfsWrite_spec (hn : Inv n) (hend : data ≠ [] → offset + data.length < SIZE_LIMIT)
    (hrun : (ramfsWrite h n data offset).1 ≠ -ENOMEM) :
    let m := (ramfsWrite h n data offset).2
    Inv m ∧ m.size = (if data = [] then n.size else max n.size (offset + data.length)) ∧ ∀ i,
        m.view i =
        if offset ≤ i ∧ i < offset + data.length then data.getD (i - offset) 0 else n.base i := by
  simp only [ramfsWrite] at hrun ⊢
  rcases ensureHeapData_spec hn rfl with hfail | ⟨hret, hinv, hfalse, hsize, hview⟩
  · rw [if_pos (by rw [hfail]; decide)] at hrun
    exact absurd rfl hrun
  rw [if_neg (not_not.mpr hret)] at hrun ⊢
  have hloop : ((n.ensureHeapData h).2.writeLoop h offset data).1 ≠ -ENOMEM := by
    intro hcode
    rw [hcode] at hrun
    exact hrun rfl
  obtain ⟨-, hinv', hsize', hview'⟩ := writeLoop_spec hinv hfalse hend hloop
  refine ⟨hinv', by rw [hsize', hsize], fun i => ?_⟩
  rw [hview', hview]

theorem ramfsWrite_size_lt (h : Heap) (data : List UInt8) (offset : Nat) (hn : Inv n) :
    (ramfsWrite h n data offset).2.size < SIZE_LIMIT ∨
    (ramfsWrite h n data offset).1 = -ENOMEM := by
  simp only [ramfsWrite]
  rcases ensureHeapData_spec hn rfl with hfail | ⟨hret, hinv, -, -, -⟩
  · rw [if_pos (by rw [hfail]; decide)]
    exact .inr rfl
  · rw [if_neg (not_not.mpr hret)]
    exact .inl (writeLoop_size_lt hinv.size_lt)

/-! ### Truncation -/

/-- The byte that a shrinking to `newsize` finds at `i`, behind the capacity: of borrowed data what
follows in memory, else what the new block holds. -/
def Node.found (h : Heap) (n : Node) (newsize i : Nat) : UInt8 :=
  if n.dataBorrowed then n.data.byte i
  else ((h n.asked newsize).map fun fresh => fresh i).getD 0

theorem freeDataOwned_spec (hn : Inv n) :
    n.freeDataOwned.data = .null ∧ n.freeDataOwned.dataBorrowed = false ∧
    n.freeDataOwned.capacity = 0 := by
  unfold Node.freeDataOwned
  split
  next hnull =>
    cases hb : n.dataBorrowed with
    | false =>
      rcases hn.owned hb with ⟨hdata, hcap⟩ | ⟨b, hdata⟩
      · exact ⟨hdata, rfl, hcap⟩
      · rw [hdata] at hnull
        cases hnull
    | true =>
      obtain ⟨⟨b, hdata⟩, -⟩ := hn.borrowed hb
      rw [hdata] at hnull
      cases hnull
  · exact ⟨rfl, rfl, rfl⟩

/-- The bytes of the block that a shrinking takes. -/
theorem krealloc_byte {i : Nat} {d : Nat → UInt8} (hn : Inv n) (hlt : length < n.size)
    (hret : (n.ensureHeapData h).1 = 0) (hd : (n.ensureHeapData h).2.krealloc h length = some d)
    (hi : i < length) :
    d i = if n.capacity ≤ i then n.found h length i else n.view i := by
  cases hb : n.dataBorrowed with
  | false =>
    rw [ensureHeapData_owned hn hb] at hd
    rcases hn.owned hb with ⟨hdata, hcap⟩ | ⟨b, hdata⟩
    · simp only [Node.krealloc, hdata] at hd
      simp [Node.found, hb, hd, hcap]
    · simp only [Node.krealloc, hdata] at hd
      obtain ⟨fresh, hfresh, rfl⟩ := map_eq_some_iff.mp hd
      by_cases hcap : n.capacity ≤ i
      · simp [Node.found, hb, hfresh, hcap]
      · simp [Node.view, hdata, Data.byte, hcap, Nat.lt_of_not_le hcap]
  | true =>
    -- after materialising, the capacity is the old size and no byte is new
    have hkept : ∀ m : Node, Inv m → m.dataBorrowed = false → i < m.capacity →
        m.krealloc h length = some d → d i = m.view i := by
      intro m hm hmb hcap hmd
      rcases hm.owned hmb with ⟨-, hzero⟩ | ⟨b, hdata⟩
      · omega
      · simp only [Node.krealloc, hdata] at hmd
        obtain ⟨fresh, -, rfl⟩ := map_eq_some_iff.mp hmd
        simp [Node.view, hdata, Data.byte, hcap]
    have hi' : i < n.size := hi.trans hlt
    rcases ensureHeapData_borrowed hn hb rfl with hfail | ⟨-, hinv, hfalse, -, hcap, hview⟩
    · exact absurd (hret.symm.trans hfail) (by decide)
    · rw [hkept _ hinv hfalse (by omega) hd, hview, if_pos hi', Node.found, if_pos hb]
      by_cases hcap' : n.capacity ≤ i
      · rw [if_pos hcap']
      · rw [if_neg hcap', Node.view, if_pos (Nat.lt_of_not_le hcap')]

theorem ramfsFtruncate_spec (hn : Inv n) (hlength : length < SIZE_LIMIT)
    (hrun : (ramfsFtruncate h n true length).1 ≠ -12) :
    let m := (ramfsFtruncate h n true length).2
    Inv m ∧ m.size = length ∧ ∀ i, m.view i = if length ≤ i then 0
        else if length < n.size ∧ n.capacity ≤ i then n.found h length i else n.view i := by
  have hneg : ¬((length : Int) < 0 ∨ true = false) := by simp
  simp only [ramfsFtruncate, if_neg hneg, Int.toNat_natCast] at hrun ⊢
  by_cases hsame : length = n.size
  · rw [if_pos hsame]
    refine ⟨hn, hsame.symm, fun i => ?_⟩
    by_cases hi : length ≤ i
    · simp [hi, hn.beyond i (hsame ▸ hi)]
    · rw [if_neg hi, if_neg (fun h => h.1.ne hsame)]
  · rw [if_neg hsame] at hrun ⊢
    by_cases hzero : length = 0
    · rw [if_pos hzero]
      obtain ⟨hdata, hborrowed, hcap⟩ := freeDataOwned_spec hn
      have hview : ∀ i, { n.freeDataOwned with size := 0 }.view i = 0 := fun i => by
        simp [Node.view, hcap]
      refine ⟨⟨hlength.trans_le' (Nat.zero_le _), fun hb => ?_, fun _ => .inl ⟨hdata, hcap⟩,
        fun i _ => hview i⟩, hzero.symm, fun i => ?_⟩
      · exact absurd (hborrowed.symm.trans hb) Bool.false_ne_true
      · rw [if_pos (by omega)]
        exact hview i
    · rw [if_neg hzero] at hrun ⊢
      by_cases hlt : length < n.size
      · rw [if_pos hlt] at hrun ⊢
        rcases ensureHeapData_spec hn rfl with hfail | ⟨hret, hinv, hfalse, hsize, hview⟩
        · rw [if_pos (by rw [hfail]; decide)] at hrun
          exact absurd rfl hrun
        rw [if_neg (not_not.mpr hret)] at hrun ⊢
        cases hd : (n.ensureHeapData h).2.krealloc h length with
        | none =>
          rw [hd] at hrun
          exact absurd rfl hrun
        | some d =>
          refine ⟨⟨hlength, fun hb => ?_, fun _ => .inr ⟨d, rfl⟩, fun i hi => ?_⟩, rfl, fun i => ?_⟩
          · exact absurd (hfalse.symm.trans hb) Bool.false_ne_true
          · simp [Node.view, Nat.not_lt_of_le hi]
          · by_cases hi : length ≤ i
            · simp [Node.view, hi, Nat.not_lt_of_le hi]
            · simp only [Node.view, Nat.lt_of_not_le hi, if_true, Data.byte, hi,
                if_false, hlt, true_and]
              exact krealloc_byte hn hlt hret hd (Nat.lt_of_not_le hi)
      · rw [if_neg hlt]
        refine ⟨⟨hlength, fun hb => ?_, hn.owned, fun i hi => ?_⟩, rfl, fun i => ?_⟩
        · exact ⟨(hn.borrowed hb).1, by have := (hn.borrowed hb).2; show n.capacity ≤ length; omega⟩
        · exact hn.beyond i (by have : length ≤ i := hi; omega)
        · by_cases hi : length ≤ i
          · rw [if_pos hi]
            exact hn.beyond i (by omega)
          · rw [if_neg hi, if_neg (fun h => hlt h.1)]
            rfl

/-! ## Runs -/

inductive Op where
  | write (data : List UInt8) (offset : Nat)
  | ftruncate (owner : Bool) (length : Int)
  | read (size offset : Nat)

/-- The file, the byte array, and what the reads of the two have returned. -/
structure State where
  node : Node
  bytes : List UInt8
  returned : List (List UInt8)
  expected : List (List UInt8)

def State.init (n : Node) : State := ⟨n, n.contents, [], []⟩

/-- The same call on both sides; a truncation that the file refuses is none for the array. -/
def State.step (h : Heap) (s : State) : Op → State
  | .write data offset =>
    { s with
    node := (ramfsWrite h s.node data offset).2, bytes := Reference.write s.bytes data offset }
  | .ftruncate owner length =>
    { s with
      node := (ramfsFtruncate h s.node owner length).2
      bytes := if length < 0 ∨ owner = false then s.bytes
      else Reference.truncate s.bytes length.toNat }
  | .read size offset =>
    { s with
      returned := ramfsRead s.node size offset :: s.returned
      expected := Reference.read s.bytes size offset :: s.expected }

/-- The arguments are machine numbers and the allocations succeed. -/
def Granted (h : Heap) (s : State) : Op → Prop
  | .write data offset => offset < SIZE_LIMIT ∧ data.length < SIZE_LIMIT ∧
      (ramfsWrite h s.node data offset).1 ≠ -ENOMEM
  | .ftruncate owner length => length < 2 ^ 63 ∧ (ramfsFtruncate h s.node owner length).1 ≠ -12
  | .read size offset => size < SIZE_LIMIT ∧ offset < SIZE_LIMIT

/-- The file holds the bytes of the array, and every read has returned what the array returns. -/
def Refines (s : State) : Prop := s.node.contents = s.bytes ∧ s.returned = s.expected

/-- The condition on a call. A write ends below 2^64 and, on a borrowed file that has grown past the
archive, finds zeros behind the archive wherever it does not write itself. A shrinking finds zeros
between the capacity and the new size. A read ends below 2^64. -/
def Clean (h : Heap) (s : State) : Op → Prop
  | .write data offset =>
    (data ≠ [] → offset + data.length < SIZE_LIMIT) ∧
    (s.node.dataBorrowed = true → ∀ i, s.node.capacity ≤ i → i < s.node.size →
      ¬(offset ≤ i ∧ i < offset + data.length) → s.node.data.byte i = 0)
  | .ftruncate owner length =>
    owner = true → 0 ≤ length → length < s.node.size →
      ∀ i, s.node.capacity ≤ i → (i : Int) < length → s.node.found h length.toNat i = 0
  | .read size offset => offset < s.node.size → offset + size < SIZE_LIMIT

theorem base_eq_iff (hn : Inv n) (i : Nat) :
    n.base i = n.view i ↔
    (n.dataBorrowed = true → n.capacity ≤ i → i < n.size → n.data.byte i = 0) := by
  unfold Node.base
  split
  next hb =>
    have hcap := (hn.borrowed hb).2
    by_cases hi : n.capacity ≤ i
    · by_cases hsize : i < n.size
      · simp [Node.view, hb, hi, hsize, Nat.not_lt_of_le hi]
      · simp [Node.view, hsize, Nat.not_lt_of_le hi]
    · simp [Node.view, hi, Nat.lt_of_not_le hi, show i < n.size by omega]
  next hb => simp [hb]

variable {s : State}

theorem write_refines_iff {op : Op} (hop : .write data offset = op) (hn : Inv s.node)
    (hgood : Refines s) (hgranted : Granted h s op) :
    (Refines (s.step h op) ↔ Clean h s op) ∧ (Clean h s op → Inv (s.step h op).node) := by
  subst hop
  obtain ⟨hcontents, houts⟩ := hgood
  obtain ⟨hsize, hview⟩ := (contents_eq_iff hn.beyond).mp hcontents
  by_cases hend : data ≠ [] → offset + data.length < SIZE_LIMIT
  · obtain ⟨hinv, hsize', hview'⟩ := ramfsWrite_spec hn hend hgranted.2.2
    refine ⟨?_, fun _ => hinv⟩
    have hiff : Refines (s.step h (.write data offset)) ↔
        ∀ i, ¬(offset ≤ i ∧ i < offset + data.length) → s.node.base i = s.node.view i := by
      simp only [Refines, State.step, houts, and_true, contents_eq_iff hinv.beyond, hsize', hview',
        hsize, Reference.length_write, Reference.getD_write, ← hview, true_and]
      refine forall_congr' fun i => ?_
      split
      next hin => simp [hin]
      next hout => simp [hout]
    rw [hiff]
    simp only [Clean, base_eq_iff hn]
    exact ⟨fun hall => ⟨hend, fun hb i hcap hi hout => hall i hout hb hcap hi⟩,
      fun hC i hout hb hcap hi => hC.2 hb i hcap hi hout⟩
  · -- past 2^64 the array is longer than any file
    obtain ⟨hdata, hlong⟩ := Classical.not_imp.mp hend
    have hfalse : ¬Refines (s.step h (.write data offset)) := by
      rintro ⟨heq, -⟩
      have hlen := congrArg List.length heq
      simp only [State.step, Node.contents, length_map, length_range, Reference.length_write,
        if_neg hdata] at hlen
      rcases ramfsWrite_size_lt h data offset hn with hlt | hfail
      · omega
      · exact hgranted.2.2 hfail
    exact ⟨iff_of_false hfalse fun hC => hend hC.1, fun hC => absurd hC.1 hend⟩

theorem ftruncate_refines_iff {owner : Bool} {length : Int} {op : Op}
    (hop : .ftruncate owner length = op) (hn : Inv s.node) (hgood : Refines s)
    (hgranted : Granted h s op) :
    (Refines (s.step h op) ↔ Clean h s op) ∧ (Clean h s op → Inv (s.step h op).node) := by
  subst hop
  obtain ⟨hcontents, houts⟩ := hgood
  by_cases hrefused : length < 0 ∨ owner = false
  · have hstep : s.step h (.ftruncate owner length) = s := by
      simp [State.step, ramfsFtruncate, hrefused]
    rw [hstep]
    refine ⟨iff_of_true ⟨hcontents, houts⟩ fun howner hpos => ?_, fun _ => hn⟩
    rcases hrefused with hneg | hfalse
    · omega
    · rw [hfalse] at howner
      cases howner
  · obtain ⟨hneg, howner⟩ := not_or.mp hrefused
    have howner' : owner = true := by simpa using howner
    obtain ⟨n, rfl⟩ := Int.eq_ofNat_of_zero_le (Int.not_lt.mp hneg)
    subst howner'
    have hlt : n < SIZE_LIMIT := by
      have := hgranted.1
      simp only [SIZE_LIMIT]
      omega
    obtain ⟨hinv, hsize', hview'⟩ := ramfsFtruncate_spec hn hlt hgranted.2
    obtain ⟨hsize, hview⟩ := (contents_eq_iff hn.beyond).mp hcontents
    refine ⟨?_, fun _ => hinv⟩
    have hiff : Refines (s.step h (.ftruncate true n)) ↔
        ∀ i, (if n ≤ i then 0 else if n < s.node.size ∧ s.node.capacity ≤ i then s.node.found h n i
          else s.node.view i) = if i < n then s.node.view i else 0 := by
      simp only [Refines, State.step, houts, and_true, contents_eq_iff hinv.beyond, hsize', hview',
        if_neg hrefused, Int.toNat_natCast, Reference.length_truncate, Reference.getD_truncate,
        ← hview, true_and]
    rw [hiff]
    simp only [Clean, Int.toNat_natCast, Nat.cast_lt, true_implies]
    constructor
    · intro hall _ hshrink i hcap hi
      have := hall i
      rw [if_neg (Nat.not_le_of_lt hi), if_pos ⟨hshrink, hcap⟩, if_pos hi] at this
      rw [this, Node.view, if_neg (Nat.not_lt_of_le hcap)]
    · intro hC i
      by_cases hi : i < n
      · rw [if_neg (Nat.not_le_of_lt hi)]
        split
        next hexp =>
          rw [hC (Int.natCast_nonneg n) hexp.1 i hexp.2 hi, Node.view,
            if_neg (Nat.not_lt_of_le hexp.2)]
        · rfl
      · rw [if_pos (Nat.le_of_not_lt hi), if_neg hi]

theorem read_refines_iff (hn : Inv s.node) (hgood : Refines s)
    (hgranted : Granted h s (.read size offset)) :
    Refines (s.step h (.read size offset)) ↔ Clean h s (.read size offset) := by
  obtain ⟨hcontents, houts⟩ := hgood
  have hiff : Refines (s.step h (.read size offset)) ↔
      ramfsRead s.node size offset = Reference.read s.node.contents size offset := by
    simp [Refines, State.step, houts, hcontents]
  rw [hiff]
  refine ⟨fun heq hoff => ?_, ramfsRead_eq⟩
  by_contra hwrap
  exact ramfsRead_wrapped hn.size_lt hoff hgranted.1 (Nat.le_of_not_lt hwrap) heq

theorem step_refines_iff {op : Op} (hn : Inv s.node) (hgood : Refines s)
    (hgranted : Granted h s op) :
    (Refines (s.step h op) ↔ Clean h s op) ∧ (Clean h s op → Inv (s.step h op).node) := by
  cases op with
  | write data offset => exact write_refines_iff rfl hn hgood hgranted
  | ftruncate owner length => exact ftruncate_refines_iff rfl hn hgood hgranted
  | read size offset => exact ⟨read_refines_iff hn hgood hgranted, fun _ => hn⟩

theorem inv_borrowed {archive : Nat → UInt8} (hsize : size < SIZE_LIMIT) :
    Inv (Node.borrowed archive size) := by
  unfold Node.borrowed
  split
  · refine ⟨hsize, fun _ => ⟨⟨archive, rfl⟩, le_rfl⟩, nofun, fun i hi => ?_⟩
    exact if_neg (Nat.not_lt_of_le hi)
  · exact ⟨by decide, nofun, fun _ => .inl ⟨rfl, rfl⟩, fun i _ => rfl⟩

/-- **Files and byte arrays.** In a run of calls whose allocations succeed, from an empty or a
borrowed file, the file holds the bytes of the array after every call and every read returns those,
if and only if every call meets the condition: no call brings bytes into the file that were never
written. -/
theorem contents_refine_iff (h : Heap) (archive : Nat → UInt8) (size : Nat)
    (hsize : size < SIZE_LIMIT) (ops : List Op)
    (hgranted : RunMeets (State.step h) (Granted h) (State.init (Node.borrowed archive size)) ops) :
    (∀ pre post, ops = pre ++ post →
      Refines (pre.foldl (State.step h) (State.init (Node.borrowed archive size)))) ↔
    RunMeets (State.step h) (Clean h) (State.init (Node.borrowed archive size)) ops := by
  exact run_good_iff (fun s op => step_refines_iff) (inv_borrowed hsize) ⟨rfl, rfl⟩ hgranted

/-- A heap whose blocks hold the byte 170. -/
def staleHeap : Heap := fun _ _ => some fun _ => 170

/-- A borrowed file of three bytes grows to five and is read. -/
def growAndRead : List Op := [.ftruncate true 5, .read 5 0]

theorem growAndRead_refines :
    RunMeets (State.step staleHeap) (Granted staleHeap) (State.init (Node.borrowed (fun _ => 7) 3))
    growAndRead ∧ ∀ pre post, growAndRead = pre ++ post →
      Refines (pre.foldl (State.step staleHeap) (State.init (Node.borrowed (fun _ => 7) 3))) := by
  suffices hgranted : _ by
    refine ⟨hgranted,
      (contents_refine_iff staleHeap (fun _ => 7) 3 (by decide) growAndRead hgranted).mpr ?_⟩
    rw [growAndRead, runMeets_cons, runMeets_cons]
    exact ⟨fun _ _ hlt => absurd hlt (by decide), fun _ => by decide, runMeets_nil _⟩
  rw [growAndRead, runMeets_cons, runMeets_cons]
  exact ⟨⟨by decide, by decide⟩, ⟨by decide, by decide⟩, runMeets_nil _⟩

/-- An empty file grows to two bytes and shrinks to one: the byte left is the one of the fresh
block. -/
theorem shrunk_hole_shows_heap :
    RunMeets (State.step staleHeap) (Granted staleHeap) (State.init (Node.borrowed (fun _ => 0) 0))
      [.ftruncate true 2, .ftruncate true 1, .read 1 0] ∧
    ([.ftruncate true 2, .ftruncate true 1, .read 1 0].foldl (State.step staleHeap)
      (State.init (Node.borrowed (fun _ => 0) 0))).returned = [[170]] ∧
    ([.ftruncate true 2, .ftruncate true 1, .read 1 0].foldl (State.step staleHeap)
      (State.init (Node.borrowed (fun _ => 0) 0))).expected = [[0]] := by
  refine ⟨?_, by decide, by decide⟩
  rw [runMeets_cons, runMeets_cons, runMeets_cons]
  exact ⟨⟨by decide, by decide⟩, ⟨by decide, by decide⟩, ⟨by decide, by decide⟩, runMeets_nil _⟩

end AxonOS.Ramfs

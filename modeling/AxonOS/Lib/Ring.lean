import Mathlib.Tactic

/-! # Ring buffers

A ring of `size` cells with a write position `head` and a read position `tail`; one cell stays
empty, so that `head = tail` means an empty ring. Data that meets the end of the cells is copied in
two parts. What the ring holds, in the order of writing, is `contents`: `push` appends to it, `take`
reads a part of its front and `drop` removes one.
-/

namespace AxonOS.Lib

open List Nat

/-- The positions lie in the ring. -/
structure RingBuf (β : Type) where
  cell : Nat → β
  size : Nat
  head : Nat
  tail : Nat
  head_lt : head < size
  tail_lt : tail < size

def cells {β : Type} (cell : Nat → β) (a n : Nat) : List β :=
  (List.range n).map fun i => cell (a + i)

def storeAt {β : Type} (cell : Nat → β) (a : Nat) (data : List β) : Nat → β := fun x =>
  if x < a then cell x else data.getD (x - a) (cell x)

namespace RingBuf

variable {β : Type}

def empty (cell : Nat → β) (n : Nat) : RingBuf β := ⟨cell, n + 1, 0, 0, n.succ_pos, n.succ_pos⟩

def used (r : RingBuf β) : Nat :=
  if r.tail ≤ r.head then r.head - r.tail else r.size - r.tail + r.head

def free (r : RingBuf β) : Nat := if r.used < r.size - 1 then r.size - 1 - r.used else 0

/-- The oldest `n` elements, copied from the end of the cells and then from their start. -/
def take (r : RingBuf β) (n : Nat) : List β :=
  let first := if r.tail + n ≤ r.size then n else r.size - r.tail
  cells r.cell r.tail first ++ cells r.cell 0 (n - first)

def drop (r : RingBuf β) (n : Nat) : RingBuf β where
  cell := r.cell
  size := r.size
  head := r.head
  tail := (r.tail + n) % r.size
  head_lt := r.head_lt
  tail_lt := mod_lt _ (zero_lt_of_lt r.head_lt)

def push (r : RingBuf β) (data : List β) : RingBuf β where
  cell :=
    let toEnd := r.size - r.head
    if data.length ≤ toEnd then storeAt r.cell r.head data
    else storeAt (storeAt r.cell r.head (data.take toEnd)) 0 (data.drop toEnd)
  size := r.size
  head := (r.head + data.length) % r.size
  tail := r.tail
  head_lt := mod_lt _ (zero_lt_of_lt r.head_lt)
  tail_lt := r.tail_lt

def contents (r : RingBuf β) : List β :=
  (List.range r.used).map fun i => r.cell ((r.tail + i) % r.size)

section Laws

variable {r : RingBuf β} {n a i k x : Nat} {data : List β} {cell : Nat → β}

theorem used_lt (r : RingBuf β) : r.used < r.size := by
  have := r.head_lt
  unfold used
  split <;> omega

theorem free_eq (r : RingBuf β) : r.free = r.size - 1 - r.used := by
  unfold free
  split <;> omega

/-- A position that is less than one round further. -/
theorem mod_wrap {size : Nat} (ha : a < size) (hi : i ≤ size) :
    (a + i) % size = if a + i < size then a + i else a + i - size := by
  split
  next h => exact mod_eq_of_lt h
  next h =>
    rw [mod_eq_sub_mod (by omega)]
    exact mod_eq_of_lt (by omega)

theorem used_drop (h : n ≤ r.used) : (r.drop n).used = r.used - n := by
  have hhead := r.head_lt
  have htail := r.tail_lt
  have hused := r.used_lt
  have hwrap := mod_wrap htail (show n ≤ r.size by omega)
  unfold used at h hused ⊢
  simp only [drop, hwrap]
  split_ifs at h hused ⊢ <;> omega

theorem used_push (h : data.length ≤ r.free) : (r.push data).used = r.used + data.length := by
  have hhead := r.head_lt
  have hused := r.used_lt
  rw [free_eq] at h
  have hwrap := mod_wrap hhead (show data.length ≤ r.size by omega)
  unfold used at h hused ⊢
  simp only [push, hwrap]
  split_ifs at h hused ⊢ <;> omega

/-- The head is behind what the ring holds. -/
theorem head_eq (r : RingBuf β) : r.head = (r.tail + r.used) % r.size := by
  have hhead := r.head_lt
  have htail := r.tail_lt
  rw [mod_wrap htail (le_of_lt r.used_lt)]
  unfold used
  split_ifs <;> omega

/-- The first `n` cells from the tail on. -/
def window (r : RingBuf β) (n : Nat) : List β :=
  (List.range n).map fun i => r.cell ((r.tail + i) % r.size)

@[simp] theorem length_window (r : RingBuf β) (n : Nat) : (r.window n).length = n := by
  simp [window]

theorem take_window (h : n ≤ r.size) : r.take n = r.window n := by
  have htail := r.tail_lt
  refine ext_getElem ?_ fun i h1 h2 => ?_
  · simp only [take, cells, window, length_append, length_map, length_range]
    split_ifs <;> omega
  · have hi : i < n := by simpa using h2
    simp only [take, cells, window, getElem_map, getElem_range, getElem_append,
      length_map, length_range]
    rw [mod_wrap htail (show i ≤ r.size by omega)]
    -- the cell lies before the end or, after it, in the second part
    split_ifs <;> first | rfl | omega | (congr 1; omega)

theorem window_take (r : RingBuf β) (h : n ≤ k) : (r.window k).take n = r.window n := by
  rw [window, ← map_take, take_range, min_eq_left h]
  rfl

theorem window_drop (r : RingBuf β) (n k : Nat) :
    (r.drop n).window (k - n) = (r.window k).drop n := by
  refine ext_getElem (by simp) fun i h1 h2 => ?_
  simp only [window, drop, getElem_map, getElem_range, getElem_drop]
  rw [mod_add_mod, add_assoc]

theorem take_eq (h : n ≤ r.used) : r.take n = r.contents.take n :=
  (take_window (h.trans (le_of_lt r.used_lt))).trans (r.window_take h).symm

theorem contents_drop (h : n ≤ r.used) : (r.drop n).contents = r.contents.drop n := by
  refine Eq.trans ?_ (r.window_drop n r.used)
  rw [← used_drop h]
  rfl

theorem storeAt_inside (h : i < data.length) : storeAt cell a data (a + i) = data[i] := by
  simp [storeAt, h]

theorem storeAt_outside (h : x < a ∨ a + data.length ≤ x) : storeAt cell a data x = cell x := by
  unfold storeAt
  split
  · rfl
  · have hlen : data.length ≤ x - a := by omega
    simp [hlen]

/-- The new elements lie behind the old ones. -/
theorem push_cell_new (h : data.length ≤ r.size) (hi : i < data.length) :
    (r.push data).cell ((r.head + i) % r.size) = data[i] := by
  have hhead := r.head_lt
  rw [mod_wrap hhead (by omega)]
  simp only [push]
  split_ifs with hend hwrap hwrap
  · exact storeAt_inside hi
  · omega
  · rw [storeAt_outside (.inr ?_),
      storeAt_inside (show i < (data.take (r.size - r.head)).length from ?_), getElem_take]
    all_goals simp only [length_drop, length_take]; omega
  · have hat : r.head + i - r.size = 0 + (i - (r.size - r.head)) := by omega
    rw [hat, storeAt_inside (by rw [length_drop]; omega), getElem_drop]
    congr 1
    omega

/-- A cell that none of the new elements falls on. -/
theorem push_cell_other (hx : x < r.size) (h : data.length ≤ r.size)
    (hne : ∀ i, i < data.length → x ≠ (r.head + i) % r.size) : (r.push data).cell x = r.cell x := by
  have hhead := r.head_lt
  -- below the head an element arrives after the end, behind it before
  have hlow : x < r.head → r.head + data.length ≤ r.size + x := by
    intro hlt
    by_contra hover
    refine hne (r.size + x - r.head) (by omega) ?_
    rw [mod_wrap hhead (by omega), if_neg (by omega)]
    omega
  have hhigh : r.head ≤ x → r.head + data.length ≤ x := by
    intro hle
    by_contra hover
    refine hne (x - r.head) (by omega) ?_
    rw [mod_wrap hhead (by omega), if_pos (by omega)]
    omega
  simp only [push]
  split
  · exact storeAt_outside (by omega)
  · rw [storeAt_outside (by rw [length_drop]; omega), storeAt_outside (by rw [length_take]; omega)]

/-- **Pushing appends** to the `k` cells before the head. -/
theorem window_push (hk : r.head = (r.tail + k) % r.size) (h : k + data.length ≤ r.size) :
    (r.push data).window (k + data.length) = r.window k ++ data := by
  have htail := r.tail_lt
  refine ext_getElem (by simp) fun i h1 h2 => ?_
  have hi : i < k + data.length := by simpa using h1
  rw [getElem_append]
  simp only [window, getElem_map, getElem_range]
  split
  next hold =>
    rw [length_map, length_range] at hold
    refine push_cell_other (mod_lt _ (zero_lt_of_lt htail)) (by omega) fun j hj heq => ?_
    rw [hk, mod_add_mod, add_assoc] at heq
    have hmod : Nat.ModEq r.size i (k + j) := Nat.ModEq.add_left_cancel' r.tail heq
    have hij := hmod.eq_of_lt_of_lt (by omega) (by omega)
    omega
  next hnew =>
    rw [length_map, length_range] at hnew
    have hat : (r.tail + i) % r.size = (r.head + (i - k)) % r.size := by
      rw [hk, mod_add_mod]
      congr 1
      omega
    have hcell := push_cell_new (r := r) (by omega) (show i - k < data.length by omega)
    exact (congrArg _ hat).trans (hcell.trans (by simp))

theorem contents_push (h : data.length ≤ r.free) : (r.push data).contents = r.contents ++ data := by
  have hused := r.used_lt
  rw [contents, used_push h]
  rw [free_eq] at h
  exact window_push r.head_eq (by omega)

end Laws

end RingBuf

end AxonOS.Lib

import AxonOS.Lib.Ring

/-! # Counted ring buffers

A ring that keeps the number of its elements beside the two positions, so that every cell can be
used. `push` takes as much of the data as there is room for and appends it to `contents`; `take` and
`drop` read and remove at most as many elements as there are.
-/

namespace AxonOS.Lib

open List Nat

/-- The head is `count` cells behind the tail. -/
structure CountRing (β : Type) where
  buf : RingBuf β
  count : Nat
  count_le : count ≤ buf.size
  head_eq : buf.head = (buf.tail + count) % buf.size

namespace CountRing

variable {β : Type}

def empty (cell : Nat → β) (n : Nat) : CountRing β :=
  ⟨RingBuf.empty cell n, 0, zero_le _, (mod_eq_of_lt n.succ_pos).symm⟩

def free (r : CountRing β) : Nat := r.buf.size - r.count

def take (r : CountRing β) (n : Nat) : List β := r.buf.take (min n r.count)

def drop (r : CountRing β) (n : Nat) : CountRing β where
  buf := r.buf.drop (min n r.count)
  count := r.count - min n r.count
  count_le := (sub_le _ _).trans r.count_le
  head_eq := by
    have hsum : r.buf.tail + min n r.count + (r.count - min n r.count) = r.buf.tail + r.count := by
      omega
    simp only [RingBuf.drop]
    rw [mod_add_mod, hsum, r.head_eq]

theorem count_add_le (r : CountRing β) (n : Nat) : r.count + min n r.free ≤ r.buf.size := by
  have := r.count_le
  unfold free
  omega

def push (r : CountRing β) (data : List β) : CountRing β where
  buf := r.buf.push (data.take r.free)
  count := r.count + min data.length r.free
  count_le := r.count_add_le data.length
  head_eq := by
    simp only [RingBuf.push, length_take]
    rw [r.head_eq, mod_add_mod, add_assoc, min_comm]

def contents (r : CountRing β) : List β :=
  (List.range r.count).map fun i => r.buf.cell ((r.buf.tail + i) % r.buf.size)

@[simp] theorem length_contents (r : CountRing β) : r.contents.length = r.count := by
  simp [contents]

theorem contents_drop (r : CountRing β) (n : Nat) : (r.drop n).contents = r.contents.drop n := by
  refine (r.buf.window_drop (min n r.count) r.count).trans ?_
  rcases le_total n r.count with h | h
  · rw [min_eq_left h]
    rfl
  · rw [min_eq_right h, drop_of_length_le (by simp), drop_of_length_le (by simpa using h)]

theorem take_eq (r : CountRing β) (n : Nat) : r.take n = r.contents.take n := by
  have hle := r.count_le
  rw [take, RingBuf.take_window (by omega), ← r.buf.window_take
    (min_le_right n r.count), ← take_take]
  exact congrArg _ (take_of_length_le (by simp))

theorem contents_push (r : CountRing β) (data : List β) :
    (r.push data).contents = r.contents ++ data.take r.free := by
  have hle := r.count_add_le data.length
  have hfit : r.count + (data.take r.free).length ≤ r.buf.size := by rw [length_take]; omega
  refine Eq.trans ?_ (RingBuf.window_push r.head_eq hfit)
  rw [length_take, min_comm]
  rfl

end CountRing

end AxonOS.Lib

import Mathlib.Tactic

/-! # Byte memory

Memory as a function from addresses to bytes, with little-endian loads and stores of `n`
bytes. A store is seen by a load at the same place, and by no load that does not meet it.
-/

namespace AxonOS.Lib

abbrev Mem := Nat → Nat

/-- The `n`-byte little-endian number at `a`. -/
def loadLE (m : Mem) : Nat → Nat → Nat
  | _, 0 => 0
  | a, n + 1 => m a % 256 + 256 * loadLE m (a + 1) n

/-- Store the low `n` bytes of `v` at `a`. -/
def storeLE (m : Mem) (a n v : Nat) : Mem := fun x =>
  if a ≤ x ∧ x < a + n then v / 256 ^ (x - a) % 256 else m x

/-- `memcpy(dst, src, n)` between regions that do not overlap. -/
def copyBytes (m : Mem) (dst src n : Nat) : Mem := fun x =>
  if dst ≤ x ∧ x < dst + n then m (src + (x - dst)) else m x

variable {m : Mem} {a n v x : Nat}

theorem storeLE_outside (h : x < a ∨ a + n ≤ x) : storeLE m a n v x = m x := by
  unfold storeLE
  rw [if_neg (by omega)]

theorem copyBytes_outside {dst src : Nat} (h : x < dst ∨ dst + n ≤ x) :
    copyBytes m dst src n x = m x := by
  unfold copyBytes
  rw [if_neg (by omega)]

theorem copyBytes_inside {dst src i : Nat} (h : i < n) :
    copyBytes m dst src n (dst + i) = m (src + i) := by
  unfold copyBytes
  rw [if_pos (by omega), Nat.add_sub_cancel_left]

theorem loadLE_lt (m : Mem) (n a : Nat) : loadLE m a n < 256 ^ n := by
  induction n generalizing a with
  | zero => exact Nat.one_pos
  | succ n ih =>
    have h1 := ih (a + 1)
    rw [loadLE]
    omega

theorem loadLE_congr {m' : Mem} (h : ∀ x, a ≤ x → x < a + n → m' x = m x) :
    loadLE m' a n = loadLE m a n := by
  induction n generalizing a with
  | zero => rfl
  | succ n ih =>
    rw [loadLE, loadLE, h a (Nat.le_refl a) (by omega), ih fun x h1 h2 => h x (by omega) (by omega)]

theorem loadLE_storeLE_ne {b k : Nat} (h : b + k ≤ a ∨ a + n ≤ b) :
    loadLE (storeLE m a n v) b k = loadLE m b k :=
  loadLE_congr fun _ h1 h2 => storeLE_outside (by omega)

/-- Bytes that are the digits of `v` load as `v`. -/
theorem loadLE_digits (h : ∀ i, i < n → m (a + i) = v / 256 ^ i % 256) :
    loadLE m a n = v % 256 ^ n := by
  induction n generalizing a v with
  | zero => rw [loadLE, pow_zero, Nat.mod_one]
  | succ n ih =>
    have h0 := h 0 (by omega)
    rw [Nat.add_zero, pow_zero, Nat.div_one] at h0
    have hrest : loadLE m (a + 1) n = v / 256 % 256 ^ n := by
      refine ih fun i hi => ?_
      have := h (i + 1) (by omega)
      rw [show a + 1 + i = a + (i + 1) by omega, this, Nat.div_div_eq_div_mul, pow_succ']
    rw [loadLE, hrest, h0, Nat.mod_mod, pow_succ', Nat.mod_mul]

/-- **A load sees the store at its place.** -/
theorem loadLE_storeLE (m : Mem) (a n v : Nat) : loadLE (storeLE m a n v) a n = v % 256 ^ n :=
  loadLE_digits fun i hi => by
    unfold storeLE
    rw [if_pos (by omega), Nat.add_sub_cancel_left]

end AxonOS.Lib

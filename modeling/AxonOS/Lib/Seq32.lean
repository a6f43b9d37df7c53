import Mathlib.Tactic

/-! # Serial numbers

Positions in an unbounded stream, of which only the last 32 bits are transmitted. Comparing two
serial numbers by the sign of their 32-bit difference is right as long as the positions are less
than `2^31` apart.
-/

namespace AxonOS.Lib

open List

/-- The serial number of a position. -/
def serial (p : Nat) : Nat := p % 2 ^ 32

def sub32 (a b : Nat) : Nat := (a + 2 ^ 32 - b) % 2 ^ 32

/-- `(int32_t)(a - b) > 0`. -/
def serialAfter (a b : Nat) : Bool := decide (0 < sub32 a b) && decide (sub32 a b < 2 ^ 31)

theorem serial_add (p n : Nat) : (serial p + n) % 2 ^ 32 = serial (p + n) := by
  unfold serial
  omega

variable {p q : Nat}

theorem sub32_serial (h1 : q ≤ p) (h2 : p < q + 2 ^ 32) : sub32 (serial p) (serial q) = p - q := by
  unfold sub32 serial
  omega

theorem sub32_serial_behind (h1 : p < q) (h2 : q < p + 2 ^ 32) :
    sub32 (serial p) (serial q) = 2 ^ 32 - (q - p) := by
  unfold sub32 serial
  omega

theorem serial_inj (h : serial p = serial q) (h1 : p < q + 2 ^ 32) (h2 : q < p + 2 ^ 32) :
    p = q := by
  unfold serial at h
  omega

/-- **Serial comparison is comparison of positions** that are close enough. -/
theorem serialAfter_iff (h1 : p < q + 2 ^ 31) (h2 : q < p + 2 ^ 31) :
    serialAfter (serial p) (serial q) = true ↔ q < p := by
  unfold serialAfter
  by_cases hqp : q ≤ p
  · rw [sub32_serial hqp (by omega)]
    simp only [Bool.and_eq_true, decide_eq_true_eq]
    omega
  · rw [sub32_serial_behind (by omega) (by omega)]
    simp only [Bool.and_eq_true, decide_eq_true_eq]
    omega

/-- A position that compares as later is later, however far ahead it is. -/
theorem lt_of_serialAfter (h : serialAfter (serial p) (serial q) = true) (h2 : q < p + 2 ^ 31) :
    q < p := by
  by_contra hle
  unfold serialAfter at h
  rcases Nat.eq_or_lt_of_le (Nat.not_lt.mp hle) with rfl | hlt
  · rw [sub32_serial (Nat.le_refl _) (by omega)] at h
    simp at h
  · rw [sub32_serial_behind hlt (by omega)] at h
    simp only [Bool.and_eq_true, decide_eq_true_eq] at h
    omega

/-! ## Pieces of a stream -/

section Stream

variable {α : Type} {S a b : List α} {n : Nat}

theorem prefix_append_of_prefix_drop (h1 : a <+: S) (h2 : b <+: S.drop a.length) :
    a ++ b <+: S := by
  obtain ⟨t, rfl⟩ := h1
  rw [drop_left] at h2
  exact prefix_append_right_inj a |>.mpr h2

theorem drop_prefix_drop (k : Nat) (h : a <+: S.drop n) : a.drop k <+: S.drop (n + k) := by
  rw [← drop_drop]
  exact List.IsPrefix.drop h k

theorem prefix_drop_length (h : a <+: S.drop n) (hne : a ≠ []) : n + a.length ≤ S.length := by
  have h1 := h.length_le
  have h2 : 0 < a.length := length_pos_iff.mpr hne
  rw [length_drop] at h1
  omega

end Stream

end AxonOS.Lib

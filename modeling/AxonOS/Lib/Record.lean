import Mathlib.Tactic

/-! # Records in memory

A packed record is a list of fields, each a width in bytes and a number, stored little-endian one
after the other. Memory here is partial: an address without a byte is one that cannot be accessed,
and a copy stops at the first of them. What a copy has written can be read back, and nothing else
has changed.
-/

namespace AxonOS.Lib

open List Function

/-! ## Fields -/

def bytesLE : Nat → Nat → List Nat
  | 0, _ => []
  | n + 1, v => v % 256 :: bytesLE n (v / 256)

def valueLE : List Nat → Nat
  | [] => 0
  | b :: bs => b + 256 * valueLE bs

/-- The bytes of a record, from the width and value of each field. -/
def encode : List (Nat × Nat) → List Nat
  | [] => []
  | f :: fields => bytesLE f.1 f.2 ++ encode fields

/-- The values of fields of the given widths. -/
def decode : List Nat → List Nat → List Nat
  | [], _ => []
  | w :: widths, bs => valueLE (bs.take w) :: decode widths (bs.drop w)

theorem length_bytesLE (n v : Nat) : (bytesLE n v).length = n := by
  induction n generalizing v with
  | zero => rfl
  | succ n ih => rw [bytesLE, length_cons, ih]

theorem valueLE_bytesLE (n v : Nat) : valueLE (bytesLE n v) = v % 256 ^ n := by
  induction n generalizing v with
  | zero => rw [bytesLE, valueLE, pow_zero, Nat.mod_one]
  | succ n ih => rw [bytesLE, valueLE, ih, pow_succ', Nat.mod_mul]

theorem length_encode (fields : List (Nat × Nat)) :
    (encode fields).length = (fields.map Prod.fst).sum := by
  induction fields with
  | nil => rfl
  | cons f fields ih =>
    rw [encode, length_append, length_bytesLE, ih, map_cons, sum_cons]

/-- **A record is read back as it was written**, each field cut to its width. -/
theorem decode_encode (fields : List (Nat × Nat)) :
    decode (fields.map Prod.fst) (encode fields) = fields.map fun f => f.2 % 256 ^ f.1 := by
  induction fields with
  | nil => rfl
  | cons f fields ih =>
    have hlen := length_bytesLE f.1 f.2
    rw [map_cons, map_cons, decode, encode, take_left' hlen, drop_left' hlen, valueLE_bytesLE, ih]

/-! ## Partial memory -/

abbrev PMem := Nat → Option Nat

def readBytes (m : PMem) : Nat → Nat → Option (List Nat)
  | _, 0 => some []
  | a, n + 1 =>
    match m a, readBytes m (a + 1) n with
    | some b, some bs => some (b :: bs)
    | _, _ => none

/-- A copy to memory, up to the first address that cannot be accessed. -/
def writeBytes (m : PMem) : Nat → List Nat → PMem × Bool
  | _, [] => (m, true)
  | a, b :: bs =>
    match m a with
    | none => (m, false)
    | some _ => writeBytes (update m a (some b)) (a + 1) bs

variable {m m' : PMem} {a : Nat} {bs : List Nat}

theorem readBytes_congr {n : Nat} (h : ∀ x, a ≤ x → x < a + n → m' x = m x) :
    readBytes m' a n = readBytes m a n := by
  induction n generalizing a with
  | zero => rfl
  | succ n ih =>
    rw [readBytes, readBytes, h a (Nat.le_refl a) (by omega),
      ih fun x h1 h2 => h x (by omega) (by omega)]

theorem writeBytes_outside {x : Nat} (h : x < a ∨ a + bs.length ≤ x) :
    (writeBytes m a bs).1 x = m x := by
  induction bs generalizing m a with
  | nil => rfl
  | cons b bs ih =>
    rw [length_cons] at h
    rw [writeBytes]
    split
    · rfl
    · rw [ih (by omega), update_of_ne (by omega)]

/-- A copy leaves memory accessible where it was. -/
theorem writeBytes_isSome (x : Nat) : ((writeBytes m a bs).1 x).isSome = (m x).isSome := by
  induction bs generalizing m a with
  | nil => rfl
  | cons b bs ih =>
    rw [writeBytes]
    split
    · rfl
    next c hc =>
      rw [ih]
      by_cases hx : x = a
      · rw [hx, update_self, hc]
        rfl
      · rw [update_of_ne hx]

/-- A copy is complete if and only if all of its addresses can be accessed. -/
theorem writeBytes_iff :
    (writeBytes m a bs).2 = true ↔ ∀ x, a ≤ x → x < a + bs.length → (m x).isSome = true := by
  induction bs generalizing m a with
  | nil => exact iff_of_true rfl fun x h1 h2 => by simp at h2; omega
  | cons b bs ih =>
    rw [writeBytes, length_cons]
    split
    next hnone =>
      refine iff_of_false (by simp) fun h => ?_
      have := h a le_rfl (by omega)
      rw [hnone] at this
      cases this
    next c hc =>
      rw [ih]
      constructor
      · intro h x h1 h2
        by_cases hx : x = a
        · rw [hx, hc]
          rfl
        · have := h x (by omega) (by omega)
          rwa [update_of_ne hx] at this
      · intro h x h1 h2
        rw [update_of_ne (by omega)]
        exact h x (by omega) (by omega)

/-- **What a complete copy has written is there.** -/
theorem readBytes_writeBytes (h : (writeBytes m a bs).2 = true) :
    readBytes (writeBytes m a bs).1 a bs.length = some bs := by
  induction bs generalizing m a with
  | nil => rfl
  | cons b bs ih =>
    rw [writeBytes] at h ⊢
    cases hm : m a with
    | none =>
      rw [hm] at h
      cases h
    | some c =>
      rw [hm] at h
      have hhead : (writeBytes (update m a (some b)) (a + 1) bs).1 a = some b := by
        rw [writeBytes_outside (.inl (Nat.lt_succ_self a)), update_self]
      rw [length_cons, readBytes, hhead, ih h]

end AxonOS.Lib

import Mathlib.Tactic

/-! # Tables of chains

A hash table with chaining is a family of lists, one for each bucket. Its entries, bucket by bucket,
are one list, in which adding an entry to a chain is adding it in front up to order, and which
filtering and mapping the chains filters and maps.
-/

namespace AxonOS.Lib

open List Function

variable {α β : Type} {n : Nat} {t t' : Nat → List α}

/-- The entries of the first `n` buckets. -/
def bucketEntries (n : Nat) (t : Nat → List α) : List α := (List.range n).flatMap t

theorem bucketEntries_succ (n : Nat) (t : Nat → List α) :
    bucketEntries (n + 1) t = bucketEntries n t ++ t n := by
  unfold bucketEntries
  rw [range_succ]
  simp

theorem mem_bucketEntries {a : α} : a ∈ bucketEntries n t ↔ ∃ b < n, a ∈ t b := by
  unfold bucketEntries
  simp

theorem bucketEntries_congr (h : ∀ b < n, t b = t' b) : bucketEntries n t = bucketEntries n t' := by
  induction n with
  | zero => rfl
  | succ n ih =>
    rw [bucketEntries_succ, bucketEntries_succ, ih fun b hb => h b (by omega), h n (by omega)]

theorem bucketEntries_map (f : α → β) :
    bucketEntries n (fun b => (t b).map f) = (bucketEntries n t).map f := by
  unfold bucketEntries
  rw [map_flatMap]

theorem bucketEntries_filter (p : α → Bool) :
    bucketEntries n (fun b => (t b).filter p) = (bucketEntries n t).filter p := by
  unfold bucketEntries
  rw [filter_flatMap]

/-- A chain is replaced by one that has an entry more. -/
theorem bucketEntries_perm {b : Nat} (hb : b < n) {l : List α} {a : α} (h : l.Perm (a :: t b)) :
    (bucketEntries n (update t b l)).Perm (a :: bucketEntries n t) := by
  induction n with
  | zero => omega
  | succ n ih =>
    rw [bucketEntries_succ, bucketEntries_succ]
    by_cases hbn : b = n
    · subst hbn
      have hsame : bucketEntries b (update t b l) = bucketEntries b t :=
        bucketEntries_congr fun c hc => update_of_ne (by omega) _ _
      rw [hsame, update_self]
      exact (h.append_left _).trans perm_middle
    · have hn : update t b l n = t n := update_of_ne (Ne.symm hbn) _ _
      rw [hn]
      exact (ih (by omega)).append_right _

end AxonOS.Lib

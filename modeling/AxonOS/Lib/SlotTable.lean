import Mathlib.Tactic
import Mathlib.Data.List.ReduceOption

/-! # Tables of slots

A fixed-size array of records as a list: what a property of "some slot", and the number of
slots with a property, become when one slot or two slots are overwritten.
-/

namespace AxonOS.Lib

open List Option

variable {α : Type}

variable {l t : List α} {i : Nat} {v x : α} {P : α → Prop}

theorem getD_of_getElem? {d : α} (h : l[i]? = some x) : l.getD i d = x := by
  rw [getD_eq_getElem?_getD, h, getD_some]

theorem lt_of_getElem? (h : l[i]? = some x) : i < l.length :=
  (List.getElem?_eq_some_iff.mp h).1

theorem getElem?_set_eq (h : l[i]? = some x) (a : α) : (l.set i a)[i]? = some a := by
  rw [getElem?_set, if_pos rfl, if_pos (lt_of_getElem? h)]

theorem getElem?_set_cases {j : Nat} {a y : α} (h : (l.set i a)[j]? = some y) :
    (j = i ∧ y = a) ∨ (j ≠ i ∧ l[j]? = some y) := by
  grind

theorem exists_mem_iff_getElem? : (∃ x ∈ l, P x) ↔ ∃ (k : Nat) (x : α), l[k]? = some x ∧ P x := by
  constructor
  · rintro ⟨x, hx, hP⟩
    obtain ⟨k, hk⟩ := mem_iff_getElem?.mp hx
    exact ⟨k, x, hk, hP⟩
  · rintro ⟨k, x, hk, hP⟩
    exact ⟨x, mem_of_getElem? hk, hP⟩

/-- Overwriting a slot, for a property of some slot. -/
theorem exists_mem_set (hi : l[i]? = some x) (a : α) :
    (∃ y ∈ l.set i a, P y) ↔ P a ∨ ∃ (k : Nat) (y : α), k ≠ i ∧ l[k]? = some y ∧ P y := by
  rw [exists_mem_iff_getElem?]
  constructor
  · rintro ⟨k, y, hk, hP⟩
    by_cases h : i = k
    · subst h
      have hk := mem_unique (getElem?_set_eq hi _) hk
      exact .inl (hk ▸ hP)
    · rw [getElem?_set_ne h] at hk
      exact .inr ⟨k, y, fun e => h e.symm, hk, hP⟩
  · rintro (hP | ⟨k, y, hne, hk, hP⟩)
    · exact ⟨i, a, getElem?_set_eq hi a, hP⟩
    · exact ⟨k, y, by rw [getElem?_set_ne hne.symm]; exact hk, hP⟩

/-- A slot is overwritten that did not have the property. -/
theorem exists_mem_set_new (hi : l[i]? = some x) (a : α) (hx : ¬ P x) :
    (∃ y ∈ l.set i a, P y) ↔ P a ∨ ∃ y ∈ l, P y := by
  rw [exists_mem_set hi, exists_mem_iff_getElem?]
  apply or_congr_right
  constructor
  · rintro ⟨k, y, -, hk, hP⟩
    exact ⟨k, y, hk, hP⟩
  rintro ⟨k, y, hk, hP⟩
  refine ⟨k, y, ?_, hk, hP⟩
  rintro rfl
  have hk := mem_unique hi hk
  exact hx (hk ▸ hP)

/-- A slot is overwritten by a record that has the property if the old one had it. -/
theorem exists_mem_set_same {a : α} (hi : l[i]? = some x) (hP : P a ↔ P x) :
    (∃ y ∈ l.set i a, P y) ↔ ∃ y ∈ l, P y := by
  by_cases hx : P x
  · constructor
    · intro _
      exact ⟨x, mem_of_getElem? hi, hx⟩
    · intro _
      exact (exists_mem_set hi a).mpr (.inl (hP.mpr hx))
  · rw [exists_mem_set_new hi a hx]
    simp [hP, hx]

/-- A record `v` is replaced by two: one in its own slot, one in a slot `j` that did not have
the property. -/
theorem exists_mem_split {j : Nat} {u l r : α} (hi : t[i]? = some v) (hj : t[j]? = some u)
    (hij : i ≠ j) (hu : ¬ P u) (hv : P v ↔ P l ∨ P r) : (∃ y ∈ (t.set j r).set i l, P y) ↔
    ∃ y ∈ t, P y := by
  have hi' : (t.set j r)[i]? = some v := by rw [getElem?_set_ne hij.symm]; exact hi
  rw [exists_mem_set hi', exists_mem_iff_getElem?]
  constructor
  · rintro (hP | ⟨k, y, hki, hk, hP⟩)
    · exact ⟨i, v, hi, hv.mpr (.inl hP)⟩
    by_cases hkj : j = k
    · subst hkj
      have hk := mem_unique (getElem?_set_eq hj _) hk
      exact ⟨i, v, hi, hv.mpr (.inr (hk ▸ hP))⟩
    · rw [getElem?_set_ne hkj] at hk
      exact ⟨k, y, hk, hP⟩
  · rintro ⟨k, y, hk, hP⟩
    by_cases hki : k = i
    · subst hki
      have hk := mem_unique hi hk
      rcases hv.mp (hk ▸ hP) with hl | hr
      · exact .inl hl
      · exact .inr ⟨j, r, hij.symm, getElem?_set_eq hj r, hr⟩
    · have hkj : j ≠ k := by
        rintro rfl
        have hk := mem_unique hj hk
        exact hu (hk ▸ hP)
      exact .inr ⟨k, y, hki, by rw [getElem?_set_ne hkj]; exact hk, hP⟩

theorem countP_cons_toNat (p : α → Bool) (a : α) (l : List α) :
    (a :: l).countP p = (p a).toNat + l.countP p := by
  rw [countP_cons]
  cases p a <;> simp [Nat.add_comm]

/-- Counting after one slot is overwritten, without subtraction. -/
theorem countP_set_add (hi : t[i]? = some v) (p : α → Bool) (a : α) :
    (t.set i a).countP p + (p v).toNat = t.countP p + (p a).toNat := by
  have hlt := lt_of_getElem? hi
  have hv : t[i] = v := (List.getElem?_eq_some_iff.mp hi).2
  have hpos : p v = true → 0 < t.countP p := fun h =>
    countP_pos_iff.mpr ⟨v, mem_of_getElem? hi, h⟩
  rw [countP_set hlt, hv]
  cases hpv : p v with
  | false => cases p a <;> simp
  | true =>
    have := hpos hpv
    cases p a <;> simp <;> omega

theorem countP_split {j : Nat} {u : α} (l r : α) (hi : t[i]? = some v) (hj : t[j]? = some u)
    (hij : i ≠ j) (p : α → Bool) : ((t.set j r).set i l).countP p + (p v).toNat + (p u).toNat
      = t.countP p + (p l).toNat + (p r).toNat := by
  have hi' : (t.set j r)[i]? = some v := by rw [getElem?_set_ne hij.symm]; exact hi
  have h1 := countP_set_add hi' p l
  have h2 := countP_set_add hj p r
  omega

/-- Counting indices below `n` when the predicate changes at one of them. -/
theorem countP_range_change {n s : Nat} {p q : Nat → Bool} (hs : s < n)
    (h : ∀ k, k ≠ s → q k = p k) :
    (List.range n).countP q + (p s).toNat = (List.range n).countP p + (q s).toNat := by
  induction n with
  | zero => omega
  | succ n ih =>
    rw [range_succ, countP_append, countP_append, countP_singleton, countP_singleton]
    by_cases hsn : s = n
    · subst hsn
      have heq : (List.range s).countP q = (List.range s).countP p :=
        countP_congr fun k hk => by
          rw [h k (by have := mem_range.mp hk; omega)]
      rw [heq]
      cases p s <;> cases q s <;> simp
    · rw [h n (fun e => hsn e.symm)]
      omega

/-! ## Free slots -/

/-- The first of `n` slots from `i` on that is free. -/
def firstFree (slot : Nat → Option α) : Nat → Nat → Option Nat
  | _, 0 => none
  | i, n + 1 => if (slot i).isNone then some i else firstFree slot (i + 1) n

theorem firstFree_spec (slot : Nat → Option α) (i n : Nat) {k : Nat}
    (h : firstFree slot i n = some k) :
    slot k = none ∧ k < i + n := by
  induction n generalizing i with
  | zero => cases h
  | succ n ih =>
    unfold firstFree at h
    split at h
    next hnone =>
      obtain rfl := some.inj h
      exact ⟨isNone_iff_eq_none.mp hnone, by omega⟩
    next =>
      have := ih (i + 1) h
      exact ⟨this.1, by omega⟩

/-! ## Two tables in lockstep -/

section Lockstep

variable {β : Type} {R : α → β → Prop} {l : List α} {m : List β}

theorem forall₂_set (h : List.Forall₂ R l m) {a : α} {b : β} (hab : R a b) :
    ∀ i, List.Forall₂ R (l.set i a) (m.set i b) := by
  induction h with
  | nil => intro i; exact List.Forall₂.nil
  | cons hxy htail ih =>
    intro i
    cases i with
    | zero => exact List.Forall₂.cons hab htail
    | succ i => exact List.Forall₂.cons hxy (ih i)

theorem forall₂_getD (h : List.Forall₂ R l m) {a : α} {b : β} (hab : R a b) :
    ∀ i, R (l.getD i a) (m.getD i b) := by
  induction h with
  | nil => intro i; exact hab
  | cons hxy _ ih =>
    intro i
    cases i with
    | zero => exact hxy
    | succ i => exact ih i

/-- Tests that agree on related slots find the same slot. -/
theorem findIdx?_forall2 (h : List.Forall₂ R l m) {p : α → Bool} {q : β → Bool}
    (hpq : ∀ a b, R a b → p a = q b) : l.findIdx? p = m.findIdx? q := by
  induction h with
  | nil => rfl
  | cons hxy _ ih => rw [findIdx?_cons, findIdx?_cons, hpq _ _ hxy, ih]

end Lockstep

/-! ## The entries in use -/

section InUse

variable {α : Type}

theorem reduceOption_set {l : List (Option α)} {i : Nat} (h : l[i]? = some none) (x : α) :
    (l.set i (some x)).reduceOption.Perm (x :: l.reduceOption) := by
  induction l generalizing i with
  | nil => simp at h
  | cons e l ih =>
    cases i with
    | zero =>
      obtain rfl : e = none := by simpa using h
      simp
    | succ i =>
      have hrest := ih (by simpa using h)
      cases e with
      | none => simpa using hrest
      | some a =>
        exact (hrest.cons a).trans (List.Perm.swap x a _)

theorem reduceOption_map_filter (p : α → Bool) (l : List (Option α)) :
    (l.map (Option.filter p)).reduceOption = l.reduceOption.filter p := by
  induction l with
  | nil => rfl
  | cons e l ih =>
    cases e with
    | none => simpa using ih
    | some a => by_cases ha : p a <;> simp [ha, ih, Option.filter]

end InUse

/-- A fold that keeps its value or takes that of an element which passes takes one if any passes. -/
theorem foldl_pick {α β : Type} {step : β → α → β} {p : α → Bool} {g : α → β} {b : β}
    (hskip : ∀ c v, p v = false → step c v = c)
    (hpick : ∀ c v, p v = true → step c v = g v ∨ step c v = c ∧ c ≠ b) (l : List α) :
    (l.foldl step b = b ∧ ∀ v ∈ l, p v = false) ∨ ∃ v ∈ l, p v = true ∧ l.foldl step b = g v := by
  have key : ∀ (l : List α) (c : β), (l.foldl step c = c ∧ (c = b → ∀ v ∈ l, p v = false))
      ∨ ∃ v ∈ l, p v = true ∧ l.foldl step c = g v := by
    intro l
    induction l with
    | nil => intro c; exact .inl ⟨rfl, fun _ v hv => absurd hv not_mem_nil⟩
    | cons u l ih =>
      intro c
      rw [foldl_cons]
      rcases ih (step c u) with ⟨hl, hnone⟩ | ⟨v, hv, hp⟩
      · cases hu : p u with
        | false =>
          rw [hskip c u hu] at hl hnone ⊢
          exact .inl ⟨hl, fun hc => forall_mem_cons.mpr ⟨hu, hnone hc⟩⟩
        | true =>
          rcases hpick c u hu with hg | ⟨hc, hne⟩
          · exact .inr ⟨u, mem_cons_self, hu, hl.trans hg⟩
          · exact .inl ⟨hl.trans hc, fun h => absurd h hne⟩
      · exact .inr ⟨v, mem_cons_of_mem u hv, hp⟩
  exact (key l b).imp_left fun h => ⟨h.1, h.2 rfl⟩

/-- A fold that keeps its value or takes that of an element which passes, whichever comes first in
`R`, ends with the first of all. -/
theorem foldl_best {α β : Type} {f : β → α → β} {p : α → Prop} {g : α → β} {R : β → β → Prop}
    (hrefl : ∀ b, R b b) (htrans : ∀ a b c, R a b → R b c → R a c)
    (hstep : ∀ b x, R (f b x) b ∧ (p x → R (f b x) (g x)) ∧ (f b x = b ∨ p x ∧ g x = f b x))
    (l : List α) (b : β) :
    R (l.foldl f b) b ∧ (∀ x ∈ l, p x → R (l.foldl f b) (g x))
      ∧ (l.foldl f b = b ∨ ∃ x ∈ l, p x ∧ g x = l.foldl f b) := by
  induction l generalizing b with
  | nil => exact ⟨hrefl b, fun x hx => absurd hx not_mem_nil, .inl rfl⟩
  | cons x l ih =>
    rw [foldl_cons]
    obtain ⟨hb, hx, hone⟩ := hstep b x
    obtain ⟨hle, hall, hfrom⟩ := ih (f b x)
    refine ⟨htrans _ _ _ hle hb, forall_mem_cons.mpr ⟨fun hp => htrans _ _ _ hle (hx hp), hall⟩, ?_⟩
    rcases hfrom with h | ⟨y, hy, h⟩
    · rw [h]
      exact hone.imp_right fun h => ⟨x, mem_cons_self, h⟩
    · exact .inr ⟨y, mem_cons_of_mem x hy, h⟩

end AxonOS.Lib

import Mathlib.Tactic

/-! # Linked lists threaded through a table

A linked list whose links live in a table or in memory is a function `next`, from a node to
the node after it, and a head; `none` is the null link. `Chain next h l` says that following
`next` from `h` visits exactly the nodes `l` and then ends. The lemmas are the ones an
allocator needs: a chain is determined by its head, visits no node twice, survives changes
elsewhere, and can be pushed to, popped and unlinked from. `chainFind` is the bounded walk
along a chain; on a chain it computes `List.find?`.
-/

namespace AxonOS.Lib

open List

variable {α : Type}

/-- Following `next` from `h` visits `l` and ends. -/
def Chain (next : α → Option α) : Option α → List α → Prop
  | h, [] => h = none
  | h, x :: l => h = some x ∧ Chain next (next x) l

variable {next next' : α → Option α} {h prev : Option α} {c x : α} {l l' a b : List α} {fuel : Nat}

@[simp] theorem chain_nil : Chain next h [] ↔ h = none := Iff.rfl

theorem chain_none (h : Chain next none l) : l = [] := by
  cases l with
  | nil => rfl
  | cons x l => cases h.1

theorem chain_some (h : Chain next (some x) l) : ∃ t, l = x :: t ∧ Chain next (next x) t := by
  cases l with
  | nil => cases h
  | cons y t =>
    obtain ⟨h1, h2⟩ := h
    injection h1 with h1
    subst h1
    exact ⟨t, rfl, h2⟩

theorem chain_unique (h1 : Chain next h l) (h2 : Chain next h l') : l = l' := by
  induction l generalizing l' h with
  | nil =>
    subst h1
    exact (chain_none h2).symm
  | cons x t ih =>
    obtain ⟨rfl, h1⟩ := h1
    obtain ⟨t', rfl, h2'⟩ := chain_some h2
    rw [ih h1 h2']

theorem chain_congr (heq : ∀ x ∈ l, next' x = next x) (hc : Chain next h l) : Chain next' h l := by
  induction l generalizing h with
  | nil => exact hc
  | cons x t ih =>
    refine ⟨hc.1, ?_⟩
    rw [heq x (by simp)]
    exact ih (fun y hy => heq y (by simp [hy])) hc.2

/-- From every node of a chain the rest of the chain is a chain. -/
theorem chain_suffix (hc : Chain next h (a ++ b)) : ∃ h', Chain next h' b := by
  induction a generalizing b h with
  | nil => exact ⟨h, hc⟩
  | cons x t ih => exact ih hc.2

/-- **A chain visits no node twice**: the rest of the chain after a node is determined by the
node, so a repeated node would have two rests of different length. -/
theorem chain_nodup (hc : Chain next h l) : l.Nodup := by
  induction l generalizing h with
  | nil => exact nodup_nil
  | cons x t ih =>
    refine nodup_cons.mpr ⟨?_, ih hc.2⟩
    intro hx
    obtain ⟨a, b, rfl⟩ := append_of_mem hx
    obtain ⟨h', hb⟩ := chain_suffix hc.2
    have heq := chain_unique hc.2 hb.2
    have hlen := congrArg List.length heq
    simp at hlen
    omega

/-- Pushing a new node: its own link is the old head, the others are unchanged. -/
theorem chain_push (hc : Chain next h l) (hx : next' x = h) (heq : ∀ y ∈ l, next' y = next y) :
    Chain next' (some x) (x :: l) :=
  ⟨rfl, hx ▸ chain_congr heq hc⟩

/-- Unlinking a node `s` behind a node `p`: `p` now points where `s` did. -/
theorem chain_unlink {p s : α} (hc : Chain next h (a ++ p :: s :: b)) (hp : next' p = next s)
    (hother : ∀ x, x ≠ p → x ≠ s → next' x = next x) : Chain next' h (a ++ p :: b) := by
  induction a generalizing b h with
  | nil =>
    have hnd := chain_nodup hc
    obtain ⟨h1, h2, h3⟩ := hc
    refine ⟨h1, ?_⟩
    rw [hp]
    refine chain_congr (fun x hx => hother x ?_ ?_) h3
    · rintro rfl; simp [hx] at hnd
    · rintro rfl; simp [hx] at hnd
  | cons y t ih =>
    have hnd := chain_nodup hc
    refine ⟨hc.1, ?_⟩
    rw [hother y (by rintro rfl; simp at hnd) (by rintro rfl; simp at hnd)]
    exact ih hc.2

/-- A pointer as a link; `0` is the null pointer. -/
def ofPtr (p : Nat) : Option Nat := if p = 0 then none else some p

/-- Walk along the links from `h` to the first node that satisfies `p`. The inner `none` is
the end of the list; the outer one is a walk that has made `fuel` steps and is not done. -/
def chainFind (next : α → Option α) (p : α → Bool) : Nat → Option α → Option (Option α)
  | _, none => some none
  | 0, some _ => none
  | n + 1, some x => if p x then some (some x) else chainFind next p n (next x)

/-- **A walk along a chain finds what a search of the list finds.** -/
theorem chainFind_eq (p : α → Bool) (hc : Chain next h l) (hlen : l.length ≤ fuel) :
    chainFind next p fuel h = some (l.find? p) := by
  induction l generalizing h fuel with
  | nil =>
    subst hc
    cases fuel <;> rfl
  | cons x t ih =>
    obtain ⟨rfl, hc⟩ := hc
    cases fuel with
    | zero => simp at hlen
    | succ n =>
      unfold chainFind
      rw [find?_cons]
      cases hp : p x with
      | true => rfl
      | false => simpa using ih hc (by simpa using hlen)

/-- Walk along the links from `h` to the node `c`, with the node before in hand: at the end
`some none` if there is no `c`, and otherwise the node whose link points to `c`, or `none` for
the head. -/
def chainPred [DecidableEq α] (next : α → Option α) (c : α) :
    Nat → Option α → Option α → Option (Option (Option α))
  | _, _, none => some none
  | 0, _, some _ => none
  | n + 1, prev, some x => if x = c then some (some prev) else chainPred next c n (some x) (next x)

theorem chainPred_of_not_mem [DecidableEq α] (hc : Chain next h l) (hlen : l.length ≤ fuel)
    (hmem : c ∉ l) :
    chainPred next c fuel prev h = some none := by
  induction l generalizing h prev fuel with
  | nil =>
    subst hc
    cases fuel <;> rfl
  | cons x t ih =>
    obtain ⟨rfl, hc⟩ := hc
    rw [mem_cons, not_or] at hmem
    cases fuel with
    | zero => simp at hlen
    | succ n =>
      unfold chainPred
      rw [if_neg (Ne.symm hmem.1)]
      exact ih hc (by simpa using hlen) hmem.2

theorem chainPred_of_mem [DecidableEq α] (hc : Chain next h (a ++ c :: b))
    (hlen : (a ++ c :: b).length ≤ fuel) :
    chainPred next c fuel prev h = some (some (a.getLast?.or prev)) := by
  induction a generalizing b h prev fuel with
  | nil =>
    obtain ⟨rfl, _⟩ := hc
    cases fuel with
    | zero => simp at hlen
    | succ n =>
      unfold chainPred
      rw [if_pos rfl]
      rfl
  | cons x t ih =>
    have hnd := chain_nodup hc
    obtain ⟨rfl, hc⟩ := hc
    have hx : x ≠ c := by
      rintro rfl
      simp at hnd
    cases fuel with
    | zero => simp at hlen
    | succ n =>
      unfold chainPred
      rw [if_neg hx, ih hc (by simpa using hlen)]
      cases t with
      | nil => rfl
      | cons y t =>
        rfl

/-- Unlinking a node: whatever points to it, the head or a node, now points where it did. -/
theorem chain_remove {h' : Option α} (hc : Chain next h (a ++ c :: b))
    (hhead : a = [] → h' = next c) (hkeep : a ≠ [] → h' = h)
    (hpred : ∀ p, a.getLast? = some p → next' p = next c)
    (hother : ∀ x, x ≠ c → a.getLast? ≠ some x → next' x = next x) : Chain next' h' (a ++ b) := by
  have hnd := chain_nodup hc
  rcases eq_nil_or_concat' a with rfl | ⟨a, p, rfl⟩
  · rw [hhead rfl]
    refine chain_congr (fun x hx => hother x ?_ (by simp)) hc.2
    rintro rfl
    exact (nodup_cons.mp hnd).1 hx
  · rw [hkeep (by simp)]
    rw [append_assoc] at hc ⊢
    refine chain_unlink hc (hpred p (by simp)) fun x hxp hxc => hother x hxc ?_
    simpa using Ne.symm hxp

/-- The part of a chain before the first changed link is still there. -/
theorem mem_of_chain_prefix :
    ∀ {a : List α} {h : Option α}, Chain next h (a ++ x :: b) → (∀ y ∈ a, next' y = next y) →
      Chain next' h l' → x ∈ l' := by
  intro a
  induction a generalizing l' with
  | nil =>
    intro h hc _ hc'
    obtain ⟨rfl, _⟩ := hc
    obtain ⟨t, rfl, _⟩ := chain_some hc'
    exact mem_cons_self
  | cons y a ih =>
    intro h hc heq hc'
    obtain ⟨rfl, hc⟩ := hc
    obtain ⟨t, rfl, ht⟩ := chain_some hc'
    rw [heq y mem_cons_self] at ht
    exact mem_cons_of_mem _ (ih hc (fun z hz => heq z (mem_cons_of_mem _ hz)) ht)

end AxonOS.Lib

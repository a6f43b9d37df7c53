import AxonOS.Paging.UserMap

/-! # What a call leaves alone

Two frame properties of the calls that change the tables of an address space. Pages that a call does
not name keep their translation, but for permissions: the code sets bits in entries that other pages
use too, and splits a large leaf into small ones that give access to user code. The page keeps its
permissions too exactly if those bits, granted beforehand, give it nothing new. Tables that the
address space does not own keep their entries, where the code can tell them from its own.
-/

namespace AxonOS.Paging

open Lib Option

/-! ## The calls -/

/-- The calls of `mm.c`. -/
inductive MmCall where
  | map (va pa : Nat) (flags : Flags)
  | unmap (share vaBegin vaEnd : Nat)
  | cow (shareCmp : Option Nat) (shared : Bool) (va : Nat)

/-- Those and the two of `user_map.c`. -/
inductive Call where
  | mm (call : MmCall)
  | unmapRange (vaBegin vaEnd : Nat)
  | mprotectRange (vaBegin vaEnd prot : Nat)

def MmCall.run (swapper pml4 : Nat) : MmCall → PtM Unit
  | .map va pa flags => mmMapUserPage swapper pml4 va pa flags
  | .unmap share vaBegin vaEnd => mmUnmapUserRange swapper pml4 share vaBegin vaEnd
  | .cow shareCmp shared va => mmCowFaultPage swapper pml4 shareCmp shared va

def Call.run (swapper pml4 : Nat) : Call → PtM Unit
  | .mm call => call.run swapper pml4
  | .unmapRange vaBegin vaEnd => userMapUnmapRange pml4 vaBegin vaEnd
  | .mprotectRange vaBegin vaEnd prot => userMapMprotectRange pml4 vaBegin vaEnd prot

/-- The pages that a call names. -/
def MmCall.pages : MmCall → Set Nat
  | .map va _ _ => {va / 4096}
  | .unmap _ vaBegin vaEnd => rangePages vaBegin vaEnd
  | .cow _ _ va => {va / 4096}

/-- The pages that a call works on. -/
def MmCall.worked : MmCall → Set Nat
  | .map va _ _ => {va / 4096}
  | .unmap _ vaBegin vaEnd =>
    { q | vaBegin < vaEnd ∧ unmapBegin vaBegin ≤ q ∧ q < unmapEnd vaEnd }
  | .cow _ _ va => {va / 4096}

/-- Unmapping sets no permission bits above level 1. -/
def MmCall.Widens : MmCall → Prop
  | .unmap _ _ _ => False
  | _ => True

def MmCall.scope (call : MmCall) (owned : Prop) : Scope :=
  ⟨call.worked, owned, call.Widens⟩

/-! ## Pages that are not named -/

/-- All permissions at the entries on the walk of `v`, and access at the large leaf of `v` if that
is in the user window. -/
def Grant.walkOf (v : Nat) : Grant where
  entry level q := decide (way (5 - level) q = way (5 - level) v)
  leaf q := decide (way 3 q = way 3 v) && inWindow v

/-- Access at the 2 MiB leaves that the range meets. -/
def Grant.blocksOf (begin_ end_ : Nat) : Grant where
  entry _ _ := false
  leaf q := decide (begin_ < end_ ∧ begin_ < q / 512 * 512 + 512 ∧ q / 512 * 512 < end_)

/-- What a call may give to the pages that it does not name. -/
def MmCall.grant : MmCall → Grant
  | .map va _ _ => .walkOf (va / 4096)
  | .unmap _ vaBegin vaEnd =>
    if vaBegin < vaEnd then .blocksOf (unmapBegin vaBegin) (unmapEnd vaEnd) else .nothing
  | .cow _ _ va => .walkOf (va / 4096)

/-- The walk that a call looks at its pages with meets every large leaf. -/
def MmCall.Sees (pml4 : Nat) (s : PtState) : MmCall → Prop
  | .unmap _ _ _ => Low pml4 s
  | _ => True

section Effects

variable {swapper pml4 : Nat} {s : PtState}

/-- What each call needs to keep to the tables of the address space. Unmapping looks at the pages
that are mapped, a fault at a page to be made private. -/
def MmCall.Guarded (swapper pml4 : Nat) (s : PtState) : MmCall → Prop
  | .map _ _ _ => True
  | .unmap share vaBegin vaEnd => Covered pml4 False [share]
      { q ∈ (MmCall.unmap share vaBegin vaEnd).worked | translate s.mem pml4 q ≠ none } s
  | .cow shareCmp shared va => LargeOwned pml4 (va / 4096) s
      ∧ (shared = false → CowLeaf pml4 (va / 4096) s →
        Covered pml4 True [cowShare swapper pml4 shareCmp, swapper] {va / 4096} s)

variable {c : Scope} {leaf : Pte}

theorem unmapEnd_le (vaEnd : Nat) : unmapEnd vaEnd ≤ 2 ^ 20 := by
  unfold unmapEnd AxonOS.Arch.MMIO_IDENTITY_LIMIT
  omega

theorem MmCall.worked_named (call : MmCall) : call.worked ⊆ call.pages := by
  intro q hq
  cases call with
  | map va pa flags => exact hq
  | unmap share vaBegin vaEnd =>
    obtain ⟨-, hq, hq'⟩ := hq
    unfold unmapBegin at hq
    unfold unmapEnd at hq'
    constructor <;> omega
  | cow shareCmp shared va => exact hq

/-- What the pages that a call has worked on are like when it returns. -/
def MmCall.Done (pml4 : Nat) (s s' : PtState) : MmCall → Prop
  | .map va _ _ => OpenTo pml4 3 (va / 4096) s'
  | .unmap _ vaBegin vaEnd => Low pml4 s → vaBegin < vaEnd →
      Cut pml4 (unmapBegin vaBegin) (unmapEnd vaEnd) (unmapBegin vaBegin) (unmapEnd vaEnd) s'
  | .cow _ _ va => OpenTo pml4 3 (va / 4096) s'

/-- A call makes edits on the walks of the pages it works on. -/
theorem makes_mmCall (swapper : Nat) (hwf : Wf pml4 s) (call : MmCall) (A : Prop)
    (hguard : A → call.Guarded swapper pml4 s) :
    Makes (Edit pml4 (call.scope A)) (call.run swapper pml4) s fun _ s' => call.Done pml4 s s' := by
  cases call with
  | map va pa flags => exact makes_mmMapUserPage hwf trivial swapper va pa flags rfl
  | unmap share vaBegin vaEnd =>
    refine makes_mmUnmapUserRange hwf swapper (fun hlt => ⟨?_, unmapEnd_le vaEnd, id⟩) ?_ hguard
    · exact fun q hq hq' => ⟨hlt, hq, hq'⟩
    · exact fun hlt q hq hq' hne => ⟨⟨hlt, hq, hq'⟩, hne⟩
  | cow shareCmp shared va =>
    exact makes_mmCowFaultPage hwf trivial shareCmp shared rfl (fun h => (hguard h).1)
      (Set.mem_singleton _) fun h => (hguard h).2

theorem mmCall_edits (swapper : Nat) (hwf : Wf pml4 s) (call : MmCall) :
    Edits pml4 (call.scope False) s (final (call.run swapper pml4) s) :=
  (makes_mmCall swapper hwf call False False.elim).final

theorem Grant.walkOf_fits {v q : Nat} (hc : c.pages = {v}) : (Grant.walkOf v).Fits c q := by
  constructor
  · intro _ k v' hk hv' hway
    rw [hc] at hv'
    obtain rfl := hv'
    simp only [walkOf, decide_eq_true_eq]
    rw [show 5 - (4 - k) = k + 1 by omega]
    exact hway
  · intro v' hv' hway
    rw [hc] at hv'
    obtain rfl := hv'
    simp [walkOf, hway]

theorem MmCall.grant_fits (call : MmCall) (A : Prop) (q : Nat) :
    call.grant.Fits (call.scope A) q := by
  cases call with
  | map va pa flags => exact Grant.walkOf_fits rfl
  | cow shareCmp shared va => exact Grant.walkOf_fits rfl
  | unmap share vaBegin vaEnd =>
    refine ⟨fun h => h.elim, ?_⟩
    rintro v ⟨hlt, hv, hv'⟩ hway
    have hway : q / 512 = v / 512 := hway
    have hbegin : 0x200 ≤ unmapBegin vaBegin := by
      unfold unmapBegin
      omega
    have hend := unmapEnd_le vaEnd
    simp only [grant, if_pos hlt, Grant.blocksOf, inWindow]
    rw [decide_eq_true (by omega), decide_eq_true (by omega)]

/-- What was granted on the walk of a page is there when the walk is open. -/
theorem OpenTo.given {v q k t : Nat} (h : OpenTo pml4 3 v s) (hk : k ≤ 2)
    (ht : tab s.mem pml4 k q = some t) :
    (Grant.walkOf v).Given (4 - k) q (s.mem t (ix (4 - k) q)) := by
  -- an entry that the page shares with `v` is open
  have hshared : way (k + 1) q = way (k + 1) v → (s.mem t (ix (4 - k) q)).isTable = true
      ∧ (s.mem t (ix (4 - k) q)).us = true ∧ (s.mem t (ix (4 - k) q)).rw = true := by
    intro hway
    obtain ⟨t', ht', hopen⟩ := h k (by omega)
    obtain ⟨htq, hix⟩ := tab_same (by omega) hway ht'
    rw [ht] at htq
    obtain rfl := some.inj htq
    rw [hix]
    exact hopen
  unfold Grant.Given
  split
  next hps =>
    intro hleaf
    refine (hshared ?_).2.1
    simp only [Grant.atLeaf, Grant.walkOf, Bool.and_eq_true, Bool.or_eq_true, beq_iff_eq,
      decide_eq_true_eq] at hleaf
    rcases hleaf.2 with h2 | h3
    · obtain rfl : k = 2 := by omega
      exact hleaf.1.1
    · rwa [show 5 - (4 - k) = k + 1 by omega] at h3
  next =>
    intro hentry
    refine (hshared ?_).2
    simp only [Grant.walkOf, decide_eq_true_eq] at hentry
    rwa [show 5 - (4 - k) = k + 1 by omega] at hentry

/-- **When a call has returned, all that was granted is there.** -/
theorem MmCall.Done.granted {s' : PtState} {call : MmCall} (h : call.Done pml4 s s')
    (hsees : call.Sees pml4 s) {q : Nat} (hout : q ∉ call.pages) :
    call.grant.translate s'.mem pml4 q = translate s'.mem pml4 q := by
  apply Grant.translate_given
  intro k t hk ht hpres
  cases call with
  | map va pa flags => exact OpenTo.given h hk ht
  | cow shareCmp shared va => exact OpenTo.given h hk ht
  | unmap share vaBegin vaEnd =>
    unfold Grant.Given
    split
    next hps =>
      intro hleaf
      simp only [grant] at hleaf
      split at hleaf
      next hlt =>
        simp only [Grant.atLeaf, Grant.blocksOf, Bool.or_false, Bool.and_eq_true, decide_eq_true_eq,
          beq_iff_eq] at hleaf
        obtain ⟨⟨hne, hbegin, hend⟩, hlevel⟩ := hleaf
        obtain rfl : k = 2 := by omega
        -- a page of the range in the same 2 MiB
        have hblock : way 3 q = way 3 (max (unmapBegin vaBegin) (q / 512 * 512)) := by
          unfold way
          omega
        obtain ⟨htv, hix⟩ := tab_same (by omega) hblock.symm ht
        have hno := h hsees hlt (max (unmapBegin vaBegin) (q / 512 * 512)) (by omega) (by omega) ?_
          2 _ t le_rfl ?_ htv ?_ rfl
        · rw [hix, hps] at hno
          cases hno
        · simp only [covers2m, decide_eq_false_iff_not]
          rintro ⟨hcover, hcover'⟩
          refine hout (worked_named (.unmap share vaBegin vaEnd) ⟨hlt, ?_, ?_⟩) <;> omega
        · have := unmapEnd_le vaEnd
          unfold PAGES
          omega
        · rw [hix]
          exact hpres
      next => cases hleaf
    next =>
      intro hentry
      simp only [grant] at hentry
      split at hentry <;> cases hentry

/-- Calls one after the other, however each of them ends. -/
def runMm (swapper pml4 : Nat) (calls : List MmCall) (s : PtState) : PtState :=
  calls.foldl (fun s call => final (call.run swapper pml4) s) s

/-- **Every sequence of calls** keeps the tables a tree that the pages of the pool are not in, and
the pages that none of the calls names stay where they are. -/
theorem mmCalls_translate (swapper pml4 : Nat) (calls : List MmCall) (s : PtState)
    (hwf : Wf pml4 s) :
    Wf pml4 (runMm swapper pml4 calls s) ∧ ∀ q < PAGES, (∀ call ∈ calls, q ∉ call.pages) →
      Widens (translate s.mem pml4 q) (translate (runMm swapper pml4 calls s).mem pml4 q) := by
  induction calls generalizing s with
  | nil => exact ⟨hwf, fun _ _ _ => Widens.refl _⟩
  | cons call calls ih =>
    have hrun := mmCall_edits swapper hwf call
    obtain ⟨hwf', hrest⟩ := ih _ (Edits.wf hrun hwf)
    refine ⟨hwf', fun q hq hout => ?_⟩
    have hfirst := Edits.widens hrun hwf hq
      fun h => hout call List.mem_cons_self (call.worked_named h)
    exact hfirst.trans (hrest q hq fun c hc => hout c (List.mem_cons_of_mem call hc))

/-! An address space that has just been cloned from the swapper, with one 2 MiB leaf, at 2 MiB. -/

/-- The root is page 1, that of the swapper page 5; both lead to the tables 2 and 3, and none of
those belongs to the address space. -/
def cloned (leaf : Pte) : PtState where
  mem t i := if (t = 1 ∨ t = 5) ∧ i = 0 then ⟨.user, 2⟩
    else if t = 2 ∧ i = 0 then ⟨.user, 3⟩
    else if t = 3 ∧ i = 1 then leaf else {}
  allocs := []
  pool := [some 4, some 6, some 7]
  refs _ := 0
  frames := []
  data _ _ := 0

theorem cloned_entry (hleaf : leaf.isTable = false) {t i : Nat}
    (h : ((cloned leaf).mem t i).isTable = true) :
    i = 0 ∧ ((t = 1 ∨ t = 5) ∧ ((cloned leaf).mem t i).pfn = 2 ∨ t = 2
    ∧ ((cloned leaf).mem t i).pfn = 3) := by
  simp only [cloned] at h ⊢
  split at h
  next hti => exact ⟨hti.2, .inl ⟨hti.1, by rw [if_pos hti]⟩⟩
  next hno =>
  split at h
  next hti => exact ⟨hti.2, .inr ⟨hti.1, by rw [if_neg hno, if_pos hti]⟩⟩
  next =>
    split at h
    · rw [hleaf] at h
      cases h
    · cases h

/-- Both trees: the root, and the tables 2 and 3 below the first entries. -/
theorem cloned_tab (hleaf : leaf.isTable = false) {r k q t : Nat} (hr : r = 1 ∨ r = 5) (hk : k ≤ 3)
    (hq : q < PAGES) (h : tab (cloned leaf).mem r k q = some t) :
    k ≤ 2 ∧ t = (if k = 0 then r else k + 1) ∧ way k q = 0 := by
  induction k generalizing t with
  | zero => exact ⟨by omega, (some.inj h).symm, Nat.div_eq_of_lt (by unfold PAGES at hq; omega)⟩
  | succ k ih =>
    obtain ⟨t', ht', htable, hpfn⟩ := tab_of_succ h
    obtain ⟨hle, ht'', hway⟩ := ih (by omega) ht'
    obtain ⟨hix, hnext⟩ := cloned_entry hleaf htable
    rw [way_succ (by omega) q] at hway
    rw [ix_eq] at hix
    rw [if_neg (Nat.succ_ne_zero k)]
    split at ht'' <;> omega

theorem cloned_tab_same (k q : Nat) :
    tab (cloned leaf).mem 5 (k + 1) q = tab (cloned leaf).mem 1 (k + 1) q := by
  induction k with
  | zero => simp [tab, cloned]
  | succ k ih => simp only [tab] at ih ⊢; rw [ih]

theorem cloned_wf (hleaf : leaf.isTable = false) : Wf 1 (cloned leaf) := by
  refine ⟨⟨?_, ?_⟩, ?_, by simp [cloned]⟩
  · intro k j q v t hk hj hq hv h h'
    have h1 := cloned_tab hleaf (.inl rfl) hk hq h
    have h2 := cloned_tab hleaf (.inl rfl) hj hv h'
    obtain rfl : k = j := by
      have h1' := h1.2.1
      have h2' := h2.2.1
      split at h1' <;> split at h2' <;> omega
    exact ⟨rfl, h1.2.2.trans h2.2.2.symm⟩
  · intro i hpres
    simp only [cloned] at hpres ⊢
    split at hpres
    next h => rw [if_pos h]; rfl
    next h => simp at hpres
  · intro p hp k q t hk hq ht
    have hp : p = 4 ∨ p = 6 ∨ p = 7 := by simpa [cloned] using hp
    have h := cloned_tab hleaf (.inl rfl) hk hq ht
    have h' := h.2.1
    split at h' <;> omega

/-- `PG_PRESENT | PG_RW | PG_PS_2M`: a leaf of the kernel. -/
def kernelLeaf : Pte := ⟨{ present := true, rw := true, ps := true }, 512⟩

/-- `PG_PRESENT | PG_RW | PG_US | PG_PS_2M`. -/
def userLeaf : Pte := ⟨{ present := true, rw := true, us := true, ps := true }, 512⟩

/-- A page is mapped and unmapped again. -/
def mapUnmap : List MmCall := [.map 0x200000 0x500000 {}, .unmap 5 0x200000 0x201000]

theorem mmCalls_in_userLeaf : Wf 1 (runMm 5 1 mapUnmap (cloned userLeaf))
      ∧ Widens (translate (cloned userLeaf).mem 1 0x201)
      (translate (runMm 5 1 mapUnmap (cloned userLeaf)).mem 1 0x201) := by
  obtain ⟨hwf, hkept⟩ := mmCalls_translate 5 1 mapUnmap (cloned userLeaf) (cloned_wf rfl)
  exact ⟨hwf, hkept 0x201 (by decide) (by simp [mapUnmap, MmCall.pages, rangePages])⟩

/-! ## Tables of others -/

/-- What each call needs to keep to the tables of the address space. -/
def Call.Guarded (swapper pml4 : Nat) (s : PtState) : Call → Prop
  | .mm call => call.Guarded swapper pml4 s
  | .unmapRange vaBegin vaEnd =>
    Guards pml4 s (UnmapSlot (lowPages vaBegin vaEnd) pml4 s)
  | .mprotectRange vaBegin vaEnd prot =>
    Guards pml4 s (ProtSlot (rangeFlags vaBegin vaEnd prot) (lowPages vaBegin vaEnd) pml4 s)

/-- The calls that look for no other trees. -/
def Call.Direct : Call → Prop
  | .mm (.unmap _ _ _) => False
  | .mm (.cow _ _ _) => False
  | _ => True

theorem call_untouched (swapper : Nat) (hwf : Wf pml4 s) (call : Call) :
    (∀ t, Owns pml4 (final (call.run swapper pml4) s) t → Owns pml4 s t ∨ some t ∈ s.pool)
      ∧ (call.Guarded swapper pml4 s → Untouched pml4 s (final (call.run swapper pml4) s))
      ∧ (call.Direct → Returns (call.run swapper pml4) s →
        Untouched pml4 s (final (call.run swapper pml4) s) → call.Guarded swapper pml4 s) := by
  cases call with
  | mm call =>
    refine ⟨fun t => Edits.owns_inv (mmCall_edits swapper hwf call), fun hguard t ht => ?_, ?_⟩
    · exact Edits.frame (makes_mmCall swapper hwf call True fun _ => hguard).final trivial ht
    · intro hdirect _ _
      cases call with
      | map => trivial
      | unmap | cow => exact hdirect.elim
  | unmapRange vaBegin vaEnd =>
    obtain ⟨howns, hall, honly⟩ := (unmapSlots hwf vaBegin vaEnd).untouched
      (makes_userMapUnmapRange hwf vaBegin vaEnd)
    exact ⟨fun t h => .inl ((howns t).mp h), hall, fun _ => honly⟩
  | mprotectRange vaBegin vaEnd prot =>
    obtain ⟨howns, hall, honly⟩ := (protSlots hwf vaBegin vaEnd prot).untouched
      (makes_userMapMprotectRange hwf vaBegin vaEnd prot)
    exact ⟨fun t h => .inl ((howns t).mp h), hall, fun _ => honly⟩

theorem cloned_covered (pages : Set Nat) : Covered 1 False [5] pages (cloned userLeaf) := by
  constructor
  · intro v k t _ _ _ ht
    cases k with
    | zero => exact .inr (.inl (.inl (some.inj ht).symm))
    | succ k => exact .inr (.inr ⟨5, by simp, (cloned_tab_same k v).trans ht⟩)
  · intro b hb v k t _ hv hk ht
    obtain rfl := List.mem_singleton.mp hb
    have h := (cloned_tab rfl (.inr rfl) hk hv ht).2.1
    have hne : t = 5 ∨ 2 ≤ t ∧ t ≤ 3 := by
      have hk2 := (cloned_tab rfl (.inr rfl) hk hv ht).1
      split at h <;> omega
    constructor
    · rintro (h1 | h1)
      · omega
      · cases h1
    · simp only [cloned, List.mem_cons, some.injEq, List.not_mem_nil, or_false]
      omega
  · intro b _ v k t _ _ _ _ htable
    obtain ⟨hix, hplace⟩ := cloned_entry rfl htable
    rw [hix]
    rcases hplace with ⟨rfl | rfl, -⟩ | ⟨rfl, -⟩ <;> decide
  · intro b hb v _ _ hpres
    obtain rfl := List.mem_singleton.mp hb
    simp only [cloned] at hpres ⊢
    split at hpres
    next h => rw [if_pos h]; rfl
    next => simp at hpres

theorem cloned_mprotect :
    (Call.mprotectRange 0x200000 0x201000 1).Guarded 5 1 (cloned userLeaf) := by
  intro v t i e hW _
  cases hW with
  | small hv ht => exact absurd (cloned_tab rfl (.inl rfl) le_rfl (lt_pages hv.2) ht).1 (by omega)
  | large hall =>
    -- the 2 MiB page has more pages than the range
    obtain ⟨⟨h1, h2⟩, -⟩ := hall (v / 512 * 512) (by omega)
    obtain ⟨⟨h3, h4⟩, -⟩ := hall (v / 512 * 512 + 1) (by omega)
    omega

end Effects

end AxonOS.Paging

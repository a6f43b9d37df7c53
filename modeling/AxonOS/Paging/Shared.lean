import AxonOS.Paging.Specs

/-! # Tables that other trees use

An address space starts as a copy of the swapper's root table, so the walks of its pages go through
tables of the swapper; those of a child of `fork` may go through tables of the parent.
`mm_map_4k_sharedaware` and `mm_fork_private_pt_path` find such tables by comparing the entries on
the way with those of other trees.

If every table in which an entry on the walks has to change is the address space's own or that of
one of the trees looked at (`Covered`), they find all of them, and write to owned tables only.
-/

namespace AxonOS.Paging

open Lib List

/-- An entry after `k` steps on the walk of a page that a call leaves as it is. It is no large leaf
and leads to no table of the trees `bases`. The level-1 entry of a page to unmap is empty; above a
page to map the entries give all permissions and lead to a level-1 table of the address space. -/
structure Settled (root : Nat) (maps : Prop) (bases : List Nat) (s : PtState) (k v : Nat)
    (e : Pte) : Prop where
  small : k ≤ 2 → e.present = true → e.ps = false
  exclusive : k ≤ 2 → e.isTable = true → ∀ b ∈ bases, tab s.mem b (k + 1) v ≠ some e.pfn
  leaf : k = 3 → maps ∨ e.present = false
  access : k ≤ 2 → maps → e.isTable = true ∧ e.us = true ∧ e.rw = true
  own : k = 2 → maps → Owns root s e.pfn

/-- Where an entry on the walks of the pages is not settled, its table belongs to the address space
or is at the same place in one of the trees `bases`; and those trees are apart from the address
space, with tables below 4 GiB and no large leaves in their roots. -/
structure Covered (root : Nat) (maps : Prop) (bases : List Nat) (pages : Set Nat) (s : PtState) :
    Prop where
  walk : ∀ v k t, v ∈ pages → v < PAGES → k ≤ 3 → tab s.mem root k v = some t →
    Settled root maps bases s k v (s.mem t (ix (4 - k) v)) ∨ Owns root s t
      ∨ ∃ b ∈ bases, tab s.mem b k v = some t
  apart : ∀ b ∈ bases, ∀ v k t, v ∈ pages → v < PAGES → k ≤ 3 → tab s.mem b k v = some t →
    ¬ Owns root s t ∧ some t ∉ s.pool
  low : ∀ b ∈ bases, ∀ v k t, v ∈ pages → v < PAGES → k ≤ 2 → tab s.mem b k v = some t →
    (s.mem t (ix (4 - k) v)).isTable = true → (s.mem t (ix (4 - k) v)).ptr < 2 ^ 20
  top : ∀ b ∈ bases, ∀ v, v ∈ pages → v < PAGES → (s.mem b (ix 4 v)).present = true →
    (s.mem b (ix 4 v)).ps = false

/-- The entry `se` leads to the next table on the walk in the tree `b`, if it goes on after `k`
steps. -/
structure Shows (s : PtState) (b k v : Nat) (se : Pte) : Prop where
  next : ∀ t, tab s.mem b (k + 1) v = some t ↔ se.isTable = true ∧ se.ptr = t
  low : se.isTable = true → se.ptr < 2 ^ 20

section Shared

variable {root : Nat} {c : Scope} {s s' : PtState} {k v t l b : Nat}
    {bases : List Nat} {e se ke : Pte} {D : Set Nat} {maps : Prop}

theorem ptr_eq (h : e.ptr < 2 ^ 20) : e.ptr = e.pfn := by
  unfold Pte.ptr at h ⊢
  cases hnx : e.nx with
  | true =>
    rw [hnx, if_pos rfl] at h
    omega
  | false =>
    rw [if_neg Bool.false_ne_true]
    omega

/-! ## What edits keep -/

theorem Edit.owns_inv (h : Edit root c s s') (ht : Owns root s' t) :
    Owns root s t ∨ some t ∈ s.pool := by
  cases h with
  | other _ hallocs _ => exact .inl (ht.imp id fun h => hallocs ▸ h)
  | drop _ => exact .inl ht
  | link _ _ _ _ _ hpool _ =>
    rcases ht with ht | ht
    · exact .inl (.inl ht)
    · rcases mem_cons.mp ht with rfl | ht
      · exact .inr (hpool ▸ mem_cons_self)
      · exact .inl (.inr ht)
  | set _ _ _ _ _ _ => exact .inl ht

theorem Edit.pool_sub (h : Edit root c s s') (ht : some t ∈ s'.pool) : some t ∈ s.pool := by
  cases h with
  | other _ _ hpool => exact hpool ▸ ht
  | drop hpool | link _ _ _ _ _ hpool _ => exact hpool ▸ mem_cons_of_mem _ ht
  | set _ _ _ _ _ _ => exact ht

/-- A table on a walk that is not owned was there before. -/
theorem Edit.tab_old (h : Edit root c s s') (hwf : Wf root s) (hv : v < PAGES) (hk : k ≤ 3)
    (ht : tab s'.mem root k v = some t) : Owns root s' t ∨ tab s.mem root k v = some t := by
  cases h with
  | other hmem _ _ => exact .inr (hmem ▸ ht)
  | drop _ => exact .inr ht
  | link hk' _ hv' ht' _ hpool hlink =>
    rcases link_tab hwf hk' hv' hv ht' (hpool ▸ mem_cons_self) hlink hk ht with ⟨rfl, _⟩ | h
    · exact .inl (.inr mem_cons_self)
    · exact .inr h
  | set hk' _ hv' ht' _ hset =>
    rw [set_tab hwf.tree hk' hv' hv ht' hset hk] at ht
    exact .inr ht

theorem Edits.tab_old (h : Edits root c s s') (hwf : Wf root s) (hv : v < PAGES) (hk : k ≤ 3)
    (ht : tab s'.mem root k v = some t) : Owns root s' t ∨ tab s.mem root k v = some t := by
  induction h generalizing t with
  | refl => exact .inr ht
  | tail hrun hstep ih =>
    rcases hstep.tab_old (Edits.wf hrun hwf) hv hk ht with h | h
    · exact .inl h
    · exact (ih h).imp_left hstep.owns

/-- What an address space comes to own was in the pool. -/
theorem Edits.owns_inv (h : Edits root c s s') (ht : Owns root s' t) :
    Owns root s t ∨ some t ∈ s.pool := by
  induction h using Relation.ReflTransGen.head_induction_on with
  | refl => exact .inl ht
  | head hstep _ ih => exact ih.elim hstep.owns_inv fun h => .inr (hstep.pool_sub h)

theorem Edits.pool_sub (h : Edits root c s s') (ht : some t ∈ s'.pool) : some t ∈ s.pool := by
  induction h with
  | refl => exact ht
  | tail _ hstep ih => exact ih (hstep.pool_sub ht)

theorem Edits.covered (h : Edits root c s s') (hwf : Wf root s) (hc : c.owned)
    (hcov : Covered root maps bases D s) : Covered root maps bases D s'
      ∧ ∀ b ∈ bases, ∀ v k, v ∈ D → v < PAGES → k ≤ 3 → tab s'.mem b k v = tab s.mem b k v := by
  -- the tables of the other trees keep their entries
  have hpath : ∀ b ∈ bases, ∀ v, v ∈ D → v < PAGES → SamePath s.mem s'.mem b 4 v := by
    intro b hb v hv hv' k t hk ht
    have hboth := hcov.apart b hb v k t hv hv' (by omega) ht
    rw [h.frame hc fun hown => (h.owns_inv hown).elim hboth.1 hboth.2]
  have htab : ∀ b ∈ bases, ∀ v k, v ∈ D → v < PAGES → k ≤ 3 →
    tab s'.mem b k v = tab s.mem b k v :=
    fun b hb v k hv hv' hk => ((hpath b hb v hv hv').mono (by omega)).tab
  refine ⟨⟨?_, ?_, ?_, ?_⟩, htab⟩
  · intro v k t hv hv' hk ht
    by_cases hown : Owns root s' t
    · exact .inr (.inl hown)
    -- a table that is not owned was there before, with the same entries
    have hold := (h.tab_old hwf hv' hk ht).resolve_left hown
    rw [h.frame hc hown]
    rcases hcov.walk v k t hv hv' hk hold with hset | hown' | ⟨b, hb, hbt⟩
    · refine .inl ⟨hset.small, fun hk2 htable b hb => ?_, hset.leaf, hset.access,
        fun hk2 hmaps => h.owns (hset.own hk2 hmaps)⟩
      rw [htab b hb v (k + 1) hv hv' (by omega)]
      exact hset.exclusive hk2 htable b hb
    · exact absurd (h.owns hown') hown
    · exact .inr (.inr ⟨b, hb, by rw [htab b hb v k hv hv' hk, hbt]⟩)
  · intro b hb v k t hv hv' hk ht
    rw [htab b hb v k hv hv' hk] at ht
    have hboth := hcov.apart b hb v k t hv hv' hk ht
    exact ⟨fun hown => (h.owns_inv hown).elim hboth.1 hboth.2, fun hp => hboth.2 (h.pool_sub hp)⟩
  · intro b hb v k t hv hv' hk ht
    rw [htab b hb v k hv hv' (by omega)] at ht
    rw [hpath b hb v hv hv' k t (by omega) ht]
    exact hcov.low b hb v k t hv hv' hk ht
  · intro b hb v hv hv'
    rw [show s'.mem b (ix 4 v) = s.mem b (ix 4 v) from hpath b hb v hv hv' 0 b (by omega) rfl]
    exact hcov.top b hb v hv hv'

/-- The other trees are still covered after a run, where the scope asks for it. -/
theorem Edits.coveredIf (h : Edits root c s s') (hwf : Wf root s)
    (hcov : c.owned → Covered root maps bases D s) : c.owned → Covered root maps bases D s' :=
  fun hc => (Edits.covered h hwf hc (hcov hc)).1

/-! ## The entries of the other trees -/

theorem Shows.edits (h : Shows s b k v se) (hrun : Edits root c s s') (hwf : Wf root s)
    (hc : c.owned) (hcov : Covered root maps bases D s) (hb : b ∈ bases) (hv : v ∈ D)
    (hv' : v < PAGES) (hk : k ≤ 2) : Shows s' b k v se := by
  refine ⟨fun t => ?_, h.low⟩
  rw [(hrun.covered hwf hc hcov).2 b hb v (k + 1) hv hv' (by omega)]
  exact h.next t

theorem Covered.shows (hcov : Covered root maps bases D s) (hb : b ∈ bases) (hv : v ∈ D)
    (hv' : v < PAGES) (hk : k ≤ 2) (ht : tab s.mem b k v = some t) :
    Shows s b k v (s.mem t (ix (4 - k) v)) := by
  have hlow := hcov.low b hb v k t hv hv' hk ht
  refine ⟨fun t' => ?_, hlow⟩
  rw [tab_succ ht]
  split
  next htable => simp [htable, ptr_eq (hlow htable)]
  next htable => simp [htable]

theorem Covered.root_shows (hcov : Covered root maps bases D s) (hb : b ∈ bases) (hv : v ∈ D)
    (hv' : v < PAGES) (hpres : (s.mem b (ix 4 v)).present = true) :
    Shows s b 0 v (s.mem b (ix 4 v)) ∧ (s.mem b (ix 4 v)).isTable = true :=
  ⟨hcov.shows hb hv hv' (by omega) rfl, isTable_iff.mpr ⟨hpres, hcov.top b hb v hv hv' hpres⟩⟩

/-- The entry that the pointer of the last one leads to. -/
theorem Shows.below (h : Shows s b k v se) (htable : se.isTable = true)
    (hcov : Covered root maps bases D s) (hb : b ∈ bases) (hv : v ∈ D) (hv' : v < PAGES)
    (hk : k + 1 ≤ 2) : Shows s b (k + 1) v (s.mem se.ptr (ix (4 - (k + 1)) v)) :=
  hcov.shows hb hv hv' hk ((h.next se.ptr).mpr ⟨htable, rfl⟩)

theorem leads_low (htable : e.isTable = true) (hlow : e.ptr < 2 ^ 20) : leads e = true := by
  have hboth := isTable_iff.mp htable
  have hpfn : e.pfn < 2 ^ 20 := ptr_eq hlow ▸ hlow
  simp only [leads, ptPagePaOk, hboth.1, hboth.2, Bool.not_true, Bool.not_false, Bool.and_true,
    Bool.false_or, Bool.true_and, decide_eq_true_eq]
  exact hpfn

theorem leads_isTable (h : leads e = true) : e.isTable = true := by
  simp only [leads, Bool.and_eq_true] at h
  exact Bool.and_eq_true _ _ ▸ h.1

/-- Where the walk of the other tree has ended, an empty entry will do. -/
theorem Shows.ended (h : Shows s b k v se) (hend : leads se = false) : Shows s b (k + 1) v {} := by
  refine ⟨fun t => ⟨fun ht => ?_, fun ht => by cases ht.1⟩, fun ht => by cases ht⟩
  obtain ⟨t1, ht1, -, -⟩ := tab_of_succ ht
  have htable := ((h.next t1).mp ht1).1
  rw [leads_low htable (h.low htable)] at hend
  cases hend

/-- The comparison of the page numbers finds the table of the other tree. -/
theorem Shows.same_iff (h : Shows s b k v se) (htable : e.isTable = true)
    (hpa : ptPagePaOk e = true) :
    mmPteSamePtPage e se = true ↔ tab s.mem b (k + 1) v = some e.pfn := by
  have he := isTable_iff.mp htable
  rw [h.next]
  constructor
  · intro hsame
    unfold mmPteSamePtPage at hsame
    split at hsame
    · cases hsame
    · split at hsame
      · cases hsame
      · split at hsame
        · cases hsame
        · have hse : se.isTable = true := isTable_iff.mpr (by grind)
          rw [ptr_eq (h.low hse)]
          exact ⟨hse, (of_decide_eq_true hsame).symm⟩
  · rintro ⟨hse, hptr⟩
    rw [ptr_eq (h.low hse)] at hptr
    have hse' := isTable_iff.mp hse
    have hpa' : ptPagePaOk se = true := by simpa [ptPagePaOk, he.1, hse'.1, hptr] using hpa
    simp [mmPteSamePtPage, he.1, he.2, hse'.1, hse'.2, hpa, hpa', hptr]

/-- So does the comparison of the pointers. -/
theorem Shows.ptr_iff (h : Shows s b k v se) (hlow : e.ptr < 2 ^ 20) :
    (leads se && decide (e.ptr = se.ptr)) = true ↔ tab s.mem b (k + 1) v = some e.pfn := by
  rw [h.next, Bool.and_eq_true, decide_eq_true_eq, ptr_eq hlow]
  constructor
  · exact fun hboth => ⟨leads_isTable hboth.1, hboth.2.symm⟩
  · exact fun hboth => ⟨leads_low hboth.1 (h.low hboth.1), hboth.2.symm⟩

/-! ## Tables that may have to be written -/

/-- The walk of the page `v` reaches the table `t` after `k` steps, and the table belongs to the
address space or is not at that place in the other trees. -/
structure Spot (root : Nat) (c : Scope) (bases : List Nat) (s : PtState) (k v t : Nat) : Prop where
  page : v ∈ c.pages
  bound : v < PAGES
  table : tab s.mem root k v = some t
  mine : c.owned → Owns root s t ∨ ∀ b ∈ bases, tab s.mem b k v ≠ some t

theorem Slot.spot (h : Slot root c s k v t) : Spot root c bases s k v t :=
  ⟨h.page, h.bound, h.table, fun hc => .inl (h.own hc)⟩

/-- Where an entry is to be changed, the table may be written. -/
theorem Spot.slot (h : Spot root c bases s k v t) (hk : k ≤ 3)
    (hcov : c.owned → Covered root c.widens bases D s) (hv : v ∈ D)
    (hne : c.owned → ¬ Settled root c.widens bases s k v (s.mem t (ix (4 - k) v))) :
    Slot root c s k v t := by
  refine ⟨h.page, h.bound, h.table, fun hc => ?_⟩
  rcases (hcov hc).walk v k t hv h.bound hk h.table with hset | hown | ⟨b, hb, hbt⟩
  · exact absurd hset (hne hc)
  · exact hown
  · exact (h.mine hc).resolve_right fun hnot => hnot b hb hbt

theorem Spot.keep (h : Spot root c bases s k v t) (hrun : Edits root c s s') (hwf : Wf root s)
    (hk : k ≤ 3) (hkept : Kept root k v s s')
    (hcov : c.owned → Covered root c.widens bases D s) (hv : v ∈ D) :
    Spot root c bases s' k v t := by
  refine ⟨h.page, h.bound, (hkept k le_rfl).trans h.table, fun hc => ?_⟩
  refine (h.mine hc).imp hrun.owns fun hnot b hb => ?_
  rw [(hrun.covered hwf hc (hcov hc)).2 b hb v k hv h.bound hk]
  exact hnot b hb

theorem not_settled_large (hk : k ≤ 2) (hpres : e.present = true) (hps : e.ps = true) :
    ¬ Settled root maps bases s k v e := fun hset => by
  rw [hset.small hk hpres] at hps
  cases hps

theorem not_settled_shared (hk : k ≤ 2) (htable : e.isTable = true) (hb : b ∈ bases)
    (ht : tab s.mem b (k + 1) v = some e.pfn) : ¬ Settled root maps bases s k v e :=
  fun hset => hset.exclusive hk htable b hb ht

theorem not_settled_absent (hk : k ≤ 2) (hmaps : maps) (habsent : e.present = false) :
    ¬ Settled root maps bases s k v e := fun hset => by
  have hpres := (isTable_iff.mp (hset.access hk hmaps).1).1
  rw [habsent] at hpres
  cases hpres

/-! ## Copies -/

/-- The table `l` is below the entry of the walk after `k` steps, if the pointer `l` leads to a page
at all. -/
structure Reached (root : Nat) (c : Scope) (bases : List Nat) (s s' : PtState) (k v t l : Nat) :
    Prop where
  low : t < 2 ^ 20
  kept : Kept root k v s s'
  table : (s'.mem t (ix (4 - k) v)).isTable = true
  spot : l < 2 ^ 20 → Spot root c bases s' (k + 1) v l

theorem Linked.reached {flags : Flags} (h : Linked root c s s' k v t l flags)
    (ht : tab s.mem root k v = some t) (hlow : t < 2 ^ 20) :
    Reached root c bases s s' k v t l := by
  refine ⟨hlow, h.same.kept, ?_, fun _ => h.slot.spot⟩
  obtain ⟨t', ht', htable, _⟩ := tab_of_succ h.slot.table
  rw [h.same.tab, ht] at ht'
  obtain rfl := Option.some.inj ht'
  exact htable

section

variable (hwf : Wf root s) (hk : k ≤ 2) (h : Spot root c bases s k v t)
    (htable : (s.mem t (ix (4 - k) v)).isTable = true) (ht : t < 2 ^ 20)

include hwf hk h htable ht

theorem makes_replaceByCopy (hslot : (s.mem t (ix (4 - k) v)).ptr < 2 ^ 20 → Slot root c s k v t)
    (code : Int) :
    Makes (Edit root c) (replaceByCopy t (ix (4 - k) v) (s.mem t (ix (4 - k) v)) code) s
      fun l s' => Reached root c bases s s' k v t l := by
  unfold replaceByCopy
  by_cases hlow : (s.mem t (ix (4 - k) v)).ptr < 2 ^ 20
  · rw [ptr_eq hlow]
    refine (makes_copy hwf hk (hslot hlow) htable ht code).post ?_
    intro l s' _ hl
    exact hl.reached h.table ht
  · unfold dupPtPage
    simp only [bind_assoc]
    apply makes_failIf_bind
    intro hnot
    exact absurd (by simpa using hnot) hlow

theorem makes_copyIf {b : Bool}
    (hslot : b = true → (s.mem t (ix (4 - k) v)).ptr < 2 ^ 20 → Slot root c s k v t)
    (hmine : b = false → (s.mem t (ix (4 - k) v)).ptr < 2 ^ 20 → c.owned →
      Owns root s (s.mem t (ix (4 - k) v)).pfn
        ∨ ∀ b ∈ bases, tab s.mem b (k + 1) v ≠ some (s.mem t (ix (4 - k) v)).pfn) :
    Makes (Edit root c) (copyIf b t (ix (4 - k) v) (s.mem t (ix (4 - k) v))) s
      fun l s' => Reached root c bases s s' k v t l := by
  unfold copyIf
  split
  next hb => exact makes_replaceByCopy hwf hk h htable ht (hslot hb) _
  next hb =>
    refine makes_pure ⟨ht, Kept.refl _ _ _ _, htable, ?_⟩
    intro hlow
    rw [ptr_eq hlow]
    exact ⟨h.page, h.bound, by rw [tab_succ h.table, if_pos htable],
      hmine (by simpa using hb) hlow⟩

end

/-! ## `mm_map_4k_sharedaware` -/

section Sharedaware

variable {share swapper : Nat}

/-- The other trees are those of `share` and of the swapper, and the entries on the way are
known. -/
structure Compared (root : Nat) (c : Scope) (D : Set Nat) (share swapper : Nat) (s : PtState)
    (k v : Nat) (se ke : Pte) : Prop where
  covered : Covered root c.widens [share, swapper] D s
  share : Shows s share k v se
  swapper : Shows s swapper k v ke

theorem Compared.edits (h : Compared root c D share swapper s k v se ke)
    (hrun : Edits root c s s') (hwf : Wf root s) (hc : c.owned) (hv : v ∈ D) (hv' : v < PAGES)
    (hk : k ≤ 2) : Compared root c D share swapper s' k v se ke :=
  ⟨(hrun.covered hwf hc h.covered).1, h.share.edits hrun hwf hc h.covered (by simp) hv hv' hk,
    h.swapper.edits hrun hwf hc h.covered (by simp) hv hv' hk⟩

/-- An entry that is the same page as one of the others has to be changed. -/
theorem Compared.not_settled (h : Compared root c D share swapper s k v se ke) (hk : k ≤ 2)
    (htable : e.isTable = true) (hpa : ptPagePaOk e = true)
    (hsame : (mmPteSamePtPage e se || mmPteSamePtPage e ke) = true) :
    ¬ Settled root c.widens [share, swapper] s k v e := by
  rcases Bool.or_eq_true_iff.mp hsame with h1 | h1
  · exact not_settled_shared hk htable (by simp) ((h.share.same_iff htable hpa).mp h1)
  · exact not_settled_shared hk htable (by simp) ((h.swapper.same_iff htable hpa).mp h1)

theorem Compared.exclusive (h : Compared root c D share swapper s k v se ke)
    (htable : e.isTable = true) (hpa : ptPagePaOk e = true)
    (hnot : (mmPteSamePtPage e se || mmPteSamePtPage e ke) = false) :
    ∀ b ∈ [share, swapper], tab s.mem b (k + 1) v ≠ some e.pfn := by
  have hboth := Bool.or_eq_false_iff.mp hnot
  refine forall_mem_cons.mpr ⟨fun ht => ?_, forall_mem_singleton.mpr fun ht => ?_⟩
  · exact absurd ((h.share.same_iff htable hpa).mpr ht) (Bool.eq_false_iff.mp hboth.1)
  · exact absurd ((h.swapper.same_iff htable hpa).mpr ht) (Bool.eq_false_iff.mp hboth.2)

theorem makes_sharedawareL3 (hwf : Wf root s) (hv : v ∈ c.pages) (hv' : v < PAGES)
    (hcmp : c.owned → Compared root c D share swapper s 0 v se ke) :
    Makes (Edit root c) (sharedawareL3 root (ix 4 v) se ke) s fun l s' =>
    Reached root c [share, swapper] s s' 0 v root l := by
  have hslot := Slot.ofRoot root s hv hv'
  unfold sharedawareL3
  apply makes_readEntry_bind
  intro ht
  split
  next hpres =>
    have htable := hwf.root_table hpres
    apply makes_failIf_bind
    intro hpa
    refine makes_copyIf hwf (show 0 ≤ 2 by omega) hslot.spot htable ht (fun _ _ => hslot) ?_
    intro hnot _ hc
    exact .inr ((hcmp hc).exclusive htable (by simpa using hpa) hnot)
  next habsent =>
    refine (makes_fill hwf (show 0 ≤ 2 by omega) hslot (by simpa using habsent) ht _).post ?_
    intro l s' _ hl
    exact hl.reached hslot.table ht

section

variable (hwf : Wf root s) (hw : c.widens) (hv : v ∈ D)

include hwf hw hv

theorem makes_sharedawareL2 (hspot : t < 2 ^ 20 → Spot root c [share, swapper] s 1 v t)
    (hcmp : c.owned → Compared root c D share swapper s 1 v se ke) :
    Makes (Edit root c) (sharedawareL2 t (ix 3 v) se ke) s fun l s' =>
    Reached root c [share, swapper] s s' 1 v t l := by
  have hcov := fun hc => (hcmp hc).covered
  unfold sharedawareL2
  apply makes_readEntry_bind
  intro ht
  have hspot := hspot ht
  refine Makes.bind (Q := fun _ s' => SplitDone root s s' 1 v t) ?_ ?_
  · apply makes_doIf
    · refine fun _ => makes_splitL31gToL2 hwf (fun _ hpres hps => ?_) _
      exact hspot.slot (by omega) hcov hv fun _ => not_settled_large (by omega) hpres hps
    · exact splitDone_refl (k := 1)
  intro _ s1 hrun hdone
  have hwf1 := Edits.wf hrun hwf
  have hspot1 := hspot.keep hrun hwf (by omega) hdone.same.kept hcov hv
  have hcmp1 : c.owned → Compared root c D share swapper s1 1 v se ke :=
    fun hc => (hcmp hc).edits hrun hwf hc hv hspot.bound (by omega)
  have hcov1 := fun hc => (hcmp1 hc).covered
  -- what holds of the walk from the second look on, holds of the whole
  have hwhole : ∀ {l : Nat} {s' : PtState}, Reached root c [share, swapper] s1 s' 1 v t l →
    Reached root c [share, swapper] s s' 1 v t l :=
    fun h => ⟨ht, hdone.same.kept.trans h.kept, h.table, h.spot⟩
  apply makes_readEntry_bind
  intro _
  apply makes_failIf_bind
  intro hps
  split
  next hpres =>
    have htable : (s1.mem t (ix (4 - 1) v)).isTable = true := isTable_iff.mpr ⟨hpres, hps⟩
    apply makes_failIf_bind
    intro hpa
    have hpa : ptPagePaOk (s1.mem t (ix (4 - 1) v)) = true := by simpa using hpa
    refine (makes_copyIf hwf1 (show 1 ≤ 2 by omega) hspot1 htable ht ?_ ?_).post ?_
    · intro hsame _
      exact hspot1.slot (by omega) hcov1 hv fun hc =>
        (hcmp1 hc).not_settled (by omega) htable hpa hsame
    · intro hnot _ hc
      exact .inr ((hcmp1 hc).exclusive htable hpa hnot)
    · intro l s' _ hl
      exact hwhole hl
  next habsent =>
    have habsent : (s1.mem t (ix (4 - 1) v)).present = false := by simpa using habsent
    have hslot1 := hspot1.slot (by omega) hcov1 hv fun _ => not_settled_absent (by omega) hw habsent
    refine (makes_fill hwf1 (show 1 ≤ 2 by omega) hslot1 habsent ht _).post ?_
    intro l s' _ hl
    exact hwhole (hl.reached hslot1.table ht)

omit hwf hw hv in
/-- The table of another tree that the code has a pointer to. -/
theorem not_settled_ptr {o : Option Nat} (h : Shows s b k v se) (hk : k ≤ 2) (hb : b ∈ bases)
    (htable : e.isTable = true) (hlow : e.ptr < 2 ^ 20) (ho : o = some e.ptr)
    (hse : ∀ p, o = some p → se.isTable = true ∧ se.ptr = p) :
    ¬ Settled root c.widens bases s k v e :=
  not_settled_shared hk htable hb ((h.next _).mpr (ptr_eq hlow ▸ hse _ ho))

theorem makes_sharedawareL1 (hspot : t < 2 ^ 20 → Spot root c [share, swapper] s 2 v t)
    (shareL2 swapperL2 : Option Nat)
    (hcmp : c.owned → Compared root c D share swapper s 2 v se ke) :
      Makes (Edit root c) (sharedawareL1 t (ix 2 v) shareL2 swapperL2 se ke) s fun l s' =>
        Reached root c [share, swapper] s s' 2 v t l
          ∧ (l < 2 ^ 20 → Slot root c s' 3 v l) := by
  have hcov := fun hc => (hcmp hc).covered
  unfold sharedawareL1
  apply makes_readEntry_bind
  intro ht
  have hspot := hspot ht
  split
  next habsent =>
    have habsent : (s.mem t (ix (4 - 2) v)).present = false := by simpa using habsent
    have hslot := hspot.slot (by omega) hcov hv fun _ => not_settled_absent le_rfl hw habsent
    refine (makes_fill hwf (le_refl 2) hslot habsent ht _).post ?_
    intro l s' _ hl
    exact ⟨hl.reached hslot.table ht, fun _ => hl.slot⟩
  next hpres =>
    apply makes_failIf_bind
    intro hpa
    have hpa : ptPagePaOk (s.mem t (ix (4 - 2) v)) = true := by simpa using hpa
    apply makes_failIf_bind
    intro hps
    have htable : (s.mem t (ix (4 - 2) v)).isTable = true :=
      isTable_iff.mpr ⟨by simpa using hpres, hps⟩
    have hnext : tab s.mem root 3 v = some (s.mem t (ix (4 - 2) v)).pfn := by
      rw [tab_succ hspot.table, if_pos htable]
    apply makes_mmOwnsPtPage_bind
    refine (makes_copyIf hwf (le_refl 2) hspot htable ht ?_ ?_).bind ?_
    · intro hsame hlow
      refine hspot.slot (by omega) hcov hv fun hc hset => ?_
      have hptr : (s.mem t (ix 2 v)).ptr = (s.mem t (ix 2 v)).pfn := ptr_eq hlow
      -- a table that is not in the list is not owned: the root is at another place
      have hown : (s.mem t (ix 2 v)).pfn ∈ s.allocs := by
        refine (hset.own rfl hw).resolve_left fun hroot => ?_
        have hplace := hwf.tree.place 3 0 v v root le_rfl (by omega) hspot.bound hspot.bound
          (hroot ▸ hnext) rfl
        exact absurd hplace.1 (by omega)
      have hopt : ∀ {o : Option Nat} {e' : Pte} {p : Nat},
          (if o.isSome && leads e' then some e'.ptr else none) = some p →
          e'.isTable = true ∧ e'.ptr = p := by
        intro o e' p h
        split at h
        next hboth => exact ⟨leads_isTable (Bool.and_eq_true _ _ ▸ hboth).2, Option.some.inj h⟩
        next => cases h
      simp only [Bool.or_eq_true, Bool.not_eq_true', beq_iff_eq] at hsame
      rcases hsame with (((hno | h1) | h1) | h1) | h1
      · rw [hptr] at hno
        simp [hown] at hno
      · exact not_settled_ptr (hcmp hc).share le_rfl (by simp) htable hlow h1
          (fun _ => hopt) hset
      · exact not_settled_ptr (hcmp hc).swapper le_rfl (by simp) htable hlow h1
          (fun _ => hopt) hset
      · exact (hcmp hc).not_settled le_rfl htable hpa (by rw [h1, Bool.true_or]) hset
      · exact (hcmp hc).not_settled le_rfl htable hpa (by rw [h1, Bool.or_true]) hset
    · intro hnot hlow _
      have howned : s.allocs.contains (s.mem t (ix 2 v)).ptr = true := by
        simp only [Bool.or_eq_false_iff, Bool.not_eq_false'] at hnot
        exact hnot.1.1.1.1
      rw [show (s.mem t (ix 2 v)).ptr = (s.mem t (ix 2 v)).pfn from ptr_eq hlow] at howned
      exact .inl (.inr (by simpa using howned))
    intro l s1 _ hl
    apply makes_mmOwnsPtPage_bind
    apply makes_readEntry_bind
    intro _
    apply makes_failIf_bind
    intro hlast
    refine makes_pure ⟨hl, fun hlow => ?_⟩
    have hmine : l ∈ s1.allocs := by
      simp only [Bool.or_eq_false_iff, Bool.not_eq_false'] at hlast
      simpa using hlast.1.1.1.1
    have hspot1 := hl.spot hlow
    exact ⟨hspot1.page, hspot1.bound, hspot1.table, fun _ => .inr hmine⟩

theorem makes_widenEntry (hk : k ≤ 2) (hspot : Spot root c bases s k v t)
    (hcov : c.owned → Covered root c.widens bases D s)
    (hnext : tab s.mem root (k + 1) v = some l) (rw : Bool) :
    Makes (Edit root c) (widenEntry t (ix (4 - k) v) rw) s fun _ s' =>
      Kept root 3 v s s' ∧ (rw = true → OpenTo root k v s → OpenTo root (k + 1) v s') := by
  have htable : (s.mem t (ix (4 - k) v)).isTable = true := by
    obtain ⟨t1, ht1, htable, -⟩ := tab_of_succ hnext
    rw [hspot.table] at ht1
    exact Option.some.inj ht1 ▸ htable
  unfold widenEntry
  apply makes_readEntry_bind
  intro ht
  by_cases hopen : (s.mem t (ix (4 - k) v)).us = true ∧ (s.mem t (ix (4 - k) v)).rw = true
  · -- the value that is there is written again
    have hsame : s.setEntry t (ix (4 - k) v) ((s.mem t (ix (4 - k) v)).widen false rw true)
        = s := by
      rw [widen_open hopen.1 hopen.2, setEntry_same]
    rw [writeEntry, if_pos ht]
    refine ends_modify.mpr ?_
    rw [hsame]
    exact ⟨.refl, Kept.refl _ _ _ _, fun _ h => h.succ hspot.table htable hopen.1 hopen.2⟩
  · have hslot := hspot.slot (by omega) hcov hv fun _ hset => hopen (hset.access hk hw).2
    have hset : SetOk c (4 - k) v (s.mem t (ix (4 - k) v))
        ((s.mem t (ix (4 - k) v)).widen false rw true) := .widen false rw true hw (by omega) htable
    refine (makes_writeEntry (by omega) hslot hset).post ?_
    rintro _ s' _ rfl
    refine ⟨set_kept hwf (by omega) hslot hset, ?_⟩
    rintro rfl hto
    exact hto.widened hwf hk hslot htable false

end

/-- The next entry of another tree, read if the pointer of the entry `se` leads to a table. -/
theorem makes_shows_bind (h : c.owned → Shows s b k v se)
    (hcov : c.owned → Covered root maps bases D s) (hb : b ∈ bases) (hv : v ∈ D)
    (hv' : v < PAGES) (hk : k + 1 ≤ 2) {cond : Bool} (hyes : cond = true → se.isTable = true)
    (hno : cond = false → leads se = false) {α : Type}
    {r : PtState → PtState → Prop} {Q : α → PtState → Prop} {f : Pte → PtM α}
    (hf : ∀ e, (c.owned → Shows s b (k + 1) v e) → Makes r (f e) s Q) :
    Makes r (readOpt (if cond then some se.ptr else none) (ix (4 - (k + 1)) v) >>= f) s Q := by
  cases cond with
  | true =>
    refine makes_readEntry_bind fun _ => ?_
    exact hf _ fun hc => (h hc).below (hyes rfl) (hcov hc) hb hv hv' hk
  | false => exact hf _ fun hc => (h hc).ended (hno rfl)

theorem makes_sharedawareTables (hwf : Wf root s) (hw : c.widens) (hv : v ∈ c.pages)
    (hv' : v < PAGES) (hvD : v ∈ D)
    (hcov : c.owned → Covered root c.widens [share, swapper] D s) :
    Makes (Edit root c) (sharedawareTables swapper root share v) s fun T s' =>
      Spot root c [share, swapper] s' 1 v T.l3 ∧ Spot root c [share, swapper] s' 2 v T.l2
          ∧ (∃ l, tab s'.mem root 3 v = some l)
          ∧ (T.l1 < 2 ^ 20 → Slot root c s' 3 v T.l1) := by
  unfold sharedawareTables
  apply makes_readEntry_bind
  intro _
  apply makes_failIf_bind
  intro hok4
  apply makes_readEntry_bind
  intro _
  -- level 4
  have hse := fun hc => (hcov hc).root_shows (b := share) (by simp) hvD hv'
    (by simpa using (Bool.or_eq_false_iff.mp hok4).1)
  have hke : c.owned → Shows s swapper 0 v
      (if (s.mem swapper (ix 4 v)).present then s.mem swapper (ix 4 v) else {}) := by
    intro hc
    have h : Shows s swapper 0 v (s.mem swapper (ix 4 v)) :=
      (hcov hc).shows (by simp) hvD hv' (show 0 ≤ 2 by omega) rfl
    split
    · exact h
    next hno =>
      have hno : (s.mem swapper (ix 4 v)).isTable = false := by simp [Pte.isTable, hno]
      exact ⟨fun t => by simp [h.next t, hno, show Pte.isTable {} = false from rfl],
        fun ht => by cases ht⟩
  generalize (if (s.mem swapper (ix 4 v)).present then s.mem swapper (ix 4 v)
    else {}) = ke4 at hke ⊢
  generalize s.mem share (ix 4 v) = se4 at hse ⊢
  refine (makes_sharedawareL3 hwf hv hv' fun hc => ⟨hcov hc, (hse hc).1, hke hc⟩).bind ?_
  intro l3 s1 hrun1 h3
  have hwf1 := Edits.wf hrun1 hwf
  have hcmp1 : c.owned → Compared root c D share swapper s1 0 v se4 ke4 := fun hc =>
    Compared.edits ⟨hcov hc, (hse hc).1, hke hc⟩ hrun1 hwf hc hvD hv' (by omega)
  have hcov1 := fun hc => (hcmp1 hc).covered
  -- level 3
  apply makes_readEntry_bind
  intro _
  have hse3 : c.owned → Shows s1 share 1 v (s1.mem se4.ptr (ix 3 v)) := fun hc =>
    (hcmp1 hc).share.below (hse hc).2 (hcov1 hc) (by simp) hvD hv' (by omega)
  generalize s1.mem se4.ptr (ix 3 v) = se3 at hse3 ⊢
  rw [readIf_eq]
  refine makes_shows_bind (fun hc => (hcmp1 hc).swapper) hcov1 (by simp) hvD hv'
    (show 0 + 1 ≤ 2 by omega) leads_isTable id ?_
  intro ke3 hke3
  have hcmp3 : c.owned → Compared root c D share swapper s1 1 v se3 ke3 :=
    fun hc => ⟨hcov1 hc, hse3 hc, hke3 hc⟩
  refine (makes_sharedawareL2 hwf1 hw hvD h3.spot hcmp3).bind ?_
  intro l2 s2 hrun2 h2
  have hwf2 := Edits.wf hrun2 hwf1
  have h3 : l3 < 2 ^ 20 → Spot root c [share, swapper] s2 1 v l3 :=
    fun hl => (h3.spot hl).keep hrun2 hwf1 (by omega) h2.kept hcov1 hvD
  have hcmp3 : c.owned → Compared root c D share swapper s2 1 v se3 ke3 :=
    fun hc => (hcmp3 hc).edits hrun2 hwf1 hc hvD hv' (by omega)
  have hcov2 := fun hc => (hcmp3 hc).covered
  apply makes_failIf_bind
  intro hpres3
  have hpres3 : se3.present = true := by simpa using hpres3
  refine makes_readOpt_skip fun _ => ?_
  refine makes_readOpt_skip fun _ => ?_
  apply makes_readEntry_bind
  intro hl3
  have h3 := h3 hl3
  -- the pointers that are kept are those of the other tables
  have hshare : (!se3.ps) = true → se3.isTable = true := fun hps =>
    isTable_iff.mpr ⟨hpres3, by simpa using hps⟩
  -- the second look at level 3
  refine Makes.bind (Q := fun l s' => Reached root c [share, swapper] s2 s' 1 v l3 l) ?_ ?_
  · apply makes_ite
    · refine fun hsame => makes_replaceByCopy hwf2 (show 1 ≤ 2 by omega) h3 h2.table hl3 ?_ _
      intro hlow
      refine h3.slot (by omega) hcov2 hvD fun hc => ?_
      have hptr : (s2.mem l3 (ix 3 v)).ptr = (s2.mem l3 (ix 3 v)).pfn := ptr_eq hlow
      have hpa : ptPagePaOk (s2.mem l3 (ix (4 - 1) v)) = true := by
        simp only [ptPagePaOk, Bool.or_eq_true, decide_eq_true_eq]
        exact .inr (ptr_eq hlow ▸ hlow)
      -- a pointer to the table that was reached
      have hpoint : ∀ {b : Nat} {e : Pte}, b ∈ [share, swapper] → Shows s2 b 1 v e →
          e.isTable = true → e.ptr = l2 →
          ¬ Settled root c.widens [share, swapper] s2 1 v (s2.mem l3 (ix (4 - 1) v)) := by
        intro b e hb hshow he hl2
        have h2' := (h2.spot (hl2 ▸ hshow.low he)).table
        rw [tab_succ h3.table, if_pos h2.table] at h2'
        refine not_settled_shared (by omega) h2.table hb ((hshow.next _).mpr ⟨he, ?_⟩)
        rw [hl2]
        exact (Option.some.inj h2').symm
      simp only [Bool.or_eq_true, beq_iff_eq] at hsame
      rcases hsame with ((h1 | h1) | h1) | h1
      · split at h1
        next hps =>
          exact hpoint (by simp) (hcmp3 hc).share (hshare hps) (Option.some.inj h1)
        next => cases h1
      · split at h1
        next hleads =>
          exact hpoint (by simp) (hcmp3 hc).swapper (leads_isTable hleads) (Option.some.inj h1)
        next => cases h1
      · exact (hcmp3 hc).not_settled (by omega) h2.table hpa ((Bool.or_eq_true ..).mpr (.inl h1))
      · exact (hcmp3 hc).not_settled (by omega) h2.table hpa ((Bool.or_eq_true ..).mpr (.inr h1))
    · exact fun _ => makes_pure ⟨hl3, Kept.refl _ _ _ _, h2.table, h2.spot⟩
  intro l2' s3 hrun3 h2'
  have hwf3 := Edits.wf hrun3 hwf2
  have h3 := h3.keep hrun3 hwf2 (by omega) h2'.kept hcov2 hvD
  have hcmp3 : c.owned → Compared root c D share swapper s3 1 v se3 ke3 :=
    fun hc => (hcmp3 hc).edits hrun3 hwf2 hc hvD hv' (by omega)
  have hcov3 := fun hc => (hcmp3 hc).covered
  -- level 2
  refine (makes_split2mTo4k hwf3 (fun hl hpres hps => (h2'.spot hl).slot (by omega) hcov3 hvD
    fun _ => not_settled_large le_rfl hpres hps) _).bind ?_
  intro _ s4 hrun4 hdone
  have hwf4 := Edits.wf hrun4 hwf3
  have h3 := h3.keep hrun4 hwf3 (by omega) (hdone.same.mono (by omega)).kept hcov3 hvD
  have h2' : l2' < 2 ^ 20 → Spot root c [share, swapper] s4 2 v l2' :=
    fun hl => (h2'.spot hl).keep hrun4 hwf3 (by omega) hdone.same.kept hcov3 hvD
  have hcmp4 : c.owned → Compared root c D share swapper s4 1 v se3 ke3 :=
    fun hc => (hcmp3 hc).edits hrun4 hwf3 hc hvD hv' (by omega)
  have hcov4 := fun hc => (hcmp4 hc).covered
  refine makes_shows_bind (fun hc => (hcmp4 hc).share) hcov4 (by simp) hvD hv'
    (show 1 + 1 ≤ 2 by omega) hshare (fun hps => ?_) ?_
  · have hps : se3.ps = true := by simpa using hps
    simp [leads, hps]
  intro se2 hse2
  refine makes_shows_bind (fun hc => (hcmp4 hc).swapper) hcov4 (by simp) hvD hv'
    (show 1 + 1 ≤ 2 by omega) leads_isTable id ?_
  intro ke2 hke2
  refine (makes_sharedawareL1 hwf4 hw hvD h2' _ _ fun hc => ⟨hcov4 hc, hse2 hc, hke2 hc⟩).bind ?_
  rintro l1 s5 hrun5 ⟨h1, hslot⟩
  have h3 := h3.keep hrun5 hwf4 (by omega) (fun j hj => h1.kept j (by omega)) hcov4 hvD
  have h2 := (h2' h1.low).keep hrun5 hwf4 (by omega) h1.kept hcov4 hvD
  exact makes_pure ⟨h3, h2, ⟨_, by rw [tab_succ h2.table, if_pos h1.table]⟩, hslot⟩

/-! Walks that only read. -/

section Reads

variable {r : PtState → PtState → Prop}

theorem makes_mmVaLeafPa (pml4 vpn : Nat) : Makes r (mmVaLeafPa pml4 vpn) s fun _ s' => s' = s := by
  unfold mmVaLeafPa
  repeat' first
    | exact makes_pure rfl
    | (apply makes_readEntry_bind; intro _)
    | split

theorem makes_mmUserLeafPaDirect (pml4 vpn : Nat) (write : Bool) :
    Makes r (mmUserLeafPaDirect pml4 vpn write) s fun _ s' => s' = s := by
  unfold mmUserLeafPaDirect
  repeat' first
    | exact makes_pure rfl
    | (apply makes_readEntry_bind; intro _)
    | split

end Reads

theorem makes_mmMap4kSharedaware (hwf : Wf root s) (hw : c.widens) (pfn : Nat) (flags : Flags)
    (hv : v ∈ c.pages) (hvD : v ∈ D)
    (hcov : c.owned → Covered root c.widens [share, swapper] D s) :
    Makes (Edit root c) (mmMap4kSharedaware swapper root share v pfn flags) s fun _ s' =>
      flags.rw = true → OpenTo root 3 v s' := by
  unfold mmMap4kSharedaware
  apply makes_failIf_bind
  intro hlow
  have hv' : v < PAGES := lt_pages (by simpa using hlow)
  apply makes_failIf_bind
  intro _
  apply makes_failIf_bind
  intro _
  refine (makes_sharedawareTables hwf hw hv hv' hvD hcov).bind ?_
  rintro T s1 hrun1 ⟨h3, h2, ⟨l, hnext⟩, h1⟩
  have hwf1 := Edits.wf hrun1 hwf
  have hcov1 := Edits.coveredIf hrun1 hwf hcov
  have h4 : Spot root c [share, swapper] s1 0 v root := (Slot.ofRoot root s1 hv hv').spot
  refine (makes_mmVaLeafPa share v).bind ?_
  rintro before _ _ rfl
  refine (makes_widenEntry hwf1 hw hvD (show 0 ≤ 2 by omega) h4 hcov1 h3.table _).bind ?_
  rintro _ s2 hrun2 ⟨hkept2, hopen2⟩
  have hwf2 := Edits.wf hrun2 hwf1
  have hcov2 := Edits.coveredIf hrun2 hwf1 hcov1
  have h3 := h3.keep hrun2 hwf1 (by omega) (fun j hj => hkept2 j (by omega)) hcov1 hvD
  have h2 := h2.keep hrun2 hwf1 (by omega) (fun j hj => hkept2 j (by omega)) hcov1 hvD
  refine (makes_widenEntry hwf2 hw hvD (show 1 ≤ 2 by omega) h3 hcov2 h2.table _).bind ?_
  rintro _ s3 hrun3 ⟨hkept3, hopen3⟩
  have hwf3 := Edits.wf hrun3 hwf2
  have hcov3 := Edits.coveredIf hrun3 hwf2 hcov2
  have hrun13 := Relation.ReflTransGen.trans hrun2 hrun3
  have hkept13 := hkept2.trans hkept3
  have h2 := h2.keep hrun3 hwf2 (by omega) (fun j hj => hkept3 j (by omega)) hcov2 hvD
  refine (makes_widenEntry hwf3 hw hvD (le_refl 2) h2 hcov3
    ((hkept13 3 le_rfl).trans hnext) _).bind ?_
  rintro _ s4 hrun4 ⟨hkept4, hopen4⟩
  have hwf4 := Edits.wf hrun4 hwf3
  by_cases hlow1 : T.l1 < 2 ^ 20
  · have h1 := (h1 hlow1).keep (hrun13.trans hrun4) (hkept13.trans hkept4) le_rfl
    refine (makes_writeEntry (le_refl 3) h1 (.leaf _ rfl (.inl hw))).bind ?_
    intro _ s5 _ hs5
    refine (makes_mmVaLeafPa share v).bind ?_
    rintro after _ _ rfl
    refine makes_failIf fun _ hrw => ?_
    have hopen := hopen4 hrw (hopen3 hrw (hopen2 hrw fun _ hk => absurd hk (Nat.not_lt_zero _)))
    rw [hs5]
    exact hopen.keep (set_same hwf4 (le_refl 3) h1 _)
  · unfold writeEntry
    rw [if_neg hlow1]
    exact makes_throw

end Sharedaware

end Shared

end AxonOS.Paging

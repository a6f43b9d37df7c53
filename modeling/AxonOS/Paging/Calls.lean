import AxonOS.Paging.Shared

/-! # Unmapping and copy-on-write

The edits of `mm_unmap_user_range` and `mm_cow_fault_page`.
-/

namespace AxonOS.Paging

open Lib Bool Relation Edits

section Calls

variable {root begin_ end_ : Nat} {c : Scope} {s s' : PtState} {k v t l share swapper : Nat}
  {e se : Pte} {D : Set Nat} {maps : Prop} {α : Type} {r : PtState → PtState → Prop}
  {Q : α → PtState → Prop}

/-! ## `mm_fork_private_pt_path` -/

/-- `share` is the only other tree: a table whose pointer is not the same is at another place. -/
theorem Shows.exclusive (h : Shows s share k v se) (hlow : e.ptr < 2 ^ 20)
    (hne : (leads se && decide (e.ptr = se.ptr)) = false) :
    ∀ b ∈ [share], tab s.mem b (k + 1) v ≠ some e.pfn := by
  refine List.forall_mem_singleton.mpr fun ht => ?_
  rw [(h.ptr_iff hlow).mpr ht] at hne
  cases hne

theorem Shows.not_settled (h : Shows s share k v se) (hk : k ≤ 2) (htable : e.isTable = true)
    (hlow : e.ptr < 2 ^ 20) (hsame : (leads se && decide (e.ptr = se.ptr)) = true) :
    ¬ Settled root maps [share] s k v e :=
  not_settled_shared hk htable (by simp) ((h.ptr_iff hlow).mp hsame)

theorem makes_forkL3 (hwf : Wf root s) (hv : v ∈ c.pages) (hv' : v < PAGES)
    (hse : c.owned → Shows s share 0 v se) :
    Makes (Edit root c) (forkL3 root (ix 4 v) se) s fun l s' =>
      Reached root c [share] s s' 0 v root l := by
  have hslot := Slot.ofRoot root s hv hv'
  unfold forkL3
  apply makes_readEntry_bind
  intro ht
  apply makes_failIf_bind
  intro hpres
  have htable := hwf.root_table (by simpa using hpres)
  apply makes_failIf_bind
  intro _
  refine makes_copyIf hwf (show 0 ≤ 2 by omega) hslot.spot htable ht (fun _ _ => hslot) ?_
  intro hne hlow hc
  exact .inr ((hse hc).exclusive hlow (by rw [hne, Bool.and_false]))

section

variable (hwf : Wf root s) (hvD : v ∈ D) (hcov : c.owned → Covered root c.widens [share] D s)

include hwf hvD hcov

theorem makes_forkL2 (hspot : t < 2 ^ 20 → Spot root c [share] s 1 v t)
    (hse : c.owned → Shows s share 1 v se) :
    Makes (Edit root c) (forkL2 t (ix 3 v) se) s fun l s' =>
      Reached root c [share] s s' 1 v t l := by
  unfold forkL2
  apply makes_readEntry_bind
  intro ht
  have hspot := hspot ht
  apply makes_failIf_bind
  intro hpres
  refine Makes.bind (Q := fun _ s' => SplitDone root s s' 1 v t) ?_ ?_
  · apply makes_doIf
    · refine fun _ => makes_splitL31gToL2 hwf (fun _ hpres hps => ?_) _
      exact hspot.slot (by omega) hcov hvD fun _ => not_settled_large (by omega) hpres hps
    · intro hsmall
      refine splitDone_refl (k := 1) ?_
      rw [show (s.mem t (ix (4 - 1) v)).ps = false from (or_eq_false_iff.mp hsmall).1,
        Bool.and_false]
  intro _ s1 hrun hdone
  have hwf1 := wf hrun hwf
  have hspot1 := hspot.keep hrun hwf (by omega) hdone.same.kept hcov hvD
  have hse1 : c.owned → Shows s1 share 1 v se := fun hc =>
    (hse hc).edits hrun hwf hc (hcov hc) (by simp) hvD hspot.bound (by omega)
  apply makes_readEntry_bind
  intro _
  apply makes_failIf_bind
  intro hps
  apply makes_failIf_bind
  intro hok
  have htable : (s1.mem t (ix (4 - 1) v)).isTable = true := by
    refine isTable_iff.mpr ⟨?_, hps⟩
    have := (or_eq_false_iff.mp hok).1
    simpa using this
  refine (makes_copyIf hwf1 (show 1 ≤ 2 by omega) hspot1 htable ht ?_ ?_).post ?_
  · intro hsame hlow
    exact hspot1.slot (by omega) (coveredIf hrun hwf hcov) hvD fun hc =>
      (hse1 hc).not_settled (by omega) htable hlow hsame
  · intro hne hlow hc
    exact .inr ((hse1 hc).exclusive hlow hne)
  · intro l s' _ hl
    exact ⟨ht, hdone.same.kept.trans hl.kept, hl.table, hl.spot⟩

/-- The path that the fork leaves: the level-2 table, and the level-1 table if there is one. -/
structure Forked (root : Nat) (c : Scope) (share : Nat) (s : PtState) (v l2 : Nat)
    (l1 : Option Nat) : Prop where
  spot : Spot root c [share] s 2 v l2
  present : (s.mem l2 (ix 2 v)).present = true
  last : ∀ l, l1 = some l → l < 2 ^ 20 → Spot root c [share] s 3 v l

theorem makes_forkL1 (hspot : t < 2 ^ 20 → Spot root c [share] s 2 v t)
    (hse : c.owned → Shows s share 2 v se) :
    Makes (Edit root c) (forkL1 t (ix 2 v) se) s fun o s' => Forked root c share s' v t o := by
  unfold forkL1
  apply makes_readEntry_bind
  intro ht
  have hspot := hspot ht
  apply makes_failIf_bind
  intro hpres
  have hpres : (s.mem t (ix 2 v)).present = true := by simpa using hpres
  apply makes_ite
  · intro _
    exact makes_pure ⟨hspot, hpres, nofun⟩
  intro hps
  have htable : (s.mem t (ix (4 - 2) v)).isTable = true := isTable_iff.mpr ⟨hpres, hps⟩
  apply makes_failIf_bind
  intro _
  refine (makes_copyIf hwf (le_refl 2) hspot htable ht ?_ ?_).bind ?_
  · intro hsame hlow
    exact hspot.slot (by omega) hcov hvD fun hc => (hse hc).not_settled le_rfl htable hlow hsame
  · intro hne hlow hc
    exact .inr ((hse hc).exclusive hlow hne)
  intro l s' hrun hl
  refine makes_pure ⟨hspot.keep hrun hwf (by omega) hl.kept hcov hvD,
    (isTable_iff.mp hl.table).1, ?_⟩
  intro l' h
  obtain rfl := Option.some.inj h
  exact hl.spot

theorem makes_mmForkPrivatePtPath (hv : v ∈ c.pages) :
    Makes (Edit root c) (mmForkPrivatePtPath root share v) s fun r s' =>
      Forked root c share s' v r.1 r.2 := by
  unfold mmForkPrivatePtPath
  apply makes_failIf_bind
  intro _
  apply makes_failIf_bind
  intro hlow
  have hv' : v < PAGES := lt_pages (by simpa using hlow)
  apply makes_readEntry_bind
  intro _
  apply makes_failIf_bind
  intro hok4
  have hse4 := fun hc => (hcov hc).root_shows (b := share) (by simp) hvD hv'
    (by simpa using (or_eq_false_iff.mp hok4).1)
  generalize s.mem share (ix 4 v) = se4 at hse4 ⊢
  refine (makes_forkL3 hwf hv hv' fun hc => (hse4 hc).1).bind ?_
  intro l3 s1 hrun1 h3
  have hwf1 := wf hrun1 hwf
  have hcov1 := coveredIf hrun1 hwf hcov
  apply makes_readEntry_bind
  intro _
  have hse3 : c.owned → Shows s1 share 1 v (s1.mem se4.ptr (ix 3 v)) := fun hc =>
    ((hse4 hc).1.edits hrun1 hwf hc (hcov hc) (by simp) hvD hv' (by omega)).below (hse4 hc).2
      (hcov1 hc) (by simp) hvD hv' (by omega)
  generalize s1.mem se4.ptr (ix 3 v) = se3 at hse3 ⊢
  refine (makes_forkL2 hwf1 hvD hcov1 h3.spot hse3).bind ?_
  intro l2 s2 hrun2 h2
  have hwf2 := wf hrun2 hwf1
  have hcov2 := coveredIf hrun2 hwf1 hcov1
  have hse32 : c.owned → Shows s2 share 1 v se3 := fun hc =>
    (hse3 hc).edits hrun2 hwf1 hc (hcov1 hc) (by simp) hvD hv' (by omega)
  rw [readIf_eq]
  refine makes_shows_bind hse32 hcov2 (by simp) hvD hv' (show 1 + 1 ≤ 2 by omega) leads_isTable
    id ?_
  intro se2 hse2
  refine (makes_forkL1 hwf2 hvD hcov2 h2.spot hse2).bind ?_
  intro o s3 _ h1
  exact makes_pure h1

end

/-! ## `mm_unmap_user_range` -/

theorem makes_orReturn {x : PtM α} (h : Makes r x s Q) (code : Int) :
    Makes r (orReturn x code) s Q := ends_throwAs.mpr h

/-- The range of pages that the code works on lies in the scope of a call that maps nothing. -/
structure InScope (c : Scope) (begin_ end_ : Nat) : Prop where
  pages : ∀ q, begin_ ≤ q → q < end_ → q ∈ c.pages
  low : end_ ≤ 2 ^ 20
  unmaps : ¬ c.widens

/-- The table below an entry whose pointer leads to a page. -/
theorem tab_ptr (ht : tab s.mem root k v = some t)
    (htable : (s.mem t (ix (4 - k) v)).isTable = true)
    (hlow : (s.mem t (ix (4 - k) v)).ptr < 2 ^ 20) :
    tab s.mem root (k + 1) v = some (s.mem t (ix (4 - k) v)).ptr := by
  rw [tab_succ ht, if_pos htable, ptr_eq hlow]

/-- Reading an entry of the table below: the walk has come one level further. -/
theorem makes_readBelow_bind {f : Pte → PtM α} {i : Nat} (ht : tab s.mem root k v = some t)
    (htable : (s.mem t (ix (4 - k) v)).isTable = true)
    (h : tab s.mem root (k + 1) v = some (s.mem t (ix (4 - k) v)).ptr →
      Makes r (f (s.mem (s.mem t (ix (4 - k) v)).ptr i)) s Q) :
    Makes r (readEntry (s.mem t (ix (4 - k) v)).ptr i >>= f) s Q :=
  makes_readEntry_bind fun hlow => h (tab_ptr ht htable hlow)

/-- No large leaf is on the walk of the page. -/
def NoLarge (root v : Nat) (s : PtState) : Prop :=
  AllEntries root (fun _ v' e => v' = v → e.ps = false) s

/-- No large leaf is at the pages from `lo` to `hi` whose 2 MiB are not all in the range. -/
def Cut (root begin_ end_ lo hi : Nat) (s : PtState) : Prop :=
  ∀ v, lo ≤ v → v < hi → covers2m begin_ end_ v = false → NoLarge root v s

/-- The tables and large leaves of the tree are below 4 GiB, and so are the pages that
`alloc_pt_page` will return. -/
structure Low (root : Nat) (s : PtState) : Prop where
  entries : AllEntries root (fun _ _ e => e.pfn < 2 ^ 20) s
  pool : ∀ p, some p ∈ s.pool → p < 2 ^ 20

theorem Edits.noLarge (h : Edits root c s s') (hwf : Wf root s) (hno : NoLarge root v s) :
    NoLarge root v s' := by
  induction h with
  | refl => exact hno
  | tail hrun hstep ih =>
    refine hstep.entries (wf hrun hwf) ⟨?_, ?_, ?_⟩ ih
    · exact fun _ _ _ _ _ htable _ => (isTable_iff.mp htable).2
    · intro v' e hps he hv'
      rw [he hv'] at hps
      cases hps
    · exact fun _ _ _ _ _ _ he => he

theorem Edits.low (h : Edits root c s s') (hwf : Wf root s) (hlow : Low root s) : Low root s' := by
  induction h with
  | refl => exact hlow
  | tail hrun hstep ih =>
    refine ⟨hstep.entries (wf hrun hwf) ⟨?_, ?_, ?_⟩ ih.entries,
      fun p hp => ih.pool p (hstep.pool_sub hp)⟩
    · exact fun _ _ _ p hp _ => ih.pool p hp
    · intro v' e _ he
      have hix : ix 2 v' < 512 := Nat.mod_lt _ (by omega)
      simp only [slice1g]
      omega
    · exact fun _ _ _ _ _ _ he => he

theorem tab_of_add {n : Nat} (h : tab s.mem root (k + n) v = some t) :
    ∃ t', tab s.mem root k v = some t' := by
  induction n generalizing t with
  | zero => exact ⟨t, h⟩
  | succ n ih =>
    obtain ⟨t', ht', -⟩ := tab_of_succ h
    exact ih ht'

/-- The walk has come to its last entry above level 1, and that is no large leaf. -/
theorem noLarge_of_tab (hk : k ≤ 2) (ht : tab s.mem root k v = some t)
    (hps : (s.mem t (ix (4 - k) v)).present = true → (s.mem t (ix (4 - k) v)).ps = false)
    (hend : k = 2 ∨ (s.mem t (ix (4 - k) v)).present = false) : NoLarge root v s := by
  rintro j v' t' hj - ht' hpres rfl
  rcases Nat.lt_trichotomy j k with hlt | rfl | hgt
  · -- the entries before lead to tables
    obtain ⟨n, rfl⟩ : ∃ n, k = j + 1 + n := ⟨k - (j + 1), by omega⟩
    obtain ⟨t1, ht1⟩ := tab_of_add ht
    obtain ⟨t2, ht2, htable, -⟩ := tab_of_succ ht1
    rw [ht'] at ht2
    exact (isTable_iff.mp (Option.some.inj ht2 ▸ htable)).2
  · rw [ht] at ht'
    obtain rfl := Option.some.inj ht'
    exact hps hpres
  · obtain ⟨n, rfl⟩ : ∃ n, j = k + 1 + n := ⟨j - (k + 1), by omega⟩
    obtain ⟨t1, ht1⟩ := tab_of_add ht'
    rw [tab_succ ht, Pte.isTable, hend.resolve_left (by omega)] at ht1
    cases ht1

/-- The leaf of any size that the walk of the page ends at. -/
def LeafAt (root v : Nat) (s : PtState) (e : Pte) : Prop :=
  ∃ k t, 1 ≤ k ∧ k ≤ 3 ∧ tab s.mem root k v = some t ∧ s.mem t (ix (4 - k) v) = e
    ∧ e.present = true ∧ (k = 3 ∨ e.ps = true)

theorem LeafAt.mapped (h : LeafAt root v s e) : translate s.mem root v ≠ none := by
  obtain ⟨k, t, hk, hk', ht, rfl, hpres, hleaf⟩ := h
  rw [← Grant.translate_nothing, translate_at hk' ht, Ne, Option.map_eq_none_iff]
  rcases Nat.lt_or_ge k 3 with hlt | hge
  · rw [Grant.walk_large (by omega) hpres (hleaf.resolve_left (by omega))]
    nofun
  · obtain rfl : k = 3 := by omega
    rw [Grant.walk_page hpres]
    nofun

/-- A page for which `mm_va_leaf_pa` finds something is mapped, and one for which it finds nothing
is in no large leaf. -/
theorem makes_mmVaLeafPa_none (hwf : Wf root s) (hv : v < 2 ^ 20) :
    Makes r (mmVaLeafPa root v) s fun o s' => s' = s ∧ (o ≠ none → translate s.mem root v ≠ none)
      ∧ (o = none → Low root s → NoLarge root v s) := by
  have hv' := lt_pages hv
  -- an entry that is below 4 GiB passes the test
  have hpa : ∀ {k t : Nat}, k ≤ 2 → tab s.mem root k v = some t → Low root s →
      (s.mem t (ix (4 - k) v)).present = true → ptPagePaOk (s.mem t (ix (4 - k) v)) = true := by
    intro k t hk ht hlow hpres
    simpa [ptPagePaOk, hpres] using hlow.entries k v t hk hv' ht hpres
  unfold mmVaLeafPa
  rw [if_neg (by omega)]
  apply makes_readEntry_bind
  intro _
  split
  next h4 =>
    refine makes_pure ⟨rfl, absurd rfl, fun _ hlow => ?_⟩
    have hno : (s.mem root (ix 4 v)).present = false := by
      by_contra hpres
      have hpres : (s.mem root (ix (4 - 0) v)).present = true := by simpa using hpres
      have hok := hpa (k := 0) (by omega) rfl hlow hpres
      have htop := hwf.tree.top _ hpres
      simp [hpres, hok, htop] at h4
    exact noLarge_of_tab (k := 0) (by omega) rfl (hwf.tree.top _) (.inr hno)
  next h4 =>
  simp only [Bool.not_eq_true, or_eq_false_iff, not_eq_false'] at h4
  refine makes_readBelow_bind (k := 0) rfl (isTable_iff.mpr h4.1) fun h3 => ?_
  generalize (s.mem root (ix 4 v)).ptr = l3 at h3 ⊢
  split
  next hno =>
    refine makes_pure ⟨rfl, absurd rfl, fun _ _ => ?_⟩
    have hno : (s.mem l3 (ix (4 - 1) v)).present = false := by simpa using hno
    exact noLarge_of_tab (by omega) h3 (fun h => by rw [hno] at h; cases h) (.inr hno)
  next hpres3 =>
  have hpres3 : (s.mem l3 (ix (4 - 1) v)).present = true := by simpa using hpres3
  split
  next hps3 =>
    exact makes_pure ⟨rfl,
      fun _ => LeafAt.mapped ⟨1, l3, le_rfl, by omega, h3, rfl, hpres3, .inr hps3⟩,
      fun h => by cases h⟩
  next hps3 =>
  split
  next hbad =>
    refine makes_pure ⟨rfl, absurd rfl, fun _ hlow => ?_⟩
    have hok : ptPagePaOk (s.mem l3 (ix 3 v)) = true := hpa (k := 1) (by omega) h3 hlow hpres3
    rw [hok] at hbad
    cases hbad
  next =>
  have htable3 := isTable_iff.mpr ⟨hpres3, by simpa using hps3⟩
  refine makes_readBelow_bind (k := 1) h3 htable3 fun h2 => ?_
  generalize (s.mem l3 (ix 3 v)).ptr = l2 at h2 ⊢
  split
  next hbad =>
    refine makes_pure ⟨rfl, absurd rfl, fun _ hlow => ?_⟩
    refine noLarge_of_tab (k := 2) le_rfl h2 (fun hpres => ?_) (.inl rfl)
    have hpres : (s.mem l2 (ix 2 v)).present = true := hpres
    have hok : ptPagePaOk (s.mem l2 (ix 2 v)) = true := hpa (k := 2) le_rfl h2 hlow hpres
    rw [hpres, hok] at hbad
    cases hbad
  next hok2 =>
  have hpres2 : (s.mem l2 (ix 2 v)).present = true := by
    simp only [Bool.not_eq_true, or_eq_false_iff, not_eq_false'] at hok2
    exact hok2.1
  split
  next hps2 =>
    exact makes_pure ⟨rfl, fun _ => LeafAt.mapped ⟨2, l2, by omega, by omega, h2, rfl, hpres2,
      .inr hps2⟩, fun h => by cases h⟩
  next hps2 =>
  have htable2 := isTable_iff.mpr ⟨hpres2, by simpa using hps2⟩
  refine makes_readBelow_bind (k := 2) h2 htable2 fun h1 => ?_
  generalize (s.mem l2 (ix 2 v)).ptr = l1 at h1 ⊢
  split
  next =>
    refine makes_pure ⟨rfl, absurd rfl,
      fun _ _ => noLarge_of_tab (k := 2) le_rfl h2 (fun _ => ?_) (.inl rfl)⟩
    exact Bool.not_eq_true _ ▸ hps2
  next hok1 =>
    simp only [Bool.not_eq_true, or_eq_false_iff, not_eq_false'] at hok1
    exact makes_pure ⟨rfl,
      fun _ => LeafAt.mapped ⟨3, l1, by omega, le_rfl, h1, rfl, hok1.1, .inl rfl⟩,
      fun h => by cases h⟩

theorem makes_mmVaLeafEntryDirect (root v : Nat) :
    Makes r (mmVaLeafEntryDirect root v) s fun o s' =>
      s' = s ∧ ∀ e, o = some e → LeafAt root v s e := by
  have hno : Makes r (pure none : PtM _) s fun o s' =>
      s' = s ∧ ∀ e, o = some e → LeafAt root v s e := makes_pure ⟨rfl, fun _ h => by cases h⟩
  have hyes : ∀ {e : Pte}, LeafAt root v s e → Makes r (pure (some e) : PtM _) s fun o s' =>
      s' = s ∧ ∀ e, o = some e → LeafAt root v s e :=
    fun h => makes_pure ⟨rfl, fun _ he => Option.some.inj he ▸ h⟩
  unfold mmVaLeafEntryDirect
  split
  · exact hno
  apply makes_readEntry_bind
  intro _
  apply makes_ite
  · exact fun _ => hno
  intro h4
  simp only [or_eq_false_iff, not_eq_false'] at h4
  refine makes_readBelow_bind (k := 0) rfl (isTable_iff.mpr h4.1) fun h3 => ?_
  generalize (s.mem root (ix 4 v)).ptr = l3 at h3 ⊢
  apply makes_ite
  · exact fun _ => hno
  intro hpres3
  have hpres3 : (s.mem l3 (ix (4 - 1) v)).present = true := by simpa using hpres3
  apply makes_ite
  · exact fun hps3 => hyes ⟨1, l3, le_rfl, by omega, h3, rfl, hpres3, .inr hps3⟩
  intro hps3
  apply makes_ite
  · exact fun _ => hno
  intro _
  refine makes_readBelow_bind (k := 1) h3 (isTable_iff.mpr ⟨hpres3, hps3⟩) fun h2 => ?_
  generalize (s.mem l3 (ix 3 v)).ptr = l2 at h2 ⊢
  apply makes_ite
  · exact fun _ => hno
  intro hpres2
  have hpres2 : (s.mem l2 (ix (4 - 2) v)).present = true := by simpa using hpres2
  apply makes_ite
  · exact fun hps2 => hyes ⟨2, l2, by omega, by omega, h2, rfl, hpres2, .inr hps2⟩
  intro hps2
  apply makes_ite
  · exact fun _ => hno
  intro _
  refine makes_readBelow_bind (k := 2) h2 (isTable_iff.mpr ⟨hpres2, hps2⟩) fun h1 => ?_
  generalize (s.mem l2 (ix 2 v)).ptr = l1 at h1 ⊢
  apply makes_ite
  · exact fun _ => hno
  intro hpres1
  exact hyes ⟨3, l1, by omega, le_rfl, h1, rfl, by simpa using hpres1, .inl rfl⟩

/-- The pages of the range that are mapped are in `D`. -/
def Mapped (root begin_ end_ : Nat) (D : Set Nat) (s : PtState) : Prop :=
  ∀ q, begin_ ≤ q → q < end_ → translate s.mem root q ≠ none → q ∈ D

theorem Mapped.edits (h : Mapped root begin_ end_ D s) (hrun : Edits root c s s') (hwf : Wf root s)
    (hin : InScope c begin_ end_) : Mapped root begin_ end_ D s' := by
  intro q hq hq' hne
  have hbound := lt_pages (lt_of_lt_of_le hq' hin.low)
  exact h q hq hq' fun hnone => hne (absent hrun hwf hin.unmaps hbound hnone)

theorem makes_unmapPrepare (hin : InScope c begin_ end_) (n vpn : Nat) (hvpn : begin_ ≤ vpn)
    (hn : end_ ≤ vpn + n) (hwf : Wf root s) (hD : Mapped root begin_ end_ D s)
    (hcov : c.owned → Covered root c.widens [share] D s) :
    Makes (Edit root c) (unmapPrepare root share begin_ end_ n vpn) s fun _ s' =>
      Low root s → Cut root begin_ end_ vpn end_ s' := by
  induction n generalizing vpn s with
  | zero => exact makes_pure fun _ v _ _ => by omega
  | succ n ih =>
    unfold unmapPrepare
    split
    next => exact makes_pure fun _ v _ _ => by omega
    next hlt =>
    have hv := hin.pages vpn hvpn (by omega)
    have hlow20 := hin.low
    -- from a later state on, at a later page; the pages before are done
    have hgo : ∀ {s' : PtState} {vpn' : Nat}, Edits root c s s' → vpn < vpn' →
        (Low root s → Cut root begin_ end_ vpn vpn' s') →
        Makes (Edit root c) (unmapPrepare root share begin_ end_ n vpn') s' fun _ s'' =>
          Low root s → Cut root begin_ end_ vpn end_ s'' := by
      intro s' vpn' hrun hlt' hdone
      refine (ih vpn' (by omega) (by omega) (wf hrun hwf) (hD.edits hrun hwf hin)
        (coveredIf hrun hwf hcov)).post ?_
      intro _ s'' hrun' hrest hlow v hv hv' hpart
      rcases Nat.lt_or_ge v vpn' with hbefore | hafter
      · exact noLarge hrun' (wf hrun hwf) (hdone hlow v hv hbefore hpart)
      · exact hrest (low hrun hwf hlow) v hafter hv' hpart
    refine (makes_mmVaLeafPa_none hwf (by omega)).bind ?_
    rintro leaf _ hrun ⟨rfl, hsome, hnone⟩
    cases leaf with
    | none =>
      refine hgo hrun (by omega) fun hlow v hv hv' _ => ?_
      obtain rfl : v = vpn := by omega
      exact hnone rfl hlow
    | some pa =>
      have hvD := hD vpn hvpn (by omega) (hsome nofun)
      refine (makes_orReturn (makes_mmForkPrivatePtPath hwf hvD hcov hv) _).bind ?_
      rintro ⟨l2, l1⟩ s1 hrun1 ⟨h2, -, -⟩
      have hwf1 := wf hrun1 hwf
      apply makes_readEntry_bind
      intro _
      apply makes_ite
      · intro _
        apply makes_failIf_bind
        intro _
        apply makes_ite
        · intro hcover
          refine hgo hrun1 (by omega) fun _ v hv hv' hpart => ?_
          simp only [covers2m, decide_eq_true_eq, decide_eq_false_iff_not] at hcover hpart
          omega
        · intro _
          refine (makes_split2mTo4k hwf1 (fun _ hpres hps => h2.slot (by omega)
            (coveredIf hrun1 hwf hcov) hvD fun _ => not_settled_large le_rfl hpres hps) _).bind ?_
          intro _ s2 hrun2 hdone
          refine hgo (ReflTransGen.trans hrun1 hrun2) (by omega) fun _ v hv hv' _ => ?_
          obtain rfl : v = vpn := by omega
          exact noLarge_of_tab le_rfl (hdone.same.tab.trans h2.table) hdone.small (.inl rfl)
      · intro hps
        refine hgo hrun1 (by omega) fun _ v hv hv' _ => ?_
        obtain rfl : v = vpn := by omega
        exact noLarge_of_tab le_rfl h2.table (fun _ => hps) (.inl rfl)

theorem makes_unmapLeaf {l1 : Option Nat} (hw : ¬ c.widens) (hvD : v ∈ D)
    (hcov : c.owned → Covered root c.widens [share] D s)
    (h : ∀ l, l1 = some l → l < 2 ^ 20 → Spot root c [share] s 3 v l) :
    Runs root c (unmapLeaf l1 v) s := by
  unfold unmapLeaf
  cases l1 with
  | none => exact makes_pure trivial
  | some l =>
    apply makes_readEntry_bind
    intro hlow
    apply makes_ite
    · intro hpres
      have hslot := (h l rfl hlow).slot le_rfl hcov hvD fun _ hset => by
        rw [(hset.leaf rfl).resolve_left hw] at hpres
        cases hpres
      refine (makes_writeEntry (le_refl 3) hslot (.leaf {} rfl (.inr nofun))).bind ?_
      intro _ s1 _ _
      exact makes_doIf (fun _ => (makes_frameRelease _).post fun _ _ _ _ => trivial)
        fun _ => trivial
    · exact fun _ => makes_pure trivial

theorem makes_unmapCommit (hin : InScope c begin_ end_) (n vpn : Nat)
    (hvpn : begin_ ≤ vpn) (hwf : Wf root s) (hD : Mapped root begin_ end_ D s)
    (hcov : c.owned → Covered root c.widens [share] D s) :
    Runs root c (unmapCommit root share begin_ end_ n vpn) s := by
  induction n generalizing vpn s with
  | zero => exact makes_pure trivial
  | succ n ih =>
    unfold unmapCommit
    split
    next => exact makes_pure trivial
    next hend =>
    have hv := hin.pages vpn hvpn (by omega)
    have hgo : ∀ {s' : PtState} {vpn' : Nat}, Edits root c s s' → begin_ ≤ vpn' →
        Runs root c (unmapCommit root share begin_ end_ n vpn') s' :=
      fun hrun h => ih _ h (wf hrun hwf) (hD.edits hrun hwf hin) (coveredIf hrun hwf hcov)
    have hlow20 := hin.low
    refine (makes_mmVaLeafPa_none hwf (by omega)).bind ?_
    rintro leaf _ hrun ⟨rfl, hsome, -⟩
    cases leaf with
    | none => exact hgo hrun (by omega)
    | some pa =>
      have hvD := hD vpn hvpn (by omega) (hsome nofun)
      refine (makes_orReturn (makes_mmForkPrivatePtPath hwf hvD hcov hv) _).bind ?_
      rintro ⟨l2, l1⟩ s1 hrun1 ⟨h2, hpres, h1⟩
      have hwf1 := wf hrun1 hwf
      have hcov1 := coveredIf hrun1 hwf hcov
      apply makes_readEntry_bind
      intro _
      apply makes_ite
      · intro hps
        have h2 := h2.slot (by omega) hcov1 hvD fun _ => not_settled_large le_rfl hpres hps
        apply makes_failIf_bind
        intro _
        apply makes_ite
        · -- the whole 2 MiB page lies in the range
          intro hcover
          simp only [covers2m, decide_eq_true_eq] at hcover
          have hset : SetOk c (4 - 2) vpn (s1.mem l2 (ix (4 - 2) vpn)) {} :=
            .clear rfl hps fun q hq => hin.pages q (by omega) (by omega)
          refine (makes_writeEntry (show 2 ≤ 3 by omega) h2 hset).bind ?_
          intro _ s2 hrun2 _
          exact hgo (ReflTransGen.trans hrun1 hrun2) (by omega)
        · intro _
          refine (makes_split2mTo4k hwf1 (fun _ _ _ => h2) _).bind ?_
          intro _ s2 hrun2 _
          have hwf2 := wf hrun2 hwf1
          have hcov2 := coveredIf hrun2 hwf1 hcov1
          refine (makes_orReturn (makes_mmForkPrivatePtPath hwf2 hvD hcov2 hv) _).bind ?_
          rintro ⟨l2', l1'⟩ s3 hrun3 ⟨-, -, h1'⟩
          apply makes_readEntry_bind
          intro _
          apply makes_failIf_bind
          intro _
          refine (makes_unmapLeaf hin.unmaps hvD (coveredIf hrun3 hwf2 hcov2) h1').bind ?_
          intro _ s4 hrun4 _
          have hrun13 := (ReflTransGen.trans hrun1 hrun2).trans hrun3
          exact hgo (hrun13.trans hrun4) (by omega)
      · intro _
        refine (makes_unmapLeaf hin.unmaps hvD hcov1 h1).bind ?_
        intro _ s2 hrun2 _
        exact hgo (ReflTransGen.trans hrun1 hrun2) (by omega)

theorem makes_mmUnmapUserRange (hwf : Wf root s) (swapper : Nat) {vaBegin vaEnd : Nat}
    (hin : vaBegin < vaEnd → InScope c (unmapBegin vaBegin) (unmapEnd vaEnd))
    (hD : vaBegin < vaEnd → Mapped root (unmapBegin vaBegin) (unmapEnd vaEnd) D s)
    (hcov : c.owned → Covered root c.widens [share] D s) :
    Makes (Edit root c) (mmUnmapUserRange swapper root share vaBegin vaEnd) s fun _ s' =>
      Low root s → vaBegin < vaEnd → Cut root (unmapBegin vaBegin) (unmapEnd vaEnd)
        (unmapBegin vaBegin) (unmapEnd vaEnd) s' := by
  unfold mmUnmapUserRange
  apply makes_failIf_bind
  intro _
  split
  next hempty =>
    refine makes_pure fun _ hlt v hv hv' => ?_
    unfold unmapBegin at hv
    unfold unmapEnd at hv'
    unfold AxonOS.Arch.MMIO_IDENTITY_LIMIT at hv' hempty
    omega
  next hne =>
    have hlt : vaBegin < vaEnd := by omega
    refine (makes_unmapPrepare (hin hlt) _ _ le_rfl (by omega) hwf (hD hlt) hcov).bind ?_
    intro _ s1 hrun hdone
    have hwf1 := wf hrun hwf
    have hD1 := (hD hlt).edits hrun hwf (hin hlt)
    refine (makes_unmapCommit (hin hlt) _ _ le_rfl hwf1 hD1 (coveredIf hrun hwf hcov)).post ?_
    intro _ s2 hrun2 _ hlow _ v hv hv' hpart
    exact noLarge hrun2 hwf1 (hdone hlow v hv hv' hpart)

/-! ## `mm_cow_fault_page` -/

/-- The tables with large leaves on the walk belong to the address space. -/
def LargeOwned (root v : Nat) (s : PtState) : Prop :=
  ∀ k t, 1 ≤ k → k ≤ 2 → tab s.mem root k v = some t → (s.mem t (ix (4 - k) v)).present = true →
    (s.mem t (ix (4 - k) v)).ps = true → Owns root s t

section

variable (hwf : Wf root s) (hv : v ∈ c.pages) (hv' : v < PAGES)
    (hlarge : c.owned → LargeOwned root v s)

include hwf hv hv' hlarge

theorem makes_mmSplitHugeLeafForVa : Runs root c (mmSplitHugeLeafForVa root v) s := by
  unfold mmSplitHugeLeafForVa
  apply makes_readEntry_bind
  intro _
  apply makes_failIf_bind
  intro hok
  simp only [or_eq_false_iff, not_eq_false'] at hok
  have htable4 := isTable_iff.mpr ⟨hok.1.1, hok.1.2⟩
  refine makes_readBelow_bind (k := 0) rfl htable4 fun h3 => ?_
  generalize (s.mem root (ix 4 v)).ptr = l3 at h3 ⊢
  apply makes_failIf_bind
  intro hpres3
  have hpres3 : (s.mem l3 (ix 3 v)).present = true := by simpa using hpres3
  -- the large leaves of the second table are there already, or the table is new
  refine Makes.bind (Q := fun _ s' => tab s'.mem root 1 v = some l3 ∧
    (s'.mem l3 (ix 3 v)).present = true ∧ (c.owned → ∀ t, tab s'.mem root 2 v = some t →
      (s'.mem t (ix 2 v)).present = true → (s'.mem t (ix 2 v)).ps = true → Owns root s' t)) ?_ ?_
  · apply makes_doIf
    · intro hps3
      have hslot : Slot root c s 1 v l3 :=
        ⟨hv, hv', h3, fun hc => hlarge hc 1 l3 le_rfl (by omega) h3 hpres3 hps3⟩
      refine (makes_splitL31gToL2 hwf (fun _ _ _ => hslot) _).post ?_
      intro _ s' hrun hdone
      refine ⟨hdone.same.tab.trans h3, hdone.present.trans hpres3, ?_⟩
      intro hc t ht _ _
      have hnone : tab s.mem root 2 v = none := tab_leaf h3 hps3
      rcases tab_old hrun hwf hv' (by omega) ht with hnew | hold
      · exact hnew
      · rw [hnone] at hold
        cases hold
    · intro _
      exact ⟨h3, hpres3, fun hc t ht => hlarge hc 2 t (by omega) le_rfl ht⟩
  rintro _ s1 hrun ⟨h3', hpres3', hown⟩
  have hwf1 := wf hrun hwf
  apply makes_readEntry_bind
  intro _
  apply makes_failIf_bind
  intro hok3
  simp only [or_eq_false_iff, not_eq_false'] at hok3
  refine makes_readBelow_bind (k := 1) h3' (isTable_iff.mpr ⟨hpres3', hok3.2⟩) fun h2 => ?_
  generalize (s1.mem l3 (ix 3 v)).ptr = l2 at h2 ⊢
  apply makes_failIf_bind
  intro hpres2
  apply makes_doIf
  · intro hps2
    refine (makes_split2mTo4k hwf1 (fun _ _ _ => ⟨hv, hv', h2, fun hc => ?_⟩) _).post
      fun _ _ _ _ => trivial
    exact hown hc l2 h2 (by simpa using hpres2) hps2
  · exact fun _ => trivial

/-- The leaf that `mm_cow_fault_page` works on is that of the page, or a part of it. -/
theorem makes_cowLeaf : Makes (Edit root c) (cowLeaf root v) s fun old _ =>
    ∃ e, LeafAt root v s e ∧ (e.ps = true ∨ e = old) := by
  unfold cowLeaf
  refine (makes_mmVaLeafEntryDirect root v).bind ?_
  rintro leaf _ _ ⟨rfl, hleaf⟩
  cases leaf with
  | none => exact makes_throw
  | some old =>
    apply makes_ite
    · intro hps
      refine (makes_orReturn (makes_mmSplitHugeLeafForVa hwf hv hv' hlarge) _).bind ?_
      intro _ s1 _ _
      refine (makes_mmVaLeafEntryDirect root v).bind ?_
      rintro leaf _ _ ⟨rfl, -⟩
      cases leaf with
      | none => exact makes_throw
      | some _ => exact makes_pure ⟨old, hleaf old rfl, .inl hps⟩
    · exact fun _ => makes_pure ⟨old, hleaf old rfl, .inr rfl⟩

end

theorem makes_frameAlloc : Runs root c frameAlloc s := by
  unfold frameAlloc
  apply makes_get_bind
  split
  · exact ends_bind.mpr ⟨.single (.other rfl rfl rfl), trivial⟩
  · exact ends_bind.mpr ⟨.single (.other rfl rfl rfl), trivial⟩
  · exact makes_pure trivial

theorem makes_frameReleaseAll (hold : List Nat) : Runs root c (frameReleaseAll hold) s := by
  induction hold generalizing s with
  | nil => exact makes_pure trivial
  | cons p rest ih =>
    unfold frameReleaseAll
    exact (makes_frameRelease p).bind fun _ _ _ _ => ih

theorem makes_allocAvoidLoop (n : Nat) (hold : List Nat) :
    Runs root c (allocAvoidLoop v n hold) s := by
  induction n generalizing s hold with
  | zero => exact makes_pure trivial
  | succ n ih =>
    unfold allocAvoidLoop
    refine makes_frameAlloc.bind ?_
    intro p s1 _ _
    cases p with
    | none => exact makes_pure trivial
    | some p =>
      dsimp only
      split
      · exact makes_pure trivial
      · exact ih _

theorem makes_mmUserFrameAllocAvoidVa : Runs root c (mmUserFrameAllocAvoidVa v) s := by
  unfold mmUserFrameAllocAvoidVa
  refine (makes_allocAvoidLoop _ _).bind ?_
  intro r s1 _ _
  refine (makes_frameReleaseAll _).bind ?_
  intro _ s2 _ _
  exact makes_pure trivial

/-- The tree that `mm_cow_fault_page` compares with, besides the swapper's. -/
def cowShare (swapper pml4 : Nat) (shareCmp : Option Nat) : Nat :=
  match shareCmp with
  | some share => if share ≠ pml4 then share else swapper
  | none => swapper

theorem cowMap_eq (swapper pml4 : Nat) (shareCmp : Option Nat) (vpn pfn : Nat) :
    cowMap swapper pml4 shareCmp vpn pfn
      = mmMap4kSharedaware swapper pml4 (cowShare swapper pml4 shareCmp) vpn pfn .privateRw := by
  unfold cowMap cowShare mmMap4kPrivateForce
  cases shareCmp with
  | none => rfl
  | some share =>
    dsimp only
    split <;> rfl

theorem makes_cowVerify (oldPfn : Nat) :
    Makes r (cowVerify root v oldPfn) s fun _ s' => s' = s := by
  unfold cowVerify
  refine (makes_mmVaLeafEntryDirect root v).bind ?_
  rintro leaf _ _ ⟨rfl, -⟩
  cases leaf with
  | none => exact makes_throw
  | some e =>
    refine makes_failIf_bind fun _ => makes_failIf_bind fun _ => makes_failIf_bind fun _ =>
      makes_failIf_bind fun _ => ?_
    refine (makes_mmUserLeafPaDirect root v true).bind ?_
    rintro pa _ _ rfl
    exact makes_failIf fun _ => rfl

/-- The page has a leaf that a write makes private: a small one that is read-only and marked, or a
large one, of which the part is looked at. -/
def CowLeaf (root v : Nat) (s : PtState) : Prop :=
  ∃ e, LeafAt root v s e ∧ (e.ps = true ∨ e.us = true ∧ e.rw = false ∧ e.cow = true)

theorem makes_mmCowFaultPage (hwf : Wf root s) (hw : c.widens) (shareCmp : Option Nat)
    (shared : Bool) {va : Nat} (hv : va / 4096 ∈ c.pages)
    (hlarge : c.owned → LargeOwned root (va / 4096) s) (hvD : va / 4096 ∈ D)
    (hcov : c.owned → shared = false → CowLeaf root (va / 4096) s →
      Covered root c.widens [cowShare swapper root shareCmp, swapper] D s) :
    Makes (Edit root c) (mmCowFaultPage swapper root shareCmp shared va) s fun _ s' =>
      OpenTo root 3 (va / 4096) s' := by
  unfold mmCowFaultPage
  apply makes_failIf_bind
  intro hbound
  have hbound : ¬ (va / 4096 < 1 ∨ 2 ^ 20 ≤ va / 4096) := by simpa using hbound
  have hv' : va / 4096 < PAGES := lt_pages (by omega)
  refine (makes_cowLeaf hwf hv hv' hlarge).bind ?_
  rintro old s1 hrun1 ⟨e, hleaf, hold⟩
  have hwf1 := wf hrun1 hwf
  apply makes_ite
  · intro _
    have hva : va / 4096 * 4096 / 4096 = va / 4096 := by omega
    have hmapped := makes_mmMapUserPage hwf1 hw swapper (va / 4096 * 4096) (old.pfn * 4096)
      old.toFlags.sharedRw (by rw [hva]; exact hv)
    rw [hva] at hmapped
    exact makes_orReturn hmapped _
  intro hshared
  apply makes_failIf_bind
  intro hcow
  have hcow : CowLeaf root (va / 4096) s := by
    simp only [not_eq_false', and_eq_true, not_eq_true'] at hcow
    refine ⟨e, hleaf, hold.imp_right ?_⟩
    rintro rfl
    exact ⟨hcow.1.1.2, hcow.1.2, hcow.2⟩
  -- the private mapping, from any later state
  have hmap : ∀ {s' : PtState} (pfn : Nat), Edits root c s1 s' →
      Makes (Edit root c) (cowMap swapper root shareCmp (va / 4096) pfn) s' fun _ s'' =>
        OpenTo root 3 (va / 4096) s'' := by
    intro s' pfn hrun
    rw [cowMap_eq]
    have hrun' := ReflTransGen.trans hrun1 hrun
    refine (makes_mmMap4kSharedaware (wf hrun hwf1) hw pfn .privateRw hv hvD
      (coveredIf hrun' hwf fun hc => hcov hc hshared hcow)).post ?_
    exact fun _ _ _ hopen => hopen rfl
  apply makes_get_bind
  apply makes_ite
  · exact fun _ => makes_orReturn (hmap _ .refl) _
  intro _
  refine makes_mmUserFrameAllocAvoidVa.bind ?_
  intro newp s2 hrun2 _
  cases newp with
  | none => exact makes_throw
  | some newp =>
    dsimp only
    split
    · exact makes_throw
    refine (makes_modify (Q := fun _ _ => True) (.other rfl rfl rfl) trivial).bind ?_
    intro _ s3 hrun3 _
    refine Makes.bind (Q := fun _ s' => OpenTo root 3 (va / 4096) s') ?_ ?_
    · apply Makes.tryCatch (hmap newp (ReflTransGen.trans hrun2 hrun3))
      intro e s' _
      cases e with
      | fault => exact makes_throw
      | ret code => exact (makes_frameRelease newp).bind fun _ _ _ _ => makes_throw
    intro _ s4 _ hopen
    refine (makes_cowVerify old.pfn).bind ?_
    rintro _ _ _ rfl
    refine makes_doIf (fun _ => (makes_frameRelease _).post ?_) fun _ => hopen
    intro _ s5 _ hmem
    unfold OpenTo
    rw [hmem]
    exact hopen

end Calls

end AxonOS.Paging

import AxonOS.Paging.Calls

/-! # Leaves that are changed in place

`user_map_unmap_range` and `user_map_mprotect_range` write to whatever table the walk under CR3
reaches. They change no table entry above a leaf, so which entries they set, and to what, can be
told from the tables before the call.
-/

namespace AxonOS.Paging

open Lib Bool

/-- The pages that a range of addresses meets. -/
def rangePages (vaBegin vaEnd : Nat) : Set Nat := { q | vaBegin / 4096 ≤ q ∧ q * 4096 < vaEnd }

/-- Those below 4 GiB. -/
def lowPages (vaBegin vaEnd : Nat) : Set Nat := { q ∈ rangePages vaBegin vaEnd | q < 2 ^ 20 }

/-- Unmapping empties the entry `i` of the table `t` for the page `v`: that of level 1, or the 2 MiB
leaf, unless it holds one of the tables on the walk. -/
inductive UnmapSlot (pages : Set Nat) (root : Nat) (s : PtState) (v t i : Nat) (e : Pte) :
    Prop where
  | small : v ∈ pages → tab s.mem root 3 v = some t → i = ix 1 v → e = {} →
      UnmapSlot pages root s v t i e
  | large : v ∈ pages → tab s.mem root 2 v = some t → i = ix 2 v → (s.mem t i).present = true →
      (s.mem t i).ps = true →
      (∀ k t', k ≤ 2 → tab s.mem root k v = some t' → v / 512 ≠ t' / 512) → e = {} →
      UnmapSlot pages root s v t i e

/-- Protecting gives new flags to the leaf of the page `v`, a 2 MiB one only if all of it is in the
range. -/
inductive ProtSlot (f : Flags) (pages : Set Nat) (root : Nat) (s : PtState) (v t i : Nat)
    (e : Pte) : Prop where
  | small : v ∈ pages → tab s.mem root 3 v = some t → i = ix 1 v → (s.mem t i).present = true →
      e = protLeaf f false (s.mem t i) (s.mem t i).pfn → ProtSlot f pages root s v t i e
  | large : (∀ q, q / 512 = v / 512 → q ∈ pages) → tab s.mem root 2 v = some t → i = ix 2 v →
      (s.mem t i).present = true → (s.mem t i).ps = true →
      e = protLeaf f true (s.mem t i) ((s.mem t i).pfn / 512 * 512) →
      ProtSlot f pages root s v t i e

/-- The tables that the address space does not own after a call have kept their entries. -/
def Untouched (root : Nat) (s s' : PtState) : Prop := ∀ t, ¬ Owns root s' t → s'.mem t = s.mem t

/-! ## Passes -/

/-- `W v t i e` says that the entry `i` of the table `t` is to be set to `e` for the page `v`: the
entry that the walk ends at, which is not to lead to a table. -/
structure Slots (root : Nat) (s : PtState) (W : Nat → Nat → Nat → Pte → Prop) : Prop where
  wf : Wf root s
  low : ∀ {v t i e}, W v t i e → v < 2 ^ 20
  place : ∀ {v t i e}, W v t i e → ∃ k, (k = 2 ∨ k = 3) ∧ tab s.mem root k v = some t
    ∧ i = ix (4 - k) v ∧ (k = 2 → tab s.mem root 3 v = none ∧ e.isTable = false)
  value : ∀ {v v' t i e e'}, W v t i e → W v' t i e' → e = e'

/-- The entries of the pages before `n` are set, and no others. -/
structure Pass (root : Nat) (s0 : PtState) (W : Nat → Nat → Nat → Pte → Prop) (n : Nat)
    (s : PtState) : Prop extends Slots root s0 W where
  allocs : s.allocs = s0.allocs
  rest : ∀ t i, s.mem t i = s0.mem t i ∨ ∃ v < n, W v t i (s.mem t i)
  done : ∀ v t i e, v < n → W v t i e → s.mem t i = e

/-- The run of `x` goes on with a pass, and when it returns it has come to the page `n`. -/
abbrev Passes (root : Nat) (s0 : PtState) (W : Nat → Nat → Nat → Pte → Prop) (x : PtM Unit)
    (s : PtState) (n : Nat) : Prop :=
  Makes (fun a b => (∃ n, Pass root s0 W n a) → ∃ n, Pass root s0 W n b) x s
    fun _ s' => Pass root s0 W n s'

section Pass

variable {root n m k v t i l : Nat} {s0 s : PtState} {W : Nat → Nat → Nat → Pte → Prop} {e : Pte}
  {pages : Set Nat}

theorem Slots.bound (h : Slots root s W) (hW : W v t i e) : v < PAGES := lt_pages (h.low hW)

theorem Slots.start (h : Slots root s W) (hn : ∀ {v t i e}, W v t i e → n ≤ v) :
    Pass root s W n s :=
  ⟨h, rfl, fun _ _ => .inl rfl, fun _ _ _ _ hv hW => absurd (hn hW) (by omega)⟩

section

variable (h : Pass root s0 W n s)

include h

theorem Pass.skip (hn : n ≤ m) (hnone : ∀ q t i e, n ≤ q → q < m → W q t i e → s.mem t i = e) :
    Pass root s0 W m s := by
  refine ⟨h.toSlots, h.allocs, fun t i => (h.rest t i).imp_right ?_, ?_⟩
  · rintro ⟨q, hq, hW⟩
    exact ⟨q, by omega, hW⟩
  · intro q t i e hq hW
    rcases Nat.lt_or_ge q n with hlt | hge
    · exact h.done q t i e hlt hW
    · exact hnone q t i e hge hq hW

/-- The tables on the walks stay the same. -/
theorem Pass.tab (hk : k ≤ 3) (hv : v < PAGES) :
    tab s.mem root k v = Paging.tab s0.mem root k v := by
  induction k with
  | zero => rfl
  | succ k ih =>
    have ih := ih (by omega)
    cases ht : Paging.tab s0.mem root k v with
    | none => simp [Paging.tab, ih, ht]
    | some t =>
      rw [tab_succ ht, tab_succ (ih.trans ht)]
      rcases h.rest t (ix (4 - k) v) with hsame | ⟨q, -, hW⟩
      · rw [hsame]
      · -- the walk ends here before and after
        obtain ⟨j, hj, ht', hi, hleaf⟩ := h.place hW
        obtain ⟨rfl, hway⟩ := h.wf.tree.place k j v q t (by omega) (by omega) hv (h.bound hW) ht ht'
        obtain rfl : k = 2 := by omega
        obtain ⟨hnone, hnot⟩ := hleaf rfl
        rw [tab_succ ht', ← hi] at hnone
        rw [hnone, hnot]
        rfl

/-- An entry that no page before has for a leaf is as it was. -/
theorem Pass.fresh (hk : k ≤ 3) (hv : v < PAGES) (ht : Paging.tab s0.mem root k v = some t)
    (hbefore : 2 ≤ k → ∀ q < n, way (k + 1) q ≠ way (k + 1) v) :
    s.mem t (ix (4 - k) v) = s0.mem t (ix (4 - k) v) := by
  refine (h.rest t (ix (4 - k) v)).resolve_right ?_
  rintro ⟨q, hq, hW⟩
  obtain ⟨j, hj, ht', hi, -⟩ := h.place hW
  obtain ⟨rfl, hway⟩ := h.wf.tree.place k j v q t hk (by omega) hv (h.bound hW) ht ht'
  exact hbefore (by omega) q hq ((way_succ_iff hk q v).mpr ⟨hway.symm, hi.symm⟩)

theorem Pass.root_table (hv : v < PAGES) (hpres : (s.mem root (ix 4 v)).present = true) :
    (s.mem root (ix 4 v)).isTable = true := by
  have hsame : s.mem root (ix 4 v) = s0.mem root (ix 4 v) :=
    h.fresh (k := 0) (by omega) hv rfl fun h => by omega
  rw [hsame] at hpres ⊢
  exact h.wf.root_table hpres

/-- Where the walk ends above level 2 there is nothing to set. -/
theorem Pass.none_above (hk : k ≤ 1) (ht : Paging.tab s.mem root k v = some t)
    (hnot : (s.mem t (ix (4 - k) v)).isTable = false) {t' : Nat} (hW : W v t' i e) : False := by
  obtain ⟨j, hj, ht', -⟩ := h.place hW
  rw [← h.tab (by omega) (h.bound hW)] at ht'
  obtain ⟨d, rfl⟩ : ∃ d, j = k + 1 + d := ⟨j - (k + 1), by omega⟩
  obtain ⟨t1, ht1⟩ := tab_of_add ht'
  rw [tab_succ ht, hnot] at ht1
  cases ht1

end

/-- A page has one entry to set. -/
theorem Slots.one (h : Slots root s W) {t' i' : Nat} {e' : Pte} (hW : W v t i e)
    (hW' : W v t' i' e') : t' = t ∧ i' = i := by
  obtain ⟨k, hk, ht, hi, hleaf⟩ := h.place hW
  obtain ⟨k', hk', ht', hi', hleaf'⟩ := h.place hW'
  obtain rfl : k = k' := by
    rcases hk with rfl | rfl <;> rcases hk' with rfl | rfl
    · rfl
    · rw [(hleaf rfl).1] at ht'
      cases ht'
    · rw [(hleaf' rfl).1] at ht
      cases ht
    · rfl
  rw [ht] at ht'
  exact ⟨(Option.some.inj ht').symm, hi'.trans hi.symm⟩

theorem Pass.write (h : Pass root s0 W v s) (hW : W v t i e) :
    Pass root s0 W (v + 1) (s.setEntry t i e) := by
  have hother : ∀ {t' i' : Nat}, ¬ (t' = t ∧ i' = i) →
      (s.setEntry t i e).mem t' i' = s.mem t' i' :=
    fun hne => setEntry_touches s t i e _ _ not_false hne
  refine ⟨h.toSlots, h.allocs, fun t' i' => ?_, fun q t' i' e' hq hW' => ?_⟩
  · by_cases hsame : t' = t ∧ i' = i
    · obtain ⟨rfl, rfl⟩ := hsame
      exact .inr ⟨v, by omega, by rw [setEntry_slot]; exact hW⟩
    · rw [hother hsame]
      exact (h.rest t' i').imp_right fun ⟨q, hq, hW⟩ => ⟨q, by omega, hW⟩
  · by_cases hsame : t' = t ∧ i' = i
    · obtain ⟨rfl, rfl⟩ := hsame
      rw [setEntry_slot]
      exact h.value hW hW'
    · rw [hother hsame]
      refine h.done q t' i' e' (lt_of_le_of_ne (by omega) ?_) hW'
      rintro rfl
      exact hsame (h.one hW hW')

theorem makes_setSlot (h : Pass root s0 W v s) (hW : l < 2 ^ 20 → W v l i e) :
    Passes root s0 W (writeEntry l i e) s (v + 1) := by
  unfold writeEntry
  split
  next hl => exact makes_modify (fun _ => ⟨_, h.write (hW hl)⟩) (h.write (hW hl))
  next => exact makes_throw

/-- Where an entry is set to another value, its table is owned. -/
def Guards (root : Nat) (s : PtState) (W : Nat → Nat → Nat → Pte → Prop) : Prop :=
  ∀ v t i e, W v t i e → s.mem t i ≠ e → Owns root s t

/-- **A pass keeps to owned tables** if it sets no other entry to another value; and when it comes
to its end, only then. -/
theorem Slots.untouched {x : PtM Unit} (hslots : Slots root s W)
    (h : Passes root s W x s (2 ^ 20)) :
    (∀ t, Owns root (final x s) t ↔ Owns root s t)
      ∧ (Guards root s W → Untouched root s (final x s))
      ∧ (Returns x s → Untouched root s (final x s) → Guards root s W) := by
  obtain ⟨n', hpass⟩ : ∃ n, Pass root s W n (final x s) := by
    have hrun := h.final
    generalize final x s = s' at hrun
    induction hrun with
    | refl => exact ⟨0, hslots.start fun _ => Nat.zero_le _⟩
    | tail _ hstep ih => exact hstep ih
  have howns : ∀ t, Owns root (final x s) t ↔ Owns root s t := by
    intro t
    unfold Owns
    rw [hpass.allocs]
  refine ⟨howns, ?_, ?_⟩
  · intro hguard t ht
    funext i
    rcases hpass.rest t i with hsame | ⟨v, -, hW⟩
    · exact hsame
    · by_contra hne
      exact ht ((howns t).mpr (hguard v t i _ hW (Ne.symm hne)))
  · intro hret hframe v t i e hW hne
    by_contra hnot
    have hset := (h.returned hret).done v t i e (hslots.low hW) hW
    rw [hframe t (mt (howns t).mp hnot)] at hset
    exact hne hset

/-! ## `user_map_unmap_range` -/

theorem UnmapSlot.empty (h : UnmapSlot pages root s v t i e) : e = {} := by
  cases h <;> assumption

theorem UnmapSlot.mem (h : UnmapSlot pages root s v t i e) : v ∈ pages := by
  cases h <;> assumption

theorem unmapSlots (hwf : Wf root s) (vaBegin vaEnd : Nat) :
    Slots root s (UnmapSlot (lowPages vaBegin vaEnd) root s) where
  wf := hwf
  low hW := hW.mem.2
  place hW := by
    cases hW with
    | small _ ht hi => exact ⟨3, .inr rfl, ht, hi, nofun⟩
    | large _ ht hi _ hps _ he =>
      exact ⟨2, .inl rfl, ht, hi, fun _ => ⟨tab_leaf ht (hi ▸ hps), he ▸ rfl⟩⟩
  value hW hW' := hW.empty.trans hW'.empty.symm

theorem makes_unmapPage (hv : v ∈ pages) (hv' : v < PAGES)
    (h : Pass root s0 (UnmapSlot pages root s0) v s) :
    Passes root s0 (UnmapSlot pages root s0) (unmapPage root v) s (v + 1) := by
  have htab : ∀ {k : Nat}, k ≤ 3 → tab s.mem root k v = tab s0.mem root k v :=
    fun hk => h.tab hk hv'
  -- there may be nothing to do
  have hskip : (∀ {t i e}, UnmapSlot pages root s0 v t i e → s.mem t i = e) →
      Passes root s0 (UnmapSlot pages root s0) (pure ()) s (v + 1) := by
    intro hnone
    refine makes_pure (h.skip (by omega) fun q t i e hq hq' hW => ?_)
    obtain rfl : q = v := by omega
    exact hnone hW
  unfold unmapPage
  apply makes_readEntry_bind
  intro _
  apply makes_ite
  · refine fun hno => hskip fun hW => (h.none_above (k := 0) (by omega) rfl ?_ hW).elim
    have hno : (s.mem root (ix (4 - 0) v)).present = false := by simpa using hno
    rw [Pte.isTable, hno, Bool.false_and]
  intro hpres4
  have htable4 := h.root_table hv' (by simpa using hpres4)
  refine makes_readBelow_bind (k := 0) rfl htable4 fun h3 => ?_
  generalize (s.mem root (ix 4 v)).ptr = l3 at h3 ⊢
  apply makes_ite
  · refine fun hno => hskip fun hW => (h.none_above (k := 1) le_rfl h3 ?_ hW).elim
    refine Bool.eq_false_iff.mpr fun htable => ?_
    have hboth : (s.mem l3 (ix 3 v)).present = true ∧ (s.mem l3 (ix 3 v)).ps = false :=
      isTable_iff.mp htable
    simp [hboth.1, hboth.2] at hno
  intro hok3
  simp only [or_eq_false_iff, not_eq_false'] at hok3
  refine makes_readBelow_bind (k := 1) h3 (isTable_iff.mpr hok3) fun h2 => ?_
  generalize (s.mem l3 (ix 3 v)).ptr = l2 at h2 ⊢
  have h20 : tab s0.mem root 2 v = some l2 := (htab (by omega)).symm.trans h2
  have hent := (h.rest l2 (ix 2 v)).imp_right fun hset => hset.elim fun _ hW => hW.2.empty
  -- the walk goes on below `l2` only if the entry is a table
  have hsmall : ∀ {t : Nat}, tab s0.mem root 3 v = some t → (s.mem l2 (ix 2 v)).isTable = true := by
    intro t ht
    obtain ⟨t2, ht2, htable, -⟩ := tab_of_succ ((htab le_rfl).trans ht)
    rw [h2] at ht2
    exact Option.some.inj ht2 ▸ htable
  apply makes_ite
  · refine fun hno => hskip fun hW => ?_
    have hno : (s.mem l2 (ix 2 v)).present = false := by simpa using hno
    cases hW with
    | small _ ht =>
      rw [(isTable_iff.mp (hsmall ht)).1] at hno
      cases hno
    | large _ ht hi hpres _ _ he =>
      obtain rfl := Option.some.inj (h20.symm.trans ht)
      subst hi he
      refine hent.resolve_left fun hsame => ?_
      rw [hsame, hpres] at hno
      cases hno
  intro hpres2
  have hpres2 : (s.mem l2 (ix 2 v)).present = true := by simpa using hpres2
  have hsame : s.mem l2 (ix 2 v) = s0.mem l2 (ix 2 v) := by
    refine hent.resolve_right fun hempty => ?_
    rw [hempty] at hpres2
    cases hpres2
  apply makes_ite
  · -- a 2 MiB leaf goes as a whole
    intro hps2
    apply makes_ite
    · refine fun hin => hskip fun hW => ?_
      cases hW with
      | small _ ht =>
        rw [(isTable_iff.mp (hsmall ht)).2] at hps2
        cases hps2
      | large _ _ _ _ _ hout _ =>
        simp only [in2m, Bool.or_eq_true, decide_eq_true_eq] at hin
        rcases hin with (hin | hin) | hin
        · exact absurd hin (hout 2 l2 le_rfl h20)
        · exact absurd hin (hout 1 l3 (by omega) ((htab (by omega)).symm.trans h3))
        · exact absurd hin (hout 0 root (by omega) rfl)
    · intro hin
      simp only [in2m, or_eq_false_iff, decide_eq_false_iff_not] at hin
      refine makes_setSlot h fun _ => .large hv h20 rfl (hsame ▸ hpres2) (hsame ▸ hps2) ?_ rfl
      intro k t hk ht
      rw [← htab (by omega)] at ht
      obtain rfl | rfl | rfl : k = 0 ∨ k = 1 ∨ k = 2 := by omega
      · exact Option.some.inj ht ▸ hin.2
      · exact Option.some.inj (h3.symm.trans ht) ▸ hin.1.2
      · exact Option.some.inj (h2.symm.trans ht) ▸ hin.1.1
  · intro hps2
    refine makes_setSlot h fun hlow => .small hv ?_ rfl rfl
    rw [← htab le_rfl]
    exact tab_ptr (k := 2) h2 (isTable_iff.mpr ⟨hpres2, hps2⟩) hlow

theorem makes_unmapPages (n vpn : Nat) (hin : ∀ q, vpn ≤ q → q < vpn + n → q ∈ pages ∧ q < PAGES)
    (h : Pass root s0 (UnmapSlot pages root s0) vpn s) :
    Passes root s0 (UnmapSlot pages root s0) (unmapPages root n vpn) s (vpn + n) := by
  induction n generalizing vpn s with
  | zero => exact makes_pure h
  | succ n ih =>
    have hv := hin vpn le_rfl (by omega)
    unfold unmapPages
    refine (makes_unmapPage hv.1 hv.2 h).bind fun _ s1 _ h1 => ?_
    rw [show vpn + (n + 1) = vpn + 1 + n by omega]
    exact ih (vpn + 1) (fun q hq hq' => hin q (by omega) (by omega)) h1

theorem makes_userMapUnmapRange (hwf : Wf root s) (vaBegin vaEnd : Nat) :
    Passes root s (UnmapSlot (lowPages vaBegin vaEnd) root s)
      (userMapUnmapRange root vaBegin vaEnd) s (2 ^ 20) := by
  unfold userMapUnmapRange
  apply makes_failIf_bind
  intro _
  apply makes_failIf_bind
  intro hlow
  have hlow : vaBegin < AxonOS.Arch.MMIO_IDENTITY_LIMIT := by simpa using hlow
  unfold AxonOS.Arch.MMIO_IDENTITY_LIMIT at hlow ⊢
  refine (makes_unmapPages _ _ ?_ ((unmapSlots hwf _ _).start fun hW => hW.mem.1.1)).post ?_
  · intro q hq hq'
    have hq20 : q < 2 ^ 20 := by omega
    exact ⟨⟨⟨hq, by omega⟩, hq20⟩, lt_pages hq20⟩
  · refine fun _ s' _ h => h.skip (by omega) fun q t i e hq _ hW => ?_
    obtain ⟨⟨hq1, hq2⟩, hq3⟩ := hW.mem
    omega

/-! ## `user_map_mprotect_range` -/

variable {f : Flags} {protBegin protEnd : Nat}

theorem ProtSlot.mem (h : ProtSlot f pages root s v t i e) : v ∈ pages := by
  cases h with
  | small hv => exact hv
  | large hall => exact hall v rfl

/-- The flags that `user_map_mprotect_range` gives to the leaves. -/
def rangeFlags (vaBegin vaEnd prot : Nat) : Flags :=
  protFlags prot (decide (vaBegin < 0x10000000 ∧ 0x200000 < vaEnd))

theorem protLeaf_not_table (vaBegin vaEnd prot pfn : Nat) :
    (protLeaf (rangeFlags vaBegin vaEnd prot) true e pfn).isTable = false := by
  unfold protLeaf rangeFlags protFlags
  split <;> simp [Pte.isTable]

theorem protSlots (hwf : Wf root s) (vaBegin vaEnd prot : Nat) :
    Slots root s (ProtSlot (rangeFlags vaBegin vaEnd prot) (lowPages vaBegin vaEnd) root s) where
  wf := hwf
  low hW := hW.mem.2
  place hW := by
    cases hW with
    | small _ ht hi => exact ⟨3, .inr rfl, ht, hi, nofun⟩
    | large _ ht hi _ hps he =>
      exact ⟨2, .inl rfl, ht, hi,
        fun _ => ⟨tab_leaf ht (hi ▸ hps), he ▸ protLeaf_not_table _ _ _ _⟩⟩
  value hW hW' := by
    have hv := lt_pages hW.mem.2
    have hv' := lt_pages hW'.mem.2
    cases hW with
    | small _ ht _ _ he =>
      cases hW' with
      | small _ _ _ _ he' => exact he.trans he'.symm
      | large _ ht' =>
        exact absurd (hwf.tree.place 3 2 _ _ _ le_rfl (by omega) hv hv' ht ht').1 (by omega)
    | large _ ht _ _ _ he =>
      cases hW' with
      | small _ ht' =>
        exact absurd (hwf.tree.place 2 3 _ _ _ (by omega) le_rfl hv hv' ht ht').1 (by omega)
      | large _ _ _ _ _ he' => exact he.trans he'.symm

theorem makes_protPages (n vpn : Nat) (hin : ∀ q, vpn ≤ q → q < vpn + n → q ∈ pages ∧ q < PAGES)
    (htab : l < 2 ^ 20 → ∀ q, vpn ≤ q → q < vpn + n → tab s0.mem root 3 q = some l)
    (h : Pass root s0 (ProtSlot f pages root s0) vpn s) :
    Passes root s0 (ProtSlot f pages root s0) (protPages l f n vpn) s (vpn + n) := by
  induction n generalizing vpn s with
  | zero => exact makes_pure h
  | succ n ih =>
    have hv := hin vpn le_rfl (by omega)
    unfold protPages
    apply makes_readEntry_bind
    intro hl
    have ht := htab hl vpn le_rfl (by omega)
    have hsame : s.mem l (ix 1 vpn) = s0.mem l (ix 1 vpn) :=
      h.fresh (k := 3) le_rfl hv.2 ht fun _ q hq => by simp; omega
    refine Makes.bind (Q := fun _ s' => Pass root s0 (ProtSlot f pages root s0) (vpn + 1) s')
      ?_ ?_
    · rw [hsame]
      apply makes_doIf
      · exact fun hpres => makes_setSlot h fun _ => .small hv.1 ht rfl hpres rfl
      · refine fun hno => h.skip (by omega) fun q t i e hq hq' hW => ?_
        obtain rfl : q = vpn := by omega
        cases hW with
        | small _ ht' hi hpres =>
          obtain rfl := Option.some.inj (ht.symm.trans ht')
          rw [hi, hno] at hpres
          cases hpres
        | large _ ht' hi _ hps =>
          rw [tab_leaf ht' (hi ▸ hps)] at ht
          cases ht
    · intro _ s1 _ h1
      rw [show vpn + (n + 1) = vpn + 1 + n by omega]
      exact ih (vpn + 1) (fun q hq hq' => hin q (by omega) (by omega))
        (fun hl q hq hq' => htab hl q (by omega) (by omega)) h1

theorem makes_protChunk (hpages : ∀ q, q ∈ pages ↔ protBegin ≤ q ∧ q < protEnd)
    (halign : v % 512 = 0) (hv' : v + 512 ≤ PAGES)
    (h : Pass root s0 (ProtSlot f pages root s0) v s) :
    Passes root s0 (ProtSlot f pages root s0) (protChunk root protBegin protEnd f v) s
      (v + 512) := by
  unfold protChunk
  apply makes_readEntry_bind
  intro _
  apply makes_failIf_bind
  intro hpres4
  have hbound : v < PAGES := by omega
  have htable4 := h.root_table hbound (by simpa using hpres4)
  refine makes_readBelow_bind (k := 0) rfl htable4 fun h3 => ?_
  generalize (s.mem root (ix 4 v)).ptr = l3 at h3 ⊢
  apply makes_failIf_bind
  intro hpres3
  apply makes_failIf_bind
  intro hps3
  have htable3 := isTable_iff.mpr ⟨by simpa using hpres3, hps3⟩
  refine makes_readBelow_bind (k := 1) h3 htable3 fun h2 => ?_
  generalize (s.mem l3 (ix 3 v)).ptr = l2 at h2 ⊢
  apply makes_failIf_bind
  intro hpres2
  have h20 := (h.tab (by omega) hbound).symm.trans h2
  have hsame : s.mem l2 (ix 2 v) = s0.mem l2 (ix 2 v) :=
    h.fresh (k := 2) (by omega) hbound h20 fun _ q hq => by unfold way; omega
  -- the pages of the chunk have the same walk
  have hway : ∀ {q : Nat}, v ≤ q → q < v + 512 → way 3 q = way 3 v := by
    intro q hq hq'
    unfold way
    omega
  rw [hsame] at hpres2 ⊢
  have hpres2 : (s0.mem l2 (ix 2 v)).present = true := by simpa using hpres2
  apply makes_ite
  · intro hps2
    -- all of them use the 2 MiB leaf
    have hleaf : ∀ {q t i e}, v ≤ q → q < v + 512 → ProtSlot f pages root s0 q t i e →
        (t = l2 ∧ i = ix 2 v) ∧ ∀ q, q / 512 = v / 512 → q ∈ pages := by
      intro q t i e hq hq' hW
      cases hW with
      | small _ ht =>
        rw [tab_way (by omega) (hway hq hq'), tab_leaf h20 hps2] at ht
        cases ht
      | large hall ht hi =>
        obtain ⟨ht2, hix⟩ := tab_same (by omega) (hway hq hq') h20
        have hblock : q / 512 = v / 512 := by omega
        exact ⟨⟨Option.some.inj (ht.symm.trans ht2), hi.trans hix⟩, hblock ▸ hall⟩
    split
    next hpart =>
      refine makes_pure (h.skip (by omega) fun q t i e hq hq' hW => ?_)
      have hall := (hleaf hq hq' hW).2
      have hfirst := (hpages _).mp (hall v rfl)
      have hlast := (hpages _).mp (hall (v + 511) (by omega))
      omega
    next hcover =>
      have hW : ProtSlot f pages root s0 v l2 (ix 2 v) _ :=
        .large (fun q hq => (hpages q).mpr (by omega)) h20 rfl hpres2 hps2 rfl
      refine (makes_setSlot h fun _ => hW).post fun _ s' _ h' => ?_
      refine h'.skip (by omega) fun q t i e hq hq' hW' => ?_
      obtain ⟨rfl, rfl⟩ := (hleaf (by omega) hq' hW').1
      rw [h'.done v _ _ _ (by omega) hW]
      exact h.value hW hW'
  · intro hps2
    have h1 := tab_ptr (k := 2) h20 (isTable_iff.mpr ⟨hpres2, hps2⟩)
    have hmem : ∀ {q t i e}, ProtSlot f pages root s0 q t i e → protBegin ≤ q ∧ q < protEnd :=
      fun hW => (hpages _).mp hW.mem
    rcases Nat.lt_or_ge (max v protBegin) (min (v + 512) protEnd) with hlt | hge
    · have hlo := h.skip (m := max v protBegin) (by omega) fun q t i e hq hq' hW => by
        have := hmem hW
        omega
      refine (makes_protPages _ _ (fun q hq hq' => ⟨(hpages q).mpr (by omega), by omega⟩)
        (fun hl q hq hq' => ?_) hlo).post fun _ s' _ h' => h'.skip (by omega) ?_
      · rw [tab_way (by omega) (hway (by omega) (by omega))]
        exact h1 hl
      · intro q t i e hq hq' hW
        have := hmem hW
        omega
    · dsimp only
      rw [Nat.sub_eq_zero_of_le hge]
      refine makes_pure (h.skip (by omega) fun q t i e hq hq' hW => ?_)
      have := hmem hW
      omega

theorem makes_protChunks (hpages : ∀ q, q ∈ pages ↔ protBegin ≤ q ∧ q < protEnd) (n vpn : Nat)
    (halign : vpn % 512 = 0) (hv' : vpn + 512 * n ≤ PAGES)
    (h : Pass root s0 (ProtSlot f pages root s0) vpn s) :
    Passes root s0 (ProtSlot f pages root s0) (protChunks root protBegin protEnd f n vpn) s
      (vpn + 512 * n) := by
  induction n generalizing vpn s with
  | zero => exact makes_pure h
  | succ n ih =>
    unfold protChunks
    rw [show vpn + 512 * (n + 1) = vpn + 512 + 512 * n by ring] at hv' ⊢
    have hfirst : vpn + 512 ≤ PAGES := le_trans (Nat.le_add_right _ _) hv'
    refine (makes_protChunk hpages halign hfirst h).bind fun _ s1 _ h1 => ?_
    exact ih (vpn + 512) ((Nat.add_mod_right vpn 512).trans halign) hv' h1

theorem makes_userMapMprotectRange (hwf : Wf root s) (vaBegin vaEnd prot : Nat) :
    Passes root s (ProtSlot (rangeFlags vaBegin vaEnd prot) (lowPages vaBegin vaEnd) root s)
      (userMapMprotectRange root vaBegin vaEnd prot) s (2 ^ 20) := by
  unfold userMapMprotectRange
  apply makes_failIf_bind
  intro _
  apply makes_failIf_bind
  intro hlow
  have hlow : vaBegin < AxonOS.Arch.MMIO_IDENTITY_LIMIT := by simpa using hlow
  unfold AxonOS.Arch.MMIO_IDENTITY_LIMIT at hlow ⊢
  have hflags : (0x200000 < min vaEnd 0x100000000) = (0x200000 < vaEnd) := by
    exact propext ⟨fun h => by omega, fun h => by omega⟩
  simp only [hflags]
  refine (makes_protChunks ?_ _ _ (Nat.mul_mod_left _ _) ?_
    ((protSlots hwf vaBegin vaEnd prot).start ?_)).post ?_
  · intro q
    simp only [lowPages, rangePages, Set.mem_ofPred_eq]
    omega
  · unfold PAGES
    omega
  · intro v t i e hW
    obtain ⟨⟨hq1, hq2⟩, hq3⟩ := hW.mem
    omega
  · refine fun _ s' _ h => h.skip (by omega) fun q t i e hq _ hW => ?_
    obtain ⟨⟨hq1, hq2⟩, hq3⟩ := hW.mem
    omega

end Pass

end AxonOS.Paging

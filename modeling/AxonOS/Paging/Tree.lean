import AxonOS.Paging.Entry

/-! # The tables of an address space as a tree

`tab mem root k vpn` is the table that the walk of a page reaches after `k` steps. In a tree every
table has one place: two walks that meet in a table have gone the same way (`Tree`). So a write to
the entry that the walk of `v` uses after `k` steps changes the walks of the pages that use the same
entry, and no other one.
-/

namespace AxonOS.Paging

open Option

/-- The way of a page to its table after `k` steps; `way 4` is the page itself. -/
def way (k vpn : Nat) : Nat := vpn / 512 ^ (4 - k)

/-- The table that the walk of a page reaches after `k` steps. -/
def tab (mem : Nat → Nat → Pte) (root : Nat) : Nat → Nat → Option Nat
  | 0, _ => some root
  | k + 1, vpn =>
    match tab mem root k vpn with
    | none => none
    | some t =>
      let e := mem t (ix (4 - k) vpn)
      if e.isTable then some e.pfn else none

def PAGES : Nat := 2 ^ 36

theorem lt_pages {q : Nat} (h : q < 2 ^ 20) : q < PAGES := by
  unfold PAGES
  omega

/-- No table is used in two places, and the root has no large leaves. -/
structure Tree (mem : Nat → Nat → Pte) (root : Nat) : Prop where
  place : ∀ k j q v t, k ≤ 3 → j ≤ 3 → q < PAGES → v < PAGES →
    tab mem root k q = some t → tab mem root j v = some t → k = j ∧ way k q = way k v
  top : ∀ i, (mem root i).present = true → (mem root i).ps = false

/-! ## Ways -/

@[simp] theorem way_four (vpn : Nat) : way 4 vpn = vpn := by simp [way]

theorem way_succ {k : Nat} (hk : k ≤ 3) (vpn : Nat) : way k vpn = way (k + 1) vpn / 512 := by
  unfold way
  rw [Nat.div_div_eq_div_mul, show 4 - k = 4 - (k + 1) + 1 by omega, Nat.pow_succ]

theorem ix_eq (k vpn : Nat) : ix (4 - k) vpn = way (k + 1) vpn % 512 := by
  unfold ix way
  rw [show 4 - k - 1 = 4 - (k + 1) by omega]

/-- Two pages use the same entry if they have come the same way to the same index. -/
theorem way_succ_iff {k : Nat} (hk : k ≤ 3) (q v : Nat) :
    way (k + 1) q = way (k + 1) v ↔ way k q = way k v ∧ ix (4 - k) q = ix (4 - k) v := by
  rw [way_succ hk, way_succ hk, ix_eq, ix_eq]
  omega

/-! ## Walks with permissions granted

What the translation of a page would be if some of the entries on its walk gave more than they
do. -/

/-- What counts as given on the walk of a page: all permissions at the entry of a level that leads
to a table, and access at a 2 MiB leaf. A 1 GiB leaf counts as the 2 MiB leaves that it may be split
into. -/
structure Grant where
  entry : Nat → Nat → Bool
  leaf : Nat → Bool

namespace Grant

def nothing : Grant := ⟨fun _ _ => false, fun _ => false⟩

/-- The entry of a level, as it counts. -/
def table (g : Grant) (level vpn : Nat) (e : Pte) : Pte :=
  e.widen false (g.entry level vpn) (g.entry level vpn)

def atLeaf (g : Grant) (level vpn : Nat) : Bool := g.leaf vpn && (level == 2 || g.entry level vpn)

/-- The hardware walk with what is granted. -/
def walk (g : Grant) (mem : Nat → Nat → Pte) : Nat → Pte → Nat → Option Trans
  | 0, _, _ => none
  | level + 1, e, vpn =>
    if !e.present then none
    else if level = 0 then some ⟨e.pfn, e.us, e.rw⟩
    else if e.ps then
      if level = 3 then none
      else some ⟨leafPfn (level + 1) e vpn, e.us || g.atLeaf (level + 1) vpn, e.rw⟩
    else (g.walk mem level (mem e.pfn (ix level vpn)) vpn).map
      (Trans.under (g.table (level + 1) vpn e))

def translate (g : Grant) (mem : Nat → Nat → Pte) (root vpn : Nat) : Option Trans :=
  g.walk mem 4 (mem root (ix 4 vpn)) vpn

variable {g : Grant} {mem : Nat → Nat → Pte} {level root vpn : Nat} {e : Pte}

theorem walk_absent (h : e.present = false) : g.walk mem level e vpn = none := by
  cases level <;> simp [walk, h]

theorem walk_table (hl : 2 ≤ level) (h : e.isTable = true) : g.walk mem level e vpn
      = (g.walk mem (level - 1) (mem e.pfn (ix (level - 1) vpn)) vpn).map
        (Trans.under (g.table level vpn e)) := by
  have hboth := isTable_iff.mp h
  cases level with
  | zero => omega
  | succ level =>
    have hne : level ≠ 0 := by omega
    simp [walk, hboth.1, hboth.2, hne]

theorem walk_large (hl : level = 2 ∨ level = 3) (h : e.present = true) (hps : e.ps = true) :
    g.walk mem level e vpn
      = some ⟨leafPfn level e vpn, e.us || g.atLeaf level vpn, e.rw⟩ := by
  rcases hl with rfl | rfl <;> simp [walk, h, hps]

theorem walk_page (h : e.present = true) : g.walk mem 1 e vpn = some ⟨e.pfn, e.us, e.rw⟩ := by
  simp [walk, h]

theorem walk_nothing : nothing.walk mem level e vpn = Paging.walk mem level e vpn := by
  induction level generalizing e with
  | zero => rfl
  | succ level ih =>
    have hunder : Trans.under (nothing.table (level + 1) vpn e) = Trans.under e := by
      funext tr
      simp [Trans.under, table, nothing, Pte.widen]
    have hleaf : (e.us || nothing.atLeaf (level + 1) vpn) = e.us := by simp [atLeaf, nothing]
    simp only [walk, Paging.walk, ih, hunder, hleaf]

theorem translate_nothing : nothing.translate mem root vpn = Paging.translate mem root vpn :=
  walk_nothing

end Grant

/-! ## Tables on a walk -/

section Tab

variable {mem mem' : Nat → Nat → Pte} {root : Nat}

variable {k n t vpn q v : Nat} {a b : Option Trans}

theorem tab_succ (h : tab mem root k vpn = some t) : tab mem root (k + 1) vpn
      = if (mem t (ix (4 - k) vpn)).isTable then some (mem t (ix (4 - k) vpn)).pfn else none := by
  simp only [tab, h]

theorem tab_of_succ (h : tab mem root (k + 1) vpn = some t) :
    ∃ t', tab mem root k vpn = some t' ∧ (mem t' (ix (4 - k) vpn)).isTable = true
      ∧ (mem t' (ix (4 - k) vpn)).pfn = t := by
  cases hk : tab mem root k vpn with
  | none => simp [tab, hk] at h
  | some t' =>
    rw [tab_succ hk] at h
    split at h
    next htab => exact ⟨t', rfl, htab, some.inj h⟩
    next => cases h

/-- The table depends on the way only. -/
theorem tab_way (hk : k ≤ 4) (h : way k q = way k v) : tab mem root k q = tab mem root k v := by
  induction k with
  | zero => rfl
  | succ k ih =>
    have hboth := (way_succ_iff (by omega) q v).mp h
    simp only [tab, ih (by omega) hboth.1, hboth.2]

/-- Pages that use the same entry use it in the same table. -/
theorem tab_same (hk : k ≤ 3) (h : way (k + 1) q = way (k + 1) v) (ht : tab mem root k v = some t) :
    tab mem root k q = some t ∧ ix (4 - k) q = ix (4 - k) v := by
  obtain ⟨hway, hix⟩ := (way_succ_iff hk q v).mp h
  exact ⟨(tab_way (by omega) hway).trans ht, hix⟩

/-- The entries that the walk of a page uses are the same in both memories, up to step `n`. -/
def SamePath (mem mem' : Nat → Nat → Pte) (root n vpn : Nat) : Prop :=
  ∀ k t, k < n → tab mem root k vpn = some t → mem' t (ix (4 - k) vpn) = mem t (ix (4 - k) vpn)

theorem SamePath.mono {m : Nat} (h : SamePath mem mem' root n vpn) (hm : m ≤ n) :
    SamePath mem mem' root m vpn := fun k t hk => h k t (by omega)

theorem SamePath.tab (h : SamePath mem mem' root n vpn) :
    tab mem' root n vpn = tab mem root n vpn := by
  induction n with
  | zero => rfl
  | succ n ih =>
    have hn := ih (h.mono (Nat.le_succ n))
    cases hk : Paging.tab mem root n vpn with
    | none => simp only [Paging.tab, hn, hk]
    | some t =>
      rw [tab_succ hk, tab_succ (hn.trans hk), h n t (Nat.lt_succ_self n) hk]

variable {g : Grant}

/-- The walk does not go on below a leaf. -/
theorem tab_leaf (ht : tab mem root k vpn = some t) (hps : (mem t (ix (4 - k) vpn)).ps = true) :
    tab mem root (k + 1) vpn = none := by
  have hnot : (mem t (ix (4 - k) vpn)).isTable = false := by
    rw [Pte.isTable, hps, Bool.not_true, Bool.and_false]
  rw [tab_succ ht, hnot]
  rfl

/-- The table of the next step, from an entry of a level. -/
theorem tab_next {level : Nat} (hl : level + 1 ≤ 4)
    (ht : tab mem root (4 - (level + 1)) vpn = some t)
    (htable : (mem t (ix (level + 1) vpn)).isTable = true) :
    tab mem root (4 - level) vpn = some (mem t (ix (level + 1) vpn)).pfn := by
  have hnext := tab_succ ht
  rw [show 4 - (4 - (level + 1)) = level + 1 by omega,
    show 4 - (level + 1) + 1 = 4 - level by omega] at hnext
  rw [hnext, if_pos htable]

/-- Where an entry does not lead to a table, the rest of the memory does not matter. -/
theorem Grant.walk_leaf (mem' : Nat → Nat → Pte) {level : Nat} {e : Pte}
    (h : ¬ e.isTable = true) : g.walk mem' level e vpn = g.walk mem level e vpn := by
  rw [isTable_iff] at h
  cases level with
  | zero => rfl
  | succ level =>
    simp only [Grant.walk]
    split
    · rfl
    · split
      · rfl
      · split
        · rfl
        next hpres _ hps => exact absurd ⟨by simpa using hpres, by simpa using hps⟩ h

/-- The walk from an entry on, when the entries of the later steps are the same. -/
theorem walk_below (mem' : Nat → Nat → Pte) (level : Nat) (hl : level ≤ 4) (hpos : 0 < level)
    (ht : tab mem root (4 - level) vpn = some t)
    (h : ∀ j t', 4 - level < j → j ≤ 3 → tab mem root j vpn = some t' →
      mem' t' (ix (4 - j) vpn) = mem t' (ix (4 - j) vpn)) :
    g.walk mem' level (mem t (ix level vpn)) vpn = g.walk mem level (mem t (ix level vpn)) vpn := by
  induction level generalizing t with
  | zero => omega
  | succ level ih =>
    by_cases htable : (mem t (ix (level + 1) vpn)).isTable = true
    · by_cases hzero : level = 0
      · subst hzero
        simp only [Grant.walk]
      have hpath := tab_next hl ht htable
      have hent := h (4 - level) _ (by omega) (by omega) hpath
      rw [show 4 - (4 - level) = level by omega] at hent
      rw [Grant.walk_table (by omega) htable, Grant.walk_table (by omega) htable,
        Nat.add_sub_cancel, hent, ih (by omega) (by omega) hpath fun j t' hj => h j t' (by omega)]
    · exact Grant.walk_leaf mem' htable

theorem SamePath.granted (h : SamePath mem mem' root 4 vpn) :
    g.translate mem' root vpn = g.translate mem root vpn := by
  have htop := h 0 root (by omega) rfl
  unfold Grant.translate
  rw [htop]
  exact walk_below mem' 4 (by omega) (by omega) rfl fun j t' _ hj => h j t' (by omega)

theorem SamePath.translate (h : SamePath mem mem' root 4 vpn) :
    translate mem' root vpn = translate mem root vpn := by
  rw [← Grant.translate_nothing, h.granted, Grant.translate_nothing]

/-- What is granted at the entry is there anyway. -/
def Grant.Given (g : Grant) (level vpn : Nat) (e : Pte) : Prop :=
  if e.ps then g.atLeaf level vpn = true → e.us = true
  else g.entry level vpn = true → e.us = true ∧ e.rw = true

theorem Grant.walk_given (level : Nat) (hl : level ≤ 4) (ht : tab mem root (4 - level) vpn = some t)
    (h : ∀ k t', k ≤ 2 → tab mem root k vpn = some t' →
      (mem t' (ix (4 - k) vpn)).present = true → g.Given (4 - k) vpn (mem t' (ix (4 - k) vpn))) :
    g.walk mem level (mem t (ix level vpn)) vpn
      = Paging.walk mem level (mem t (ix level vpn)) vpn := by
  induction level generalizing t with
  | zero => rfl
  | succ level ih =>
    have hgiven : level ≠ 0 → (mem t (ix (level + 1) vpn)).present = true →
        g.Given (level + 1) vpn (mem t (ix (level + 1) vpn)) := by
      intro hne hpres
      have hent := h (4 - (level + 1)) t (by omega) ht
      rw [show 4 - (4 - (level + 1)) = level + 1 by omega] at hent
      exact hent hpres
    by_cases hzero : level = 0
    · subst hzero
      rfl
    cases hpres : (mem t (ix (level + 1) vpn)).present with
    | false => rw [Grant.walk_absent hpres, Paging.walk_absent hpres]
    | true =>
      have he := hgiven hzero hpres
      unfold Grant.Given at he
      cases hps : (mem t (ix (level + 1) vpn)).ps with
      | true =>
        rw [if_pos hps] at he
        have hus : ((mem t (ix (level + 1) vpn)).us || g.atLeaf (level + 1) vpn)
            = (mem t (ix (level + 1) vpn)).us := by
          grind
        simp [Grant.walk, Paging.walk, hpres, hps, hus]
      | false =>
        rw [if_neg (by simp [hps])] at he
        have htable := isTable_iff.mpr ⟨hpres, hps⟩
        have hunder : Trans.under (g.table (level + 1) vpn (mem t (ix (level + 1) vpn)))
            = Trans.under (mem t (ix (level + 1) vpn)) := by
          funext tr
          cases hg : g.entry (level + 1) vpn with
          | false => simp [Trans.under, Grant.table, Pte.widen, hg]
          | true => simp [Trans.under, Grant.table, Pte.widen, hg, he hg]
        rw [Grant.walk_table (by omega) htable, Paging.walk_table (by omega) htable, hunder,
          Nat.add_sub_cancel, ih (by omega) (tab_next hl ht htable)]

/-- Where all that is granted is there anyway, the translation is that of the processor. -/
theorem Grant.translate_given (h : ∀ k t', k ≤ 2 → tab mem root k vpn = some t' →
      (mem t' (ix (4 - k) vpn)).present = true → g.Given (4 - k) vpn (mem t' (ix (4 - k) vpn))) :
    g.translate mem root vpn = Paging.translate mem root vpn :=
  Grant.walk_given 4 le_rfl rfl h

/-! ## One entry changes

`mem'` differs from `mem` in the entry `t[i]`, and in pages that are on no walk. -/

def Touches (mem mem' : Nat → Nat → Pte) (t i : Nat) (off : Nat → Prop) : Prop :=
  ∀ t' i', ¬ off t' → ¬ (t' = t ∧ i' = i) → mem' t' i' = mem t' i'

/-- The pages are on no walk. -/
def OffTree (mem : Nat → Nat → Pte) (root : Nat) (off : Nat → Prop) : Prop :=
  ∀ k q p, k ≤ 3 → q < PAGES → tab mem root k q = some p → ¬ off p

section Slot

variable {k v t q : Nat} {off : Nat → Prop}

section

variable (h : Tree mem root) (hoff : OffTree mem root off) (hk : k ≤ 3) (hv : v < PAGES)
    (hq : q < PAGES) (ht : tab mem root k v = some t) (hmem : Touches mem mem' t (ix (4 - k) v) off)

include h hoff hk hv hq ht hmem

theorem Tree.samePath_off (hne : way (k + 1) q ≠ way (k + 1) v) : SamePath mem mem' root 4 q := by
  intro j t' hj ht'
  refine hmem t' _ (hoff j q t' (by omega) hq ht') ?_
  rintro ⟨rfl, hi⟩
  obtain ⟨rfl, hway⟩ := h.place j k q v t' (by omega) hk hq hv ht' ht
  exact hne ((way_succ_iff hk q v).mpr ⟨hway, hi⟩)

/-- The entries of the other steps stay. -/
theorem Tree.same_entry {j t' : Nat} (hj : j ≤ 3) (hjk : j ≠ k) (ht' : tab mem root j q = some t') :
    mem' t' (ix (4 - j) q) = mem t' (ix (4 - j) q) := by
  refine hmem t' _ (hoff j q t' hj hq ht') ?_
  rintro ⟨rfl, -⟩
  exact hjk (h.place j k q v t' hj hk hq hv ht' ht).1

theorem Tree.samePath_above : SamePath mem mem' root k q := fun j t' hj ht' =>
  h.same_entry hoff hk hv hq ht hmem (by omega) (by omega) ht'

end

end Slot

/-! ## Permissions above an entry -/

/-- The conjunction of the user and writable bits, as they count, over the first `k` entries of a
walk. -/
def Grant.upper (g : Grant) (mem : Nat → Nat → Pte) (root : Nat) : Nat → Nat → Bool × Bool
  | 0, _ => (true, true)
  | k + 1, vpn =>
    match tab mem root k vpn with
    | none => (true, true)
    | some t =>
      let e := g.table (4 - k) vpn (mem t (ix (4 - k) vpn))
      let u := g.upper mem root k vpn
      (e.us && u.1, e.rw && u.2)

def Trans.within (u : Bool × Bool) (tr : Trans) : Trans := ⟨tr.pfn, tr.us && u.1, tr.rw && u.2⟩

theorem SamePath.upper (h : SamePath mem mem' root n vpn) :
    g.upper mem' root n vpn = g.upper mem root n vpn := by
  induction n with
  | zero => rfl
  | succ n ih =>
    have hn := h.mono (Nat.le_succ n)
    simp only [Grant.upper, hn.tab, ih hn]
    cases hk : Paging.tab mem root n vpn with
    | none => rfl
    | some t =>
      dsimp only
      rw [h n t (Nat.lt_succ_self n) hk]

/-- A translation, seen from the table after `k` steps. -/
theorem translate_at (hk : k ≤ 3) (ht : tab mem root k vpn = some t) : g.translate mem root vpn
      = (g.walk mem (4 - k) (mem t (ix (4 - k) vpn)) vpn).map
      (Trans.within (g.upper mem root k vpn)) := by
  induction k generalizing t with
  | zero =>
    have hroot : root = t := some.inj ht
    subst hroot
    simp only [Grant.translate, Grant.upper, Nat.sub_zero]
    cases g.walk mem 4 (mem root (ix 4 vpn)) vpn with
    | none => rfl
    | some tr => simp [Trans.within]
  | succ k ih =>
    obtain ⟨t', ht', htable, rfl⟩ := tab_of_succ ht
    rw [ih (by omega) ht']
    simp only [Grant.upper, ht']
    have hwalk : g.walk mem (4 - k) (mem t' (ix (4 - k) vpn)) vpn = _ :=
      Grant.walk_table (by omega) htable
    rw [hwalk, map_map]
    congr 1
    funext tr
    simp [Trans.within, Trans.under, Bool.and_assoc]

/-! ## Wider permissions -/

/-- The same page, with no permission lost. -/
def Widens : Option Trans → Option Trans → Prop
  | none, none => True
  | some a, some b => b.pfn = a.pfn ∧ (a.us = true → b.us = true) ∧ (a.rw = true → b.rw = true)
  | _, _ => False

theorem Widens.refl (a : Option Trans) : Widens a a := by
  cases a with
  | none => trivial
  | some a => exact ⟨rfl, id, id⟩

theorem Widens.trans {c : Option Trans} (h : Widens a b) (h' : Widens b c) : Widens a c := by
  cases a <;> cases b <;> cases c <;> simp only [Widens] at h h' ⊢
  exact ⟨h'.1.trans h.1, h'.2.1 ∘ h.2.1, h'.2.2 ∘ h.2.2⟩

theorem Widens.map (h : Widens a b) (u : Bool × Bool) :
    Widens (a.map (Trans.within u)) (b.map (Trans.within u)) := by
  cases a <;> cases b <;> simp only [Widens] at h
  · trivial
  · simp only [map_some, Widens, Trans.within, Bool.and_eq_true]
    exact ⟨h.1, fun hu => ⟨h.2.1 hu.1, hu.2⟩, fun hu => ⟨h.2.2 hu.1, hu.2⟩⟩

theorem Widens.antisymm (h : Widens a b) (h' : Widens b a) : b = a := by
  cases a <;> cases b <;> simp only [Widens] at h h'
  case none.none => rfl
  case some.some a b =>
    obtain ⟨pfn, us, rw⟩ := a
    obtain ⟨pfn', us', rw'⟩ := b
    obtain ⟨rfl, hus, hrw⟩ := h
    have hus' : us' = us := Bool.eq_iff_iff.mpr ⟨h'.2.1, hus⟩
    have hrw' : rw' = rw := Bool.eq_iff_iff.mpr ⟨h'.2.2, hrw⟩
    rw [hus', hrw']

theorem Widens.under {e e' : Pte} (h : Widens a b) (hus : e.us = true → e'.us = true)
    (hrw : e.rw = true → e'.rw = true) :
    Widens (a.map (Trans.under e)) (b.map (Trans.under e')) := by
  cases a <;> cases b <;> simp only [Widens] at h
  · trivial
  · simp only [map_some, Widens, Trans.under, Bool.and_eq_true]
    exact ⟨h.1, fun hu => ⟨h.2.1 hu.1, hus hu.2⟩, fun hu => ⟨h.2.2 hu.1, hrw hu.2⟩⟩

/-- What is granted takes nothing away. -/
theorem Grant.walk_widens (g : Grant) (mem : Nat → Nat → Pte) (level : Nat) (e : Pte) :
    Widens (Paging.walk mem level e vpn) (g.walk mem level e vpn) := by
  induction level generalizing e with
  | zero => trivial
  | succ level ih =>
    simp only [Paging.walk, Grant.walk]
    split
    · trivial
    · split
      · exact Widens.refl _
      · split
        · split
          · trivial
          · exact ⟨rfl, fun hus => by simpa using Or.inl hus, id⟩
        · exact (ih _).under (fun hus => by simpa [table, Pte.widen] using Or.inl hus)
            fun hrw => by simpa [table, Pte.widen] using Or.inl hrw

theorem Grant.translate_widens (g : Grant) (mem : Nat → Nat → Pte) :
    Widens (Paging.translate mem root vpn) (g.translate mem root vpn) :=
  g.walk_widens mem 4 _

/-- What one changed entry does to the translations: nothing to the pages that do not use it, and to
the others what it does to the walk from the entry on. -/
theorem Tree.translate_slot (h : Tree mem root) {off : Nat → Prop} (hoff : OffTree mem root off)
    (hk : k ≤ 3) (hv : v < PAGES) (hq : q < PAGES) (ht : tab mem root k v = some t)
    (hmem : Touches mem mem' t (ix (4 - k) v) off) {R : Option Trans → Option Trans → Prop}
    (hrefl : ∀ a, R a a)
    (hmap : ∀ a b u, R a b → R (a.map (Trans.within u)) (b.map (Trans.within u)))
    (hon : way (k + 1) q = way (k + 1) v →
      R (g.walk mem (4 - k) (mem t (ix (4 - k) v)) q)
        (g.walk mem' (4 - k) (mem' t (ix (4 - k) v)) q)) :
    R (g.translate mem root q) (g.translate mem' root q) := by
  by_cases hway : way (k + 1) q = way (k + 1) v
  · obtain ⟨htq, hix⟩ := tab_same hk hway ht
    have habove := h.samePath_above hoff hk hv hq ht hmem
    rw [translate_at hk htq, translate_at hk (habove.tab.trans htq), habove.upper, hix]
    exact hmap _ _ _ (hon hway)
  · rw [(h.samePath_off hoff hk hv hq ht hmem hway).granted]
    exact hrefl _

end Tab

end AxonOS.Paging

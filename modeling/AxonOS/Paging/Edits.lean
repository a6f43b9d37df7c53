import AxonOS.Paging.Tables
import AxonOS.Paging.Tree

/-! # Edits of a tree

What the page-table code does to the tables is a sequence of a few kinds of edits, each at an entry
on the walk of a page: a new table takes the place of a shared one, of a missing one or of a large
leaf (`LinkOk`); permission bits are set above level 1, a level-1 entry is written, a 2 MiB leaf is
cleared (`SetOk`).

Every edit keeps the tree. It leaves the translations of the pages outside its scope alone but for
permissions, which it may widen. How far is known beforehand: the translation with what the edits
may set granted (`Grant`) stays the same.
-/

namespace AxonOS.Paging

open List Option

/-! ## The kinds of edits -/

/-- What a piece of code may do: the pages on whose walks it writes, whether it keeps to the tables
that the address space owns, and whether it maps pages, which sets permission bits above level 1. -/
structure Scope where
  pages : Set Nat
  owned : Prop
  widens : Prop

/-- The table `entries` under an entry with `flags` may take the place of what `e` stands for. -/
inductive LinkOk (mem : Nat → Nat → Pte) (level v : Nat) (e : Pte) :
    Flags → (Nat → Pte) → Prop where
  | copy : e.isTable = true → LinkOk mem level v e e.toFlags.low (mem e.pfn)
  | fill : e.present = false → LinkOk mem level v e .user (fun _ => {})
  | split1g : level = 3 → e.present = true → e.ps = true →
      LinkOk mem level v e e.toFlags.keep1g (slice1g e)
  | split2m : level = 2 → e.present = true → e.ps = true →
      LinkOk mem level v e (e.toFlags.keep2m v) (slice2m e v)

/-- The entry `e'` may take the place of `e`; what does not map pages makes none present. -/
inductive SetOk (c : Scope) (level v : Nat) (e : Pte) : Pte → Prop where
  | widen (present rw us : Bool) : c.widens → 2 ≤ level → e.isTable = true →
      SetOk c level v e (e.widen present rw us)
  | leaf (e' : Pte) : level = 1 → (c.widens ∨ (e'.present = true → e.present = true)) →
      SetOk c level v e e'
  | clear : level = 2 → e.ps = true → (∀ q, q / 512 = v / 512 → q ∈ c.pages) → SetOk c level v e {}

/-- The state after a new table has been linked. -/
def PtState.link (s : PtState) (t i p : Nat) (rest : List (Option Nat)) (flags : Flags)
    (entries : Nat → Pte) : PtState :=
  { (s.setTable p entries).setEntry t i ⟨flags, p⟩ with allocs := p :: s.allocs, pool := rest }

/-- The address space may write the table. -/
def Owns (root : Nat) (s : PtState) (t : Nat) : Prop := t = root ∨ t ∈ s.allocs

/-- One edit of the tree at `root`, at an entry on the walk of a page of the scope. -/
inductive Edit (root : Nat) (c : Scope) : PtState → PtState → Prop where
  | other {s s' : PtState} : s'.mem = s.mem → s'.allocs = s.allocs → s'.pool = s.pool →
      Edit root c s s'
  | drop {s : PtState} {rest : List (Option Nat)} : s.pool = none :: rest →
      Edit root c s { s with pool := rest }
  | link {s : PtState} {k v t p : Nat} {rest : List (Option Nat)} {flags : Flags}
      {entries : Nat → Pte} : k ≤ 2 → v ∈ c.pages → v < PAGES → tab s.mem root k v = some t →
      (c.owned → Owns root s t) → s.pool = some p :: rest →
      LinkOk s.mem (4 - k) v (s.mem t (ix (4 - k) v)) flags entries →
      Edit root c s (s.link t (ix (4 - k) v) p rest flags entries)
  | set {s : PtState} {k v t : Nat} {e' : Pte} : k ≤ 3 → v ∈ c.pages → v < PAGES →
      tab s.mem root k v = some t → (c.owned → Owns root s t) →
      SetOk c (4 - k) v (s.mem t (ix (4 - k) v)) e' →
      Edit root c s (s.setEntry t (ix (4 - k) v) e')

/-- The pages that `alloc_pt_page` will return are in no tree and differ. -/
structure Wf (root : Nat) (s : PtState) : Prop where
  tree : Tree s.mem root
  fresh : ∀ p, some p ∈ s.pool → OffTree s.mem root (· = p)
  nodup : (s.pool.filterMap id).Nodup

theorem Wf.root_table {root i : Nat} {s : PtState} (hwf : Wf root s)
    (h : (s.mem root i).present = true) :
    (s.mem root i).isTable = true := isTable_iff.mpr ⟨h, hwf.tree.top _ h⟩

/-! ## What is granted

An edit may set permission bits at the entries of the scope, and the slices of a 2 MiB leaf in the
user window give access. -/

/-- The pages whose slices give access. -/
def inWindow (v : Nat) : Bool := decide (0x200 ≤ v ∧ v < 2 ^ 20)

/-- What the edits of a scope may set on the walk of a page is granted, no more at the leaves. -/
structure Grant.Fits (g : Grant) (c : Scope) (q : Nat) : Prop where
  entry : c.widens → ∀ k v, k ≤ 2 → v ∈ c.pages → way (k + 1) q = way (k + 1) v →
    g.entry (4 - k) q = true
  leaf : ∀ v, v ∈ c.pages → way 3 q = way 3 v → g.leaf q = inWindow v

/-- The relation holds between the granted translations of a page before and after the edits that
change them. -/
structure Suits (g : Grant) (c : Scope) (q : Nat) (R : Option Trans → Option Trans → Prop) :
    Prop where
  refl : ∀ a, R a a
  trans : ∀ {a b d}, R a b → R b d → R a d
  map : ∀ a b u, R a b → R (a.map (Trans.within u)) (b.map (Trans.within u))
  widen : c.widens → ∀ k v, k ≤ 2 → v ∈ c.pages → way (k + 1) q = way (k + 1) v →
    ∀ (a : Option Trans) (e : Pte) present rw us, R (a.map (Trans.under (g.table (4 - k) q e)))
      (a.map (Trans.under (g.table (4 - k) q (e.widen present rw us))))
  slice : ∀ v, v ∈ c.pages → way 3 q = way 3 v → ∀ pfn us rw,
    R (some ⟨pfn, us || g.leaf q, rw⟩) (some ⟨pfn, us || inWindow v, rw⟩)
  leaf : q ∈ c.pages → ∀ mem mem' e e', (c.widens ∨ (e'.present = true → e.present = true)) →
    R (g.walk mem 1 e q) (g.walk mem' 1 e' q)
  clear : q ∈ c.pages → ∀ a, R a none

theorem suits_widens {c : Scope} {q : Nat} (hqD : q ∉ c.pages) : Suits .nothing c q Widens := by
  refine ⟨Widens.refl, Widens.trans, fun _ _ u hab => hab.map u, ?_, ?_, fun h => absurd h hqD,
    fun h => absurd h hqD⟩
  · intro _ k v _ _ _ a e present rw us
    refine (Widens.refl a).under ?_ ?_ <;>
      simp +contextual [Grant.table, Pte.widen, Grant.nothing]
  · intro v _ _ pfn us rw
    exact ⟨rfl, by simp +contextual [Grant.nothing], id⟩

theorem Grant.Fits.suits {g : Grant} {c : Scope} {q : Nat} (h : g.Fits c q) (hqD : q ∉ c.pages) :
    Suits g c q fun a b => b = a := by
  refine ⟨fun _ => rfl, fun h h' => h'.trans h, fun _ _ _ hab => by rw [hab], ?_, ?_,
    fun h => absurd h hqD, fun h => absurd h hqD⟩
  · intro hc k v hk hv hway a e present rw us
    have hentry := h.entry hc k v hk hv hway
    congr 1
    funext tr
    simp [Trans.under, Grant.table, Pte.widen, hentry]
  · intro v hv hway pfn us rw
    rw [h.leaf v hv hway]

/-- Code that does not map pages makes none present. -/
theorem suits_absent {c : Scope} (hc : ¬ c.widens) (q : Nat) :
    Suits .nothing c q fun a b => a = none → b = none := by
  refine ⟨fun _ => id, fun h h' ha => h' (h ha), ?_, fun hw => absurd hw hc, nofun, ?_,
    fun _ _ _ => rfl⟩
  · intro a b u hab ha
    rw [hab (Option.map_eq_none_iff.mp ha)]
    rfl
  · intro _ mem mem' e e' hpres hnone
    apply Grant.walk_absent
    cases he' : e'.present with
    | false => rfl
    | true =>
      rw [Grant.walk_page ((hpres.resolve_left hc) he')] at hnone
      cases hnone

/-! ## Slices of large leaves -/

theorem walk_slice1g (g : Grant) (mem mem' : Nat → Nat → Pte) {e : Pte} (p q : Nat)
    (hpres : e.present = true) (hps : e.ps = true) :
    (g.walk mem' 2 (slice1g e (ix 2 q)) q).map (Trans.under (g.table 3 q ⟨e.toFlags.keep1g, p⟩))
      = g.walk mem 3 e q := by
  rw [Grant.walk_large (.inr rfl) hpres hps, Grant.walk_large (.inl rfl) (by exact hpres) rfl]
  have hpfn : leafPfn 2 (slice1g e (ix 2 q)) q = leafPfn 3 e q := by
    simp only [leafPfn, slice1g, ix]
    omega
  rw [hpfn]
  simp only [Option.map_some, Trans.under, Grant.table, Pte.widen, slice1g, Flags.keep1g,
    Grant.atLeaf]
  cases e.us <;> cases e.rw <;> simp

/-- The slices of a 2 MiB leaf keep its permissions, except that those of the user window give
access. -/
theorem walk_slice2m (g : Grant) (mem : Nat → Nat → Pte) {e : Pte} (v p q : Nat)
    (hpres : e.present = true) :
    (g.walk mem 1 (slice2m e v (ix 1 q)) q).map (Trans.under (g.table 2 q ⟨e.toFlags.keep2m v, p⟩))
      = some ⟨leafPfn 2 e q, e.us || inWindow v, e.rw⟩ := by
  rw [Grant.walk_page (by exact hpres)]
  have hpfn : (slice2m e v (ix 1 q)).pfn = leafPfn 2 e q := by simp [slice2m, leafPfn, ix]
  have hus : (slice2m e v (ix 1 q)).us = (e.us || inWindow v) := rfl
  have hus' : (e.toFlags.keep2m v).us = (e.us || inWindow v) := rfl
  simp only [Option.map_some, Trans.under, Grant.table, Pte.widen, hpfn, hus, hus']
  cases e.us || inWindow v <;> simp +contextual [slice2m, Flags.keep2m]

section Effects

variable {root : Nat} {s : PtState} {k v t p q : Nat} {rest : List (Option Nat)} {flags : Flags}
  {entries : Nat → Pte} {e' : Pte} {c : Scope}

/-! ## Linking a table -/

theorem link_slot (s : PtState) (t i p : Nat) (rest : List (Option Nat)) (flags : Flags)
    (entries : Nat → Pte) : (s.link t i p rest flags entries).mem t i = ⟨flags, p⟩ := by
  simp [PtState.link, PtState.setEntry]

theorem link_new (s : PtState) {t : Nat} (hne : p ≠ t) (i : Nat) (rest : List (Option Nat))
    (flags : Flags) (entries : Nat → Pte) (j : Nat) : (s.link t i p rest flags entries).mem p j
    = entries j := by
  simp [PtState.link, PtState.setEntry, PtState.setTable, hne]

theorem link_touches (s : PtState) (t i p : Nat) (rest : List (Option Nat)) (flags : Flags)
    (entries : Nat → Pte) : Touches s.mem (s.link t i p rest flags entries).mem t i (· = p) := by
  intro t' i' hoff hslot
  simp [PtState.link, PtState.setEntry, PtState.setTable, hslot, hoff]

theorem setEntry_slot (s : PtState) (t i : Nat) (e' : Pte) : (s.setEntry t i e').mem t i = e' := by
  simp [PtState.setEntry]

theorem setEntry_touches (s : PtState) (t i : Nat) (e' : Pte) :
    Touches s.mem (s.setEntry t i e').mem t i fun _ => False := by
  intro t' i' _ hslot
  simp [PtState.setEntry, hslot]

theorem setEntry_same (s : PtState) (t i : Nat) : s.setEntry t i (s.mem t i) = s := by
  have hmem : (s.setEntry t i (s.mem t i)).mem = s.mem := by
    funext t' i'
    simp only [PtState.setEntry]
    split
    next h => rw [h.1, h.2]
    next => rfl
  cases s
  simp only [PtState.setEntry, PtState.mk.injEq] at hmem ⊢
  exact ⟨hmem, trivial, trivial, trivial, trivial, trivial⟩

variable {j level : Nat} {e : Pte} {g : Grant} {R : Option Trans → Option Trans → Prop}

theorem LinkOk.isTable {mem : Nat → Nat → Pte} (h : LinkOk mem level v e flags entries) (p : Nat) :
    (Pte.mk flags p).isTable = true := by
  rw [isTable_iff]
  cases h with
  | copy htable => exact isTable_iff.mp htable
  | fill _ => exact ⟨rfl, rfl⟩
  | split1g _ hpres _ | split2m _ hpres _ => exact ⟨hpres, rfl⟩

section

variable (hwf : Wf root s) (hk : k ≤ 2) (hv : v < PAGES) (hq : q < PAGES)
    (ht : tab s.mem root k v = some t) (hp : some p ∈ s.pool)
    (hlink : LinkOk s.mem (4 - k) v (s.mem t (ix (4 - k) v)) flags entries)

include hwf hk hv hq ht hp hlink

/-- The walk through a linked table: what the entry gave before, but for the access that the slices
of a 2 MiB leaf give. -/
theorem link_walk (hR : Suits g c q R) (hvD : v ∈ c.pages) (hway : way (k + 1) q = way (k + 1) v) :
    R (g.walk s.mem (4 - k) (s.mem t (ix (4 - k) v)) q)
      (g.walk (s.link t (ix (4 - k) v) p rest flags entries).mem (4 - k) ⟨flags, p⟩ q) := by
  have hfresh := hwf.fresh p hp
  have htouch := link_touches s t (ix (4 - k) v) p rest flags entries
  have hne : p ≠ t := fun h => hfresh k v t (by omega) hv ht h.symm
  have hnew := link_new s hne (ix (4 - k) v) rest flags entries
  obtain ⟨hkq, hix⟩ := tab_same (by omega) hway ht
  generalize s.link t (ix (4 - k) v) p rest flags entries = s' at htouch hnew
  rw [Grant.walk_table (by omega) (hlink.isTable p), hnew]
  generalize he : s.mem t (ix (4 - k) v) = e at hlink
  have hsame : ∀ {a b : Option Trans}, b = a → R a b := fun h => h ▸ hR.refl _
  cases hlink with
  | copy htable =>
    have htq : tab s.mem root (k + 1) q = some e.pfn := by
      rw [tab_succ hkq, hix, he, if_pos htable]
    rw [show k + 1 = 4 - (4 - k - 1) by omega] at htq
    have hbelow := walk_below (g := g) s'.mem (4 - k - 1) (by omega) (by omega) htq
      (fun j t' hj hj3 ht' => hwf.tree.same_entry hfresh
      (by omega) hv hq ht htouch hj3 (by omega) ht')
    refine hsame ?_
    rw [hbelow, Grant.walk_table (by omega) htable]
    rfl
  | fill habsent =>
    refine hsame ?_
    rw [Grant.walk_absent habsent, Grant.walk_absent rfl]
    rfl
  | split1g hlevel hpres hps =>
    refine hsame ?_
    rw [hlevel]
    exact walk_slice1g g s.mem s'.mem p q hpres hps
  | split2m hlevel hpres hps =>
    obtain rfl : k = 2 := by omega
    rw [walk_slice2m g s'.mem v p q hpres, Grant.walk_large (.inl rfl) hpres hps]
    have hleaf : g.atLeaf 2 q = g.leaf q := by simp [Grant.atLeaf]
    rw [hleaf]
    exact hR.slice v hvD hway _ _ _

/-- The tables on the walks after a link: the new one below the entry, or one that was there. -/
theorem link_tab {t' : Nat} (hj : j ≤ 3)
    (ht' : tab (s.link t (ix (4 - k) v) p rest flags entries).mem root j q = some t') :
    (t' = p ∧ j = k + 1 ∧ way (k + 1) q = way (k + 1) v) ∨ tab s.mem root j q = some t' := by
  have hfresh := hwf.fresh p hp
  have htouch := link_touches s t (ix (4 - k) v) p rest flags entries
  have hne : p ≠ t := fun h => hfresh k v t (by omega) hv ht h.symm
  have hnew := link_new s hne (ix (4 - k) v) rest flags entries
  have hslot := link_slot s t (ix (4 - k) v) p rest flags entries
  generalize s.link t (ix (4 - k) v) p rest flags entries = s' at htouch hnew hslot ht'
  by_cases hway : way (k + 1) q = way (k + 1) v
  · obtain ⟨hkq, hix⟩ := tab_same (by omega) hway ht
    have habove := hwf.tree.samePath_above hfresh (by omega) hv hq ht htouch
    have hpq : tab s'.mem root (k + 1) q = some p := by
      rw [tab_succ (habove.tab.trans hkq), hix, hslot, if_pos (hlink.isTable p)]
    rcases Nat.lt_or_ge j (k + 1) with hlt | hge
    · right
      rw [← (habove.mono (show j ≤ k by omega)).tab, ht']
    rcases Nat.eq_or_lt_of_le hge with rfl | hgt
    · rw [hpq] at ht'
      exact .inl ⟨(some.inj ht').symm, rfl, hway⟩
    -- below the new table: only a copy has tables there, those of the original
    right
    obtain ⟨n, rfl⟩ : ∃ n, j = k + 2 + n := ⟨j - (k + 2), by omega⟩
    clear hge hgt
    induction n generalizing t' with
    | zero =>
      obtain ⟨t1, ht1, htable, hpfn⟩ := tab_of_succ ht'
      rw [hpq] at ht1
      obtain rfl := some.inj ht1
      rw [hnew] at htable hpfn
      generalize he : s.mem t (ix (4 - k) v) = e at hlink
      cases hlink with
      | copy hcopy =>
        have htq : tab s.mem root (k + 1) q = some e.pfn := by
          rw [tab_succ hkq, hix, he, if_pos hcopy]
        rw [tab_succ htq, if_pos htable, hpfn]
      | fill _ => cases htable
      | split1g _ hpres _ => simp [Pte.isTable, slice1g] at htable
      | split2m hlevel _ _ => omega
    | succ n ih =>
      rw [show k + 2 + (n + 1) = k + 2 + n + 1 from rfl] at ht'
      obtain ⟨t1, ht1, htable, hpfn⟩ := tab_of_succ ht'
      have hold := ih (by omega) ht1
      have hsame := hwf.tree.same_entry hfresh (by omega) hv hq ht htouch (by omega) (by omega) hold
      rw [hsame] at htable hpfn
      rw [show k + 2 + (n + 1) = k + 2 + n + 1 from rfl, tab_succ hold, if_pos htable, hpfn]
  · right
    rw [← ((hwf.tree.samePath_off hfresh (by omega) hv hq ht htouch hway).mono
      (show j ≤ 4 by omega)).tab, ht']

end

theorem link_tab_new (hwf : Wf root s) (hk : k ≤ 2) (hv : v < PAGES)
    (ht : tab s.mem root k v = some t) (hp : some p ∈ s.pool)
    (hlink : LinkOk s.mem (4 - k) v (s.mem t (ix (4 - k) v)) flags entries) :
    tab (s.link t (ix (4 - k) v) p rest flags entries).mem root (k + 1) v = some p := by
  have hfresh := hwf.fresh p hp
  have htouch := link_touches s t (ix (4 - k) v) p rest flags entries
  have habove := hwf.tree.samePath_above hfresh (by omega) hv hv ht htouch
  rw [tab_succ (habove.tab.trans ht), link_slot, if_pos (hlink.isTable p)]

/-! ## Setting an entry -/

theorem offTree_none (mem : Nat → Nat → Pte) (root : Nat) : OffTree mem root fun _ => False :=
  fun _ _ _ _ _ _ h => h

theorem widen_isTable (present rw us : Bool) (h : e.isTable = true) :
    (e.widen present rw us).isTable = true := by
  have hboth := isTable_iff.mp h
  simp [Pte.isTable, Pte.widen, hboth.1, hboth.2]

theorem widen_open {rw : Bool} (hus : e.us = true) (hrw : e.rw = true) :
    e.widen false rw true = e := by
  obtain ⟨f, pfn⟩ := e
  cases f
  simp_all [Pte.widen]

/-- The new entry leads to a table if and only if the old one does, and to the same one. -/
theorem SetOk.isTable (h : SetOk c level v e e') (hl : 2 ≤ level) :
    e'.isTable = e.isTable ∧ (e.isTable = true → e'.pfn = e.pfn) := by
  cases h with
  | widen present rw us _ _ he =>
    exact ⟨(widen_isTable present rw us he).trans he.symm, fun _ => rfl⟩
  | leaf _ h1 _ => omega
  | clear _ hps _ =>
    have : e.isTable = false := by simp [Pte.isTable, hps]
    rw [this]
    exact ⟨rfl, fun h => by cases h⟩

/-- Setting an entry keeps the tables on all walks. -/
theorem set_tab (htree : Tree s.mem root) (hk : k ≤ 3) (hv : v < PAGES) (hq : q < PAGES)
    (ht : tab s.mem root k v = some t) (hset : SetOk c (4 - k) v (s.mem t (ix (4 - k) v)) e')
    (hj : j ≤ 3) :
    tab (s.setEntry t (ix (4 - k) v) e').mem root j q = tab s.mem root j q := by
  have htouch := setEntry_touches s t (ix (4 - k) v) e'
  have hslot := setEntry_slot s t (ix (4 - k) v) e'
  generalize s.setEntry t (ix (4 - k) v) e' = s' at htouch hslot
  by_cases hway : way (k + 1) q = way (k + 1) v
  · obtain ⟨hkq, hix⟩ := tab_same hk hway ht
    have habove := htree.samePath_above (offTree_none _ _) hk hv hq ht htouch
    rcases Nat.lt_or_ge k j with hlt | hge
    · obtain ⟨n, rfl⟩ : ∃ n, j = k + 1 + n := ⟨j - (k + 1), by omega⟩
      clear hlt
      induction n with
      | zero =>
        have hsame := hset.isTable (by omega)
        rw [tab_succ (habove.tab.trans hkq), tab_succ hkq, hix, hslot, hsame.1]
        split
        next htable => rw [hsame.2 htable]
        next => rfl
      | succ n ih =>
        have hn := ih (by omega)
        cases hold : tab s.mem root (k + 1 + n) q with
        | none =>
          rw [show k + 1 + (n + 1) = k + 1 + n + 1 from rfl]
          simp only [tab, hn, hold]
        | some t1 =>
          have hent := htree.same_entry (offTree_none _ _) hk hv hq ht htouch
            (by omega) (by omega) hold
          rw [show k + 1 + (n + 1) = k + 1 + n + 1 from rfl, tab_succ (hn.trans hold),
            tab_succ hold, hent]
    · exact (habove.mono hge).tab
  · exact ((htree.samePath_off (offTree_none _ _) hk hv hq ht htouch hway).mono (by omega)).tab

/-- The walk from a changed entry on. -/
theorem set_walk (htree : Tree s.mem root) (hk : k ≤ 3) (hv : v < PAGES) (hq : q < PAGES)
    (hvD : v ∈ c.pages) (ht : tab s.mem root k v = some t) {e : Pte}
    (he : s.mem t (ix (4 - k) v) = e) (hset : SetOk c (4 - k) v e e') (hR : Suits g c q R)
    (hway : way (k + 1) q = way (k + 1) v) :
    R (g.walk s.mem (4 - k) e q) (g.walk (s.setEntry t (ix (4 - k) v) e').mem (4 - k) e' q) := by
  have htouch := setEntry_touches s t (ix (4 - k) v) e'
  obtain ⟨hkq, hix⟩ := tab_same hk hway ht
  generalize s.setEntry t (ix (4 - k) v) e' = s' at htouch
  cases hset with
  | widen present rw us hc hl htable =>
    have hbelow := walk_below (g := g) s'.mem (4 - k) (by omega) (by omega)
      (show tab s.mem root (4 - (4 - k)) q = some t by rw [show 4 - (4 - k) = k by omega, hkq])
      (fun j t' hj hj3 ht' =>
        htree.same_entry (offTree_none _ _) hk hv hq ht htouch hj3 (by omega) ht')
    rw [hix, he] at hbelow
    rw [← hbelow, Grant.walk_table hl htable,
      Grant.walk_table hl (widen_isTable present rw us htable)]
    exact hR.widen hc k v (by omega) hvD hway _ _ _ _ _
  | leaf _ h1 hpres =>
    -- a level-1 entry is used by its page only
    obtain rfl : k = 3 := by omega
    rw [way_four, way_four] at hway
    exact hR.leaf (hway ▸ hvD) _ _ _ _ hpres
  | clear h2 _ hall =>
    obtain rfl : k = 2 := by omega
    rw [Grant.walk_absent (e := {}) rfl]
    exact hR.clear (hall q hway) _

end Effects

/-! ## Edits -/

section Edit

variable {root level v : Nat} {c c' : Scope} {s s' : PtState} {q : Nat} {rest : List (Option Nat)}

/-- What an edit does to the translations. -/
theorem Edit.related (h : Edit root c s s') (hwf : Wf root s) (hq : q < PAGES)
    {g : Grant} {R : Option Trans → Option Trans → Prop} (hR : Suits g c q R) :
    R (g.translate s.mem root q) (g.translate s'.mem root q) := by
  cases h with
  | other hmem _ _ =>
    rw [hmem]
    exact hR.refl _
  | drop _ => exact hR.refl _
  | @link k v t p rest flags entries hk hvD hv ht _ hpool hlink =>
    have hp : some p ∈ s.pool := hpool ▸ mem_cons_self
    refine hwf.tree.translate_slot (hwf.fresh p hp) (by omega) hv hq ht
      (link_touches _ _ _ _ _ _ _) hR.refl hR.map ?_
    intro hway
    rw [link_slot]
    exact link_walk hwf hk hv hq ht hp hlink hR hvD hway
  | @set k v t e' hk hvD hv ht _ hset =>
    refine hwf.tree.translate_slot (offTree_none _ _) hk hv hq ht
      (setEntry_touches _ _ _ _) hR.refl hR.map ?_
    intro hway
    rw [setEntry_slot]
    exact set_walk hwf.tree hk hv hq hvD ht rfl hset hR hway

theorem Wf.fresh_rest {p : Nat} (hwf : Wf root s) (hpool : s.pool = some p :: rest) {p' : Nat}
    (hp' : some p' ∈ rest) :
    OffTree s.mem root (· = p') ∧ p' ≠ p := by
  refine ⟨hwf.fresh p' (by rw [hpool]; exact mem_cons_of_mem _ hp'), ?_⟩
  have hnodup := hwf.nodup
  rw [hpool] at hnodup
  simp only [filterMap_cons_some (f := id) rfl, nodup_cons] at hnodup
  rintro rfl
  exact hnodup.1 (mem_filterMap.mpr ⟨some p', hp', rfl⟩)

theorem Wf.nodup_rest {o : Option Nat} (hwf : Wf root s) (hpool : s.pool = o :: rest) :
    (rest.filterMap id).Nodup := by
  have hnodup := hwf.nodup
  rw [hpool] at hnodup
  cases o with
  | none => exact hnodup
  | some p =>
    simp only [filterMap_cons_some (f := id) rfl, nodup_cons] at hnodup
    exact hnodup.2

/-- **An edit keeps the tree.** -/
theorem Edit.wf (h : Edit root c s s') (hwf : Wf root s) : Wf root s' := by
  cases h with
  | other hmem _ hpool =>
    refine ⟨hmem ▸ hwf.tree, ?_, hpool ▸ hwf.nodup⟩
    intro p hp
    rw [hmem]
    exact hwf.fresh p (hpool ▸ hp)
  | drop hpool =>
    refine ⟨hwf.tree, ?_, hwf.nodup_rest hpool⟩
    intro p hp
    exact hwf.fresh p (hpool ▸ mem_cons_of_mem _ hp)
  | @link k v t p rest flags entries hk _ hv ht _ hpool hlink =>
    have hp : some p ∈ s.pool := hpool ▸ mem_cons_self
    have hfresh := hwf.fresh p hp
    have htab : ∀ {j q t' : Nat}, j ≤ 3 → q < PAGES →
        tab (s.link t (ix (4 - k) v) p rest flags entries).mem root j q = some t' →
        (t' = p ∧ j = k + 1 ∧ way (k + 1) q = way (k + 1) v) ∨ tab s.mem root j q = some t' :=
      fun hj hq => link_tab hwf hk hv hq ht hp hlink hj
    refine ⟨⟨?_, ?_⟩, ?_, hwf.nodup_rest hpool⟩
    · -- the new table has one place, and the old tables keep theirs
      intro j j' q q' t' hj hj' hq hq' ht1 ht2
      rcases htab hj hq ht1 with ⟨rfl, rfl, hway⟩ | hold1
      · rcases htab hj' hq' ht2 with ⟨_, rfl, hway'⟩ | hold2
        · exact ⟨rfl, hway.trans hway'.symm⟩
        · exact absurd rfl (hfresh j' q' _ hj' hq' hold2)
      · rcases htab hj' hq' ht2 with ⟨rfl, _, _⟩ | hold2
        · exact absurd rfl (hfresh j q _ hj hq hold1)
        · exact hwf.tree.place j j' q q' t' hj hj' hq hq' hold1 hold2
    · intro i
      by_cases hslot : root = t ∧ i = ix (4 - k) v
      · rw [hslot.1, hslot.2, link_slot]
        intro _
        exact (isTable_iff.mp (hlink.isTable p)).2
      · have hroot : root ≠ p := hfresh 0 v root (by omega) hv rfl
        rw [link_touches s t (ix (4 - k) v) p rest flags entries root i hroot hslot]
        exact hwf.tree.top i
    · intro p' hp' j q t' hj hq ht'
      have hrest := hwf.fresh_rest hpool hp'
      rcases htab hj hq ht' with ⟨rfl, _, _⟩ | hold
      · exact fun h => hrest.2 h.symm
      · exact hrest.1 j q t' hj hq hold
  | @set k v t e' hk _ hv ht _ hset =>
    have htab : ∀ {j q : Nat}, j ≤ 3 → q < PAGES →
        tab (s.setEntry t (ix (4 - k) v) e').mem root j q = tab s.mem root j q :=
      fun hj hq => set_tab hwf.tree hk hv hq ht hset hj
    refine ⟨⟨?_, ?_⟩, ?_, hwf.nodup⟩
    · intro j j' q q' t' hj hj' hq hq' ht1 ht2
      exact hwf.tree.place j j' q q' t' hj hj' hq hq' (htab hj hq ▸ ht1) (htab hj' hq' ▸ ht2)
    · intro i
      by_cases hslot : root = t ∧ i = ix (4 - k) v
      · obtain ⟨rfl, rfl⟩ := hslot
        have hk0 : k = 0 := (hwf.tree.place k 0 v v root hk (by omega) hv hv ht rfl).1
        subst hk0
        rw [setEntry_slot]
        have htop := hwf.tree.top (ix (4 - 0) v)
        have hsame := (hset.isTable (by omega)).1
        generalize s.mem root (ix (4 - 0) v) = e at hset htop hsame
        intro hpres
        cases hset with
        | widen present rw us _ _ htable => exact (isTable_iff.mp htable).2
        | leaf _ h1 _ | clear h2 _ _ => omega
      · rw [setEntry_touches s t (ix (4 - k) v) e' root i not_false hslot]
        exact hwf.tree.top i
    · intro p hp j q t' hj hq ht'
      exact hwf.fresh p hp j q t' hj hq (htab hj hq ▸ ht')

/-- What holds of the present entries above level 1 on all walks. -/
def AllEntries (root : Nat) (P : Nat → Nat → Pte → Prop) (s : PtState) : Prop :=
  ∀ k v t, k ≤ 2 → v < PAGES → tab s.mem root k v = some t →
    (s.mem t (ix (4 - k) v)).present = true → P k v (s.mem t (ix (4 - k) v))

/-- A property of entries that the edits keep: the new tables have it, the slices of a 1 GiB leaf
take it over, and permissions do not matter. -/
structure Stable (P : Nat → Nat → Pte → Prop) (s : PtState) : Prop where
  link : ∀ k v flags p, some p ∈ s.pool → (Pte.mk flags p).isTable = true → P k v ⟨flags, p⟩
  slice : ∀ v e, e.ps = true → P 1 v e → P 2 v (slice1g e (ix 2 v))
  widen : ∀ k v e present rw us, P k v e → P k v (e.widen present rw us)

theorem Edit.entries {P : Nat → Nat → Pte → Prop} (h : Edit root c s s') (hwf : Wf root s)
    (hst : Stable P s) (hP : AllEntries root P s) : AllEntries root P s' := by
  intro k' v' t' hk' hv' ht'
  cases h with
  | other hmem _ _ =>
    rw [hmem] at ht' ⊢
    exact hP k' v' t' hk' hv' ht'
  | drop _ => exact hP k' v' t' hk' hv' ht'
  | @link k v t p rest flags entries hk hvD hv ht _ hpool hlink =>
    have hp : some p ∈ s.pool := hpool ▸ mem_cons_self
    have hfresh := hwf.fresh p hp
    rcases link_tab hwf hk hv hv' ht hp hlink (by omega) ht' with ⟨rfl, rfl, hway⟩ | hold
    · -- an entry of the new table
      have hne : t' ≠ t := fun h => hfresh k v t (by omega) hv ht h.symm
      rw [link_new s hne]
      obtain ⟨hkq, hix⟩ := tab_same (by omega) hway ht
      cases hlink with
      | copy htable =>
        refine hP (k + 1) v' _ hk' hv' ?_
        rw [tab_succ hkq, hix, if_pos htable]
      | fill _ => intro hpres; cases hpres
      | split1g hlevel hpres hps =>
        obtain rfl : k = 1 := by omega
        have he := hP 1 v' t (by omega) hv' hkq
        rw [hix] at he
        exact fun _ => hst.slice v' _ hps (he hpres)
      | split2m hlevel _ _ => omega
    · by_cases hslot : t' = t ∧ ix (4 - k') v' = ix (4 - k) v
      · rw [hslot.1, hslot.2, link_slot]
        exact fun _ => hst.link k' v' flags p hp (hlink.isTable p)
      · rw [link_touches s t (ix (4 - k) v) p rest flags entries t' _
          (hfresh k' v' t' (by omega) hv' hold) hslot]
        exact hP k' v' t' hk' hv' hold
  | @set k v t e' hk hvD hv ht _ hset =>
    rw [set_tab hwf.tree hk hv hv' ht hset (by omega)] at ht'
    by_cases hslot : t' = t ∧ ix (4 - k') v' = ix (4 - k) v
    · obtain ⟨rfl, hix⟩ := hslot
      obtain ⟨rfl, _⟩ := hwf.tree.place k' k v' v t' (by omega) hk hv' hv ht' ht
      have he := hP k' v' t' hk' hv' ht'
      rw [hix] at he ⊢
      rw [setEntry_slot]
      intro hpres
      cases hset with
      | widen present rw us _ _ htable =>
        exact hst.widen k' v' _ present rw us (he (isTable_iff.mp htable).1)
      | leaf _ h1 _ => omega
      | clear _ _ _ => cases hpres
    · rw [setEntry_touches s t (ix (4 - k) v) e' t' _ not_false hslot]
      exact hP k' v' t' hk' hv' ht'

/-- The tables an address space owns stay its own. -/
theorem Edit.owns (h : Edit root c s s') {t : Nat} (ht : Owns root s t) : Owns root s' t := by
  cases h with
  | other _ hallocs _ => exact ht.imp id fun h => hallocs ▸ h
  | drop _ => exact ht
  | link _ _ _ _ _ _ _ => exact ht.imp id (mem_cons_of_mem _)
  | set _ _ _ _ _ _ => exact ht

/-- **An edit of owned tables keeps all others.** -/
theorem Edit.frame (h : Edit root c s s') (hc : c.owned) {t : Nat} (ht : ¬ Owns root s' t) :
    s'.mem t = s.mem t := by
  have hs : ¬ Owns root s t := fun hs => ht (h.owns hs)
  cases h with
  | other hmem _ _ => rw [hmem]
  | drop _ => rfl
  | @link k v t1 p rest flags entries _ _ _ _ hown _ _ =>
    have hp : t ≠ p := fun h => ht (.inr (h ▸ mem_cons_self))
    have ht1 : t ≠ t1 := fun h => hs (h ▸ hown hc)
    funext i
    exact link_touches s t1 _ p rest flags entries t i hp fun h => ht1 h.1
  | @set k v t1 e' _ _ _ _ hown _ =>
    have ht1 : t ≠ t1 := fun h => hs (h ▸ hown hc)
    funext i
    exact setEntry_touches s t1 _ e' t i not_false fun h => ht1 h.1

end Edit

/-! ## Sequences of edits -/

/-- What a piece of page-table code does: edits, one after the other. -/
def Edits (root : Nat) (c : Scope) : PtState → PtState → Prop := Relation.ReflTransGen (Edit root c)

section Edits

variable {root : Nat} {c c' : Scope} {s s' : PtState} {q : Nat}

section

variable (h : Edits root c s s') (hwf : Wf root s)

include h hwf

theorem Edits.wf : Wf root s' := by
  induction h with
  | refl => exact hwf
  | tail _ hstep ih => exact hstep.wf ih

theorem Edits.related {g : Grant} {R : Option Trans → Option Trans → Prop} (hq : q < PAGES)
    (hR : Suits g c q R) : R (g.translate s.mem root q) (g.translate s'.mem root q) := by
  induction h with
  | refl => exact hR.refl _
  | tail hrun hstep ih => exact hR.trans ih (hstep.related (Edits.wf hrun hwf) hq hR)

/-- **Edits leave the pages outside their scope where they are** and take no permission from
them. -/
theorem Edits.widens (hq : q < PAGES) (hqD : q ∉ c.pages) :
    Widens (translate s.mem root q) (translate s'.mem root q) := by
  have hrel := Edits.related h hwf hq (suits_widens hqD)
  rwa [Grant.translate_nothing, Grant.translate_nothing] at hrel

theorem Edits.absent (hc : ¬ c.widens) (hq : q < PAGES) (hnone : translate s.mem root q = none) :
    translate s'.mem root q = none := by
  rw [← Grant.translate_nothing] at hnone ⊢
  exact Edits.related h hwf hq (suits_absent hc q) hnone

/-- **What edits may do to a page outside their scope is known beforehand.** -/
theorem Edits.granted {g : Grant} (hfits : g.Fits c q) (hq : q < PAGES) (hqD : q ∉ c.pages) :
    g.translate s'.mem root q = g.translate s.mem root q :=
  Edits.related h hwf hq (hfits.suits hqD)

/-- A page whose translation is the same with what is granted keeps it. -/
theorem Edits.exact {g : Grant} (hfits : g.Fits c q) (hq : q < PAGES) (hqD : q ∉ c.pages)
    (hsame : g.translate s.mem root q = translate s.mem root q) :
    translate s'.mem root q = translate s.mem root q := by
  refine (Edits.widens h hwf hq hqD).antisymm ?_
  rw [← hsame, ← Edits.granted h hwf hfits hq hqD]
  exact g.translate_widens s'.mem

end

theorem Edits.owns (h : Edits root c s s') {t : Nat} (ht : Owns root s t) : Owns root s' t := by
  induction h with
  | refl => exact ht
  | tail _ hstep ih => exact hstep.owns ih

theorem Edits.frame (h : Edits root c s s') (hc : c.owned) {t : Nat} (ht : ¬ Owns root s' t) :
    s'.mem t = s.mem t := by
  induction h with
  | refl => rfl
  | tail _ hstep ih => rw [hstep.frame hc ht, ih fun hown => ht (hstep.owns hown)]

end Edits

end AxonOS.Paging

import AxonOS.Paging.Edits

/-! # What the page-table code does

Every function of `mm.c` that works on the tables of a page makes edits on the walk of the page,
however it ends: with success, with an error after some of the work is done, or with a fault of the
processor at an entry that leads nowhere. A function that returns a table returns the one on the
walk.
-/

namespace AxonOS.Paging

open Lib

/-! ## Places that may be written -/

/-- The walk of the page `v` of the scope reaches the table `t` after `k` steps, and the table may
be written. -/
structure Slot (root : Nat) (c : Scope) (s : PtState) (k v t : Nat) : Prop where
  page : v ∈ c.pages
  bound : v < PAGES
  table : tab s.mem root k v = some t
  own : c.owned → Owns root s t

/-- The walk is the same for the first `k` steps. -/
def Kept (root k v : Nat) (s s' : PtState) : Prop :=
  ∀ j, j ≤ k → tab s'.mem root j v = tab s.mem root j v

/-- The first `n` entries on the walk lead to tables and give all permissions. -/
def OpenTo (root n v : Nat) (s : PtState) : Prop :=
  ∀ k, k < n → ∃ t, tab s.mem root k v = some t ∧ (s.mem t (ix (4 - k) v)).isTable = true
    ∧ (s.mem t (ix (4 - k) v)).us = true ∧ (s.mem t (ix (4 - k) v)).rw = true

/-- The run of `x` makes edits, however it ends. -/
abbrev Runs {α : Type} (root : Nat) (c : Scope) (x : PtM α) (s : PtState) : Prop :=
  Makes (Edit root c) x s fun _ _ => True

section Specs

variable {root : Nat} {c : Scope} {s s' s'' : PtState} {k v t l : Nat} {e' : Pte} {flags : Flags}
  {entries : Nat → Pte} {rest : List (Option Nat)} {p : Nat}

theorem Slot.ofRoot (root : Nat) (s : PtState) (hv : v ∈ c.pages) (hb : v < PAGES) :
    Slot root c s 0 v root :=
  ⟨hv, hb, rfl, fun _ => .inl rfl⟩

theorem Kept.refl (root k v : Nat) (s : PtState) : Kept root k v s s := fun _ _ => rfl

theorem Kept.trans (h : Kept root k v s s') (h' : Kept root k v s' s'') : Kept root k v s s'' :=
  fun j hj => (h' j hj).trans (h j hj)

theorem SamePath.trans (h : SamePath s.mem s'.mem root k v)
    (h' : SamePath s'.mem s''.mem root k v) : SamePath s.mem s''.mem root k v := by
  intro j t hj ht
  rw [h' j t hj ((h.mono hj.le).tab.trans ht), h j t hj ht]

theorem SamePath.kept (h : SamePath s.mem s'.mem root k v) : Kept root k v s s' :=
  fun _ hj => (h.mono hj).tab

theorem OpenTo.keep (h : OpenTo root k v s) (hsame : SamePath s.mem s'.mem root k v) :
    OpenTo root k v s' := by
  intro j hj
  obtain ⟨t, ht, hopen⟩ := h j hj
  exact ⟨t, (hsame.mono hj.le).tab.trans ht, hsame j t hj ht ▸ hopen⟩

theorem OpenTo.succ (h : OpenTo root k v s) (ht : tab s.mem root k v = some t)
    (htable : (s.mem t (ix (4 - k) v)).isTable = true) (hus : (s.mem t (ix (4 - k) v)).us = true)
    (hrw : (s.mem t (ix (4 - k) v)).rw = true) : OpenTo root (k + 1) v s := by
  intro j hj
  rcases Nat.eq_or_lt_of_le (Nat.le_of_lt_succ hj) with rfl | hlt
  · exact ⟨t, ht, htable, hus, hrw⟩
  · exact h j hlt

theorem Slot.keep {j : Nat} (h : Slot root c s j v t) (hrun : Edits root c s s')
    (hkept : Kept root k v s s') (hj : j ≤ k) : Slot root c s' j v t :=
  ⟨h.page, h.bound, (hkept j hj).trans h.table, fun hc => hrun.owns (h.own hc)⟩

theorem Slot.child (h : Slot root c s k v t) (htable : (s.mem t (ix (4 - k) v)).isTable = true)
    (hown : c.owned → Owns root s (s.mem t (ix (4 - k) v)).pfn) :
    Slot root c s (k + 1) v (s.mem t (ix (4 - k) v)).pfn :=
  ⟨h.page, h.bound, by rw [tab_succ h.table, if_pos htable], hown⟩

/-! ## Statements -/

section Statements

variable {α : Type} {r : PtState → PtState → Prop} {Q : α → PtState → Prop} {i : Nat} {b : Bool}
  {code : Int} {f : Pte → PtM α} {o : Option Nat}

theorem makes_readEntry_bind (h : t < 2 ^ 20 → Makes r (f (s.mem t i)) s Q) :
    Makes r (readEntry t i >>= f) s Q := by
  unfold readEntry
  split
  next ht => exact h ht
  next => exact makes_throw

theorem readIf_eq (b : Bool) (t i : Nat) :
    readIf b t i = readOpt (if b then some t else none) i := by
  cases b <;> rfl

/-- An entry that is read and not used. -/
theorem makes_readOpt_skip (h : ∀ e, Makes r (f e) s Q) : Makes r (readOpt o i >>= f) s Q := by
  cases o with
  | some t => exact makes_readEntry_bind fun _ => h _
  | none => exact h _

theorem makes_failIf_bind {f : Unit → PtM α} (h : b = false → Makes r (f ()) s Q) :
    Makes r (failIf b code >>= f) s Q := by
  cases b with
  | true => exact makes_throw
  | false => exact h rfl

theorem makes_failIf {Q : Unit → PtState → Prop} (h : b = false → Q () s) :
    Makes r (failIf b code) s Q := by
  cases b with
  | true => exact makes_throw
  | false => exact makes_pure (h rfl)

theorem makes_ite {x y : PtM α} (hx : b = true → Makes r x s Q) (hy : b = false → Makes r y s Q) :
    Makes r (if b then x else y) s Q := by
  cases b with
  | true => exact hx rfl
  | false => exact hy rfl

theorem makes_doIf {x : PtM Unit} {Q : Unit → PtState → Prop} (hx : b = true → Makes r x s Q)
    (h : b = false → Q () s) : Makes r (doIf b x) s Q := by
  cases b with
  | true => exact hx rfl
  | false => exact makes_pure (h rfl)

theorem makes_mmOwnsPtPage_bind {f : Bool → PtM α} (h : Makes r (f (s.allocs.contains t)) s Q) :
    Makes r (mmOwnsPtPage t >>= f) s Q := h

theorem makes_writeEntry (hk : k ≤ 3) (h : Slot root c s k v t)
    (hset : SetOk c (4 - k) v (s.mem t (ix (4 - k) v)) e') :
    Makes (Edit root c) (writeEntry t (ix (4 - k) v) e') s
      fun _ s' => s' = s.setEntry t (ix (4 - k) v) e' := by
  unfold writeEntry
  split
  · exact makes_modify (.set hk h.page h.bound h.table h.own hset) rfl
  · exact makes_throw

theorem set_kept (hwf : Wf root s) (hk : k ≤ 3) (h : Slot root c s k v t)
    (hset : SetOk c (4 - k) v (s.mem t (ix (4 - k) v)) e') :
    Kept root 3 v s (s.setEntry t (ix (4 - k) v) e') :=
  fun _ hj => set_tab hwf.tree hk h.bound h.bound h.table hset hj

theorem set_same (hwf : Wf root s) (hk : k ≤ 3) (h : Slot root c s k v t) (e' : Pte) :
    SamePath s.mem (s.setEntry t (ix (4 - k) v) e').mem root k v :=
  hwf.tree.samePath_above (offTree_none _ _) hk h.bound h.bound h.table (setEntry_touches _ _ _ _)

theorem OpenTo.widened (h : OpenTo root k v s) (hwf : Wf root s) (hk : k ≤ 2)
    (hslot : Slot root c s k v t) (htable : (s.mem t (ix (4 - k) v)).isTable = true)
    (present : Bool) : OpenTo root (k + 1) v
      (s.setEntry t (ix (4 - k) v) ((s.mem t (ix (4 - k) v)).widen present true true)) := by
  have hsame := set_same hwf (by omega) hslot ((s.mem t (ix (4 - k) v)).widen present true true)
  refine (h.keep hsame).succ (hsame.tab.trans hslot.table) ?_ ?_ ?_ <;> rw [setEntry_slot]
  · exact widen_isTable _ _ _ htable
  · simp [Pte.widen]
  · simp [Pte.widen]

/-- The state after `alloc_pt_page`. -/
def PtState.allocated (s : PtState) (p : Nat) (rest : List (Option Nat)) : PtState :=
  { s.setTable p (fun _ => {}) with allocs := p :: s.allocs, pool := rest }

theorem makes_allocPtPage_bind {f : Nat → PtM α}
    (h : ∀ p rest, s.pool = some p :: rest →
      Ends (f p) (s.allocated p rest) (fun a s' => Edits root c s s' ∧ Q a s')
        fun _ s' => Edits root c s s') :
    Makes (Edit root c) (allocPtPage code >>= f) s Q := by
  refine ends_bind.mpr ?_
  unfold allocPtPage
  refine ends_bind.mpr (ends_get.mpr ?_)
  split
  next p rest hpool => exact h p rest hpool
  next rest hpool => exact Relation.ReflTransGen.single (.drop hpool)
  next => exact Relation.ReflTransGen.refl

end Statements

/-! ## New tables -/

/-- The table `l` is new below the entry of the walk after `k` steps. -/
structure Linked (root : Nat) (c : Scope) (s s' : PtState) (k v t l : Nat) (flags : Flags) :
    Prop where
  slot : Slot root c s' (k + 1) v l
  same : SamePath s.mem s'.mem root k v
  entry : s'.mem t (ix (4 - k) v) = ⟨flags, l⟩

theorem linked (hwf : Wf root s) (hk : k ≤ 2) (h : Slot root c s k v t)
    (hpool : s.pool = some p :: rest)
    (hlink : LinkOk s.mem (4 - k) v (s.mem t (ix (4 - k) v)) flags entries) :
    Edits root c s (s.link t (ix (4 - k) v) p rest flags entries)
      ∧ Linked root c s (s.link t (ix (4 - k) v) p rest flags entries) k v t p flags := by
  have hp : some p ∈ s.pool := hpool ▸ List.mem_cons_self
  constructor
  · exact .single (.link hk h.page h.bound h.table h.own hpool hlink)
  have hmine : p ∈ (s.link t (ix (4 - k) v) p rest flags entries).allocs := List.mem_cons_self
  constructor
  · exact ⟨h.page, h.bound, link_tab_new hwf hk h.bound h.table hp hlink, fun _ => .inr hmine⟩
  · exact hwf.tree.samePath_above (hwf.fresh p hp) (by omega) h.bound h.bound h.table
      (link_touches _ _ _ _ _ _ _)
  · exact link_slot s t _ p rest flags entries

theorem setTable_allocated (s : PtState) (t i p : Nat) (rest : List (Option Nat)) (flags : Flags)
    (entries : Nat → Pte) :
    ((s.allocated p rest).setTable p entries).setEntry t i ⟨flags, p⟩
      = s.link t i p rest flags entries := by
  have hmem : ((s.allocated p rest).setTable p entries).mem = (s.setTable p entries).mem := by
    funext t' i'
    simp only [PtState.allocated, PtState.setTable]
    split <;> rfl
  simp only [PtState.link, PtState.setEntry, hmem]
  rfl

section

variable (hwf : Wf root s) (hk : k ≤ 2) (h : Slot root c s k v t)

include hwf hk h

/-- An empty table under an entry that is not present. -/
theorem makes_fill (habsent : (s.mem t (ix (4 - k) v)).present = false)
    (ht : t < 2 ^ 20) (code : Int) :
    Makes (Edit root c)
      (do
        let l ← allocPtPage code
        writeEntry t (ix (4 - k) v) ⟨.user, l⟩
        pure l) s fun l s' => Linked root c s s' k v t l .user := by
  apply makes_allocPtPage_bind
  intro p rest hpool
  have hdone := linked hwf hk h hpool (.fill habsent)
  unfold writeEntry
  rw [if_pos ht]
  exact hdone

/-- The table of the slices of a large leaf. -/
theorem makes_slices (hlink : LinkOk s.mem (4 - k) v (s.mem t (ix (4 - k) v)) flags entries)
    (ht : t < 2 ^ 20) (code : Int) :
    Makes (Edit root c)
      (do
        let l ← allocPtPage code
        modify fun s => s.setTable l entries
        writeEntry t (ix (4 - k) v) ⟨flags, l⟩) s
      fun _ s' => ∃ l, Linked root c s s' k v t l flags := by
  apply makes_allocPtPage_bind
  intro p rest hpool
  have hdone := linked hwf hk h hpool hlink
  rw [← setTable_allocated] at hdone
  unfold writeEntry
  rw [if_pos ht]
  exact ⟨hdone.1, p, hdone.2⟩

/-- A copy of the table below an entry takes its place. -/
theorem makes_copy (htable : (s.mem t (ix (4 - k) v)).isTable = true)
    (ht : t < 2 ^ 20) (code : Int) :
    Makes (Edit root c)
      (do
        let l ← dupPtPage (s.mem t (ix (4 - k) v)).pfn code
        writeEntry t (ix (4 - k) v) ⟨(s.mem t (ix (4 - k) v)).toFlags.low, l⟩
        pure l) s
      fun l s' => Linked root c s s' k v t l (s.mem t (ix (4 - k) v)).toFlags.low := by
  unfold dupPtPage
  simp only [bind_assoc, pure_bind]
  apply makes_failIf_bind
  intro _
  apply makes_allocPtPage_bind
  intro p rest hpool
  have hdone := linked hwf hk h hpool (.copy htable)
  -- the table that is copied is on the walk, so it is not the new page
  have hsrc : (s.allocated p rest).mem (s.mem t (ix (4 - k) v)).pfn
      = s.mem (s.mem t (ix (4 - k) v)).pfn := by
    have hne := hwf.fresh p (hpool ▸ List.mem_cons_self) (k + 1) v _ (by omega) h.bound
      (show tab s.mem root (k + 1) v = some (s.mem t (ix (4 - k) v)).pfn by
        rw [tab_succ h.table, if_pos htable])
    funext i
    exact if_neg hne
  rw [← setTable_allocated, ← hsrc] at hdone
  refine ends_bind.mpr (ends_modify.mpr ?_)
  unfold writeEntry
  rw [if_pos ht]
  exact hdone

end

/-! ## Splitting -/

/-- What is left where a large leaf may have been: no large leaf. -/
structure SplitDone (root : Nat) (s s' : PtState) (k v t : Nat) : Prop where
  same : SamePath s.mem s'.mem root k v
  present : (s'.mem t (ix (4 - k) v)).present = (s.mem t (ix (4 - k) v)).present
  small : (s'.mem t (ix (4 - k) v)).present = true → (s'.mem t (ix (4 - k) v)).ps = false

theorem Linked.splitDone (h : Linked root c s s' k v t l flags)
    (hpres : flags.present = (s.mem t (ix (4 - k) v)).present) (hps : flags.ps = false) :
    SplitDone root s s' k v t :=
  ⟨h.same, by rw [h.entry]; exact hpres, fun _ => by rw [h.entry]; exact hps⟩

theorem splitDone_refl (h : ((s.mem t (ix (4 - k) v)).present
      && (s.mem t (ix (4 - k) v)).ps) = false) :
    SplitDone root s s k v t :=
  ⟨fun _ _ _ _ => rfl, rfl, fun hpres => by simpa [hpres] using h⟩

theorem makes_split2mTo4k (hwf : Wf root s) (h : t < 2 ^ 20 → (s.mem t (ix 2 v)).present = true →
      (s.mem t (ix 2 v)).ps = true → Slot root c s 2 v t) (code : Int) :
    Makes (Edit root c) (split2mTo4k t (ix 2 v) v code) s
      fun _ s' => SplitDone root s s' 2 v t := by
  unfold split2mTo4k
  apply makes_readEntry_bind
  intro ht
  split
  next hsmall => exact makes_pure (splitDone_refl (k := 2) (by grind))
  next hlarge =>
    have hboth : (s.mem t (ix 2 v)).present = true ∧ (s.mem t (ix 2 v)).ps = true := by
      simpa using hlarge
    refine (makes_slices hwf (by omega) (h ht hboth.1 hboth.2) (.split2m rfl hboth.1 hboth.2) ht
      code).post ?_
    rintro _ s' _ ⟨l, hl⟩
    exact hl.splitDone rfl rfl

theorem makes_splitL31gToL2 (hwf : Wf root s) (h : t < 2 ^ 20 → (s.mem t (ix 3 v)).present = true →
      (s.mem t (ix 3 v)).ps = true → Slot root c s 1 v t) (code : Int) :
    Makes (Edit root c) (splitL31gToL2 t (ix 3 v) code) s
      fun _ s' => SplitDone root s s' 1 v t := by
  unfold splitL31gToL2
  apply makes_readEntry_bind
  intro ht
  split
  next hsmall => exact makes_pure (splitDone_refl (k := 1) (by grind))
  next hlarge =>
    have hboth : (s.mem t (ix 3 v)).present = true ∧ (s.mem t (ix 3 v)).ps = true := by
      simpa using hlarge
    refine (makes_slices hwf (by omega) (h ht hboth.1 hboth.2) (.split1g rfl hboth.1 hboth.2) ht
      code).post ?_
    rintro _ s' _ ⟨l, hl⟩
    exact hl.splitDone rfl rfl

/-! ## `mm_map_user_page` -/

theorem makes_mapLevel (hwf : Wf root s) (hw : c.widens) (hk : k ≤ 2) (h : Slot root c s k v t)
    {split : PtM Unit}
    (hsplit : (s.mem t (ix (4 - k) v)).present = true → (s.mem t (ix (4 - k) v)).ps = true →
      Makes (Edit root c) split s fun _ s' => SplitDone root s s' k v t)
    (codes : MapCodes) :
    Makes (Edit root c) (mapLevel t (ix (4 - k) v) split codes) s fun l s' =>
      Slot root c s' (k + 1) v l ∧ (OpenTo root k v s → OpenTo root (k + 1) v s') := by
  unfold mapLevel
  apply makes_readEntry_bind
  intro ht
  refine Makes.bind (Q := fun _ s' => SplitDone root s s' k v t) ?_ ?_
  · apply makes_doIf
    · intro hlarge
      have hboth : (s.mem t (ix (4 - k) v)).present = true
          ∧ (s.mem t (ix (4 - k) v)).ps = true := by
        simpa using hlarge
      exact hsplit hboth.1 hboth.2
    · exact splitDone_refl
  intro _ s1 hrun hdone
  have hwf1 := Edits.wf hrun hwf
  have h1 := h.keep hrun hdone.same.kept le_rfl
  apply makes_readEntry_bind
  intro _
  split
  next habsent =>
    refine (makes_fill hwf1 hk h1 (by simpa using habsent) ht _).post ?_
    intro l s' _ hl
    refine ⟨hl.slot, fun hopen => (hopen.keep (hdone.same.trans hl.same)).succ
      ((hl.same.kept k le_rfl).trans h1.table) ?_ ?_ ?_⟩ <;> rw [hl.entry] <;> rfl
  next hpres =>
    have hpres : (s1.mem t (ix (4 - k) v)).present = true := by simpa using hpres
    have htable := isTable_iff.mpr ⟨hpres, hdone.small hpres⟩
    apply makes_failIf_bind
    intro _
    apply makes_mmOwnsPtPage_bind
    -- the table below, the address space's own in both cases
    refine Makes.bind (Q := fun l s' => Slot root c s' (k + 1) v l
      ∧ SamePath s1.mem s'.mem root k v ∧ (s'.mem t (ix (4 - k) v)).isTable = true) ?_ ?_
    · split
      next howned =>
        have hmine : (s1.mem t (ix (4 - k) v)).pfn ∈ s1.allocs := by simpa using howned
        exact makes_pure ⟨h1.child htable fun _ => .inr hmine, fun _ _ _ _ => rfl, htable⟩
      next =>
        refine (makes_copy hwf1 hk h1 htable ht _).post ?_
        intro l s' _ hl
        exact ⟨hl.slot, hl.same, by rw [hl.entry]; exact htable⟩
    · rintro l s2 hrun2 ⟨hl, hsame, htable2⟩
      have hwf2 := Edits.wf hrun2 hwf1
      have h2 := h1.keep hrun2 hsame.kept le_rfl
      apply makes_readEntry_bind
      intro _
      have hset : SetOk c (4 - k) v (s2.mem t (ix (4 - k) v))
          ((s2.mem t (ix (4 - k) v)).widen true true true) :=
        .widen true true true hw (by omega) htable2
      refine (makes_writeEntry (by omega) h2 hset).bind ?_
      rintro _ s3 hrun3 rfl
      refine makes_pure ⟨hl.keep hrun3 (set_kept hwf2 (by omega) h2 hset) (by omega), ?_⟩
      exact fun hopen => (hopen.keep (hdone.same.trans hsame)).widened hwf2 hk h2 htable2 true

theorem makes_mapTables (hwf : Wf root s) (hw : c.widens) (hv : v ∈ c.pages) (hb : v < PAGES) :
    Makes (Edit root c) (mapTables root v) s fun l s' =>
      Slot root c s' 3 v l ∧ OpenTo root 3 v s' := by
  unfold mapTables
  have htop := hwf.tree.top (ix 4 v)
  refine (makes_mapLevel hwf hw (show 0 ≤ 2 by omega) (Slot.ofRoot root s hv hb) ?_ _).bind ?_
  · intro hpres hps
    rw [htop hpres] at hps
    cases hps
  rintro l3 s1 hrun1 ⟨h3, hopen1⟩
  have hwf1 := Edits.wf hrun1 hwf
  refine (makes_mapLevel hwf1 hw (show 1 ≤ 2 by omega) h3 ?_ _).bind ?_
  · exact fun _ _ => makes_splitL31gToL2 hwf1 (fun _ _ _ => h3) _
  rintro l2 s2 hrun2 ⟨h2, hopen2⟩
  have hwf2 := Edits.wf hrun2 hwf1
  refine (makes_mapLevel hwf2 hw (le_refl 2) h2 ?_ _).post ?_
  · exact fun _ _ => makes_split2mTo4k hwf2 (fun _ _ _ => h2) _
  · intro l s3 _ h1
    exact ⟨h1.1, h1.2 (hopen2 (hopen1 fun _ hk => absurd hk (Nat.not_lt_zero _)))⟩

theorem makes_frameRelease (pfn : Nat) :
    Makes (Edit root c) (frameRelease pfn) s fun _ s' => s'.mem = s.mem :=
  makes_modify (.other rfl rfl rfl) rfl

theorem makes_mmMapUserPage (hwf : Wf root s) (hw : c.widens) (swapper va pa : Nat) (flags : Flags)
    (hv : va / 4096 ∈ c.pages) :
    Makes (Edit root c) (mmMapUserPage swapper root va pa flags) s fun _ s' =>
      OpenTo root 3 (va / 4096) s' := by
  unfold mmMapUserPage
  apply makes_failIf_bind
  intro _
  apply makes_failIf_bind
  intro hva
  have hva : va < AxonOS.Arch.MMIO_IDENTITY_LIMIT := by simpa using hva
  unfold AxonOS.Arch.MMIO_IDENTITY_LIMIT at hva
  have hb : va / 4096 < PAGES := lt_pages (by omega)
  apply makes_failIf_bind
  intro _
  apply makes_failIf_bind
  intro _
  refine (makes_mapTables hwf hw hv hb).bind ?_
  rintro l1 s1 hrun1 ⟨h1, hopen⟩
  have hwf1 := Edits.wf hrun1 hwf
  apply makes_readEntry_bind
  intro _
  refine (makes_writeEntry (le_refl 3) h1 (.leaf _ rfl (.inl hw))).bind ?_
  intro _ s2 _ hs2
  have hopen2 : OpenTo root 3 (va / 4096) s2 := by
    rw [hs2]
    exact hopen.keep (set_same hwf1 (le_refl 3) h1 _)
  refine makes_doIf (fun _ => (makes_frameRelease _).post ?_) fun _ => hopen2
  intro _ s3 _ hmem
  unfold OpenTo
  rw [hmem]
  exact hopen2

end Specs

end AxonOS.Paging

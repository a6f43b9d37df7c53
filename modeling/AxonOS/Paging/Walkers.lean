import AxonOS.Paging.Effects

/-! # The walks of `mm.c` and the hardware walk

`mm_va_leaf_pa`, `mm_user_leaf_pa_direct` and `mm_share_pte_user_cowable_pa` follow the same tables
with tests of their own. What they find is the page that the processor finds, but for
`mm_va_leaf_pa` under a 1 GiB leaf.
-/

namespace AxonOS.Paging

open Lib

def mmSharePteUserWritablePa (shareL4 vpn : Nat) : PtM (Option Nat) := do
  if 2 ^ 20 ≤ vpn then pure none
  else
    let se4 ← readEntry shareL4 (ix 4 vpn)
    if !se4.present || !ptPagePaOk se4 then pure none
    else
      let se3 ← readEntry se4.ptr (ix 3 vpn)
      if !se3.present then pure none
      else if se3.ps then
        if !(se3.us && se3.rw) then pure none else pure (some (leafPfn 3 se3 vpn))
      else
        let se2 ← readEntry se3.ptr (ix 2 vpn)
        if !se2.present then pure none
        else if se2.ps then
          if !(se2.us && se2.rw) then pure none else pure (some (leafPfn 2 se2 vpn))
        else
          let se1 ← readEntry se2.ptr (ix 1 vpn)
          if !se1.present then pure none
          else if !(se1.us && se1.rw) then pure none
          else pure (some se1.pfn)

def mmSharePteUserCowablePa (shareL4 vpn : Nat) : PtM (Option Nat) := do
  match ← mmSharePteUserWritablePa shareL4 vpn with
  | some pfn => pure (some pfn)
  | none =>
    if 2 ^ 20 ≤ vpn then pure none
    else
      let se4 ← readEntry shareL4 (ix 4 vpn)
      if !se4.present || !ptPagePaOk se4 then pure none
      else
        let se3 ← readEntry se4.ptr (ix 3 vpn)
        if !leads se3 then pure none
        else
          let se2 ← readEntry se3.ptr (ix 2 vpn)
          if !leads se2 then pure none
          else
            let se1 ← readEntry se2.ptr (ix 1 vpn)
            if !(se1.present && se1.us && se1.cow && !se1.rw) then pure none
              else pure (some se1.pfn)

/-- The page that the processor finds from an entry of a level on. -/
def hwPage (mem : Nat → Nat → Pte) (level : Nat) (e : Pte) (vpn : Nat) : Option Nat :=
  (walk mem level e vpn).map Trans.pfn

/-- The walk returns `page`. -/
def Finds (s : PtState) (x : PtM (Option Nat)) (page : Option Nat) : Prop :=
  Ends x s (fun r _ => r = page) fun _ _ => False

/-- If the walk returns a page, it is `page`; the tables are as they were. -/
def Sound (s : PtState) (x : PtM (Option Nat)) (page : Option Nat) : Prop :=
  Ends x s (fun r s' => (r ≠ none → r = page) ∧ s' = s) fun _ _ => True

/-- The tables of a walk are where the kernel can read them, by pointers that keep the bits above
the address, and the page is not in a part of a 1 GiB leaf that the 22 bits do not reach. -/
def Plain (mem : Nat → Nat → Pte) : Nat → Pte → Nat → Prop
  | 0, _, _ | 1, _, _ => True
  | level + 2, e, vpn =>
    if e.ps then level = 1 → vpn % 2 ^ 18 < 2 ^ 10
    else e.ptr < 2 ^ 20 ∧ Plain mem (level + 1) (mem e.ptr (ix (level + 1) vpn)) vpn

section Rules

variable {s : PtState} {level t i vpn p : Nat} {e : Pte} {f : Pte → PtM (Option Nat)}
  {page : Option Nat} {x y : PtM (Option Nat)} {c : Prop} [Decidable c]
  {Q : Option Nat → PtState → Prop} {E : Stop → PtState → Prop}

theorem ends_readEntry (ht : t < 2 ^ 20) :
    Ends (readEntry t i >>= f) s Q E ↔ Ends (f (s.mem t i)) s Q E := by
  unfold readEntry
  rw [if_pos ht]
  rfl

theorem readEntry_faults (ht : ¬t < 2 ^ 20) : Ends (readEntry t i >>= f) s Q E ↔ E .fault s := by
  unfold readEntry
  rw [if_neg ht]
  rfl

/-- Below a table that the kernel can read, the processor goes on from the same entry. -/
theorem hwPage_below (h : e.ptr < 2 ^ 20) (hpres : e.present = true) (hps : e.ps = false) :
    hwPage s.mem (level + 2) e vpn
      = hwPage s.mem (level + 1) (s.mem e.ptr (ix (level + 1) vpn)) vpn := by
  unfold hwPage
  rw [walk_table (by omega) (isTable_iff.mpr ⟨hpres, hps⟩), Option.map_map, ptr_eq h]
  rfl

theorem hwPage_large (hl : level = 2 ∨ level = 3) (h : e.present = true) (hps : e.ps = true) :
    hwPage s.mem level e vpn = some (leafPfn level e vpn) := by
  rw [hwPage, walk_large hl h hps, Option.map_some]

theorem hwPage_page (h : ¬(!e.present) = true) : hwPage s.mem 1 e vpn = some e.pfn := by
  rw [hwPage, walk_page (by simpa using h), Option.map_some]

theorem paOk_of_low (h : e.pfn < 2 ^ 20) : ptPagePaOk e = true := by
  rw [ptPagePaOk, decide_eq_true h, Bool.or_true]

theorem sound_some : Sound s (pure (some p)) (some p) := ⟨fun _ => rfl, rfl⟩

theorem sound_guard (h : ¬c → Sound s x page) : Sound s (if c then pure none else x) page := by
  split
  case isTrue => exact ⟨fun hne => absurd rfl hne, rfl⟩
  case isFalse hc => exact h hc

theorem sound_below (hpres : ¬(!e.present) = true) (hps : e.ps = false)
    (hf : ∀ e', Sound s (f e') (hwPage s.mem (level + 1) e' vpn)) :
    Sound s (readEntry e.ptr (ix (level + 1) vpn) >>= f) (hwPage s.mem (level + 2) e vpn) := by
  by_cases h : e.ptr < 2 ^ 20
  · rw [hwPage_below h (by simpa using hpres) hps]
    exact (ends_readEntry h).mpr (hf _)
  · exact (readEntry_faults h).mpr trivial

theorem sound_large (hl : level = 2 ∨ level = 3) (hpres : ¬(!e.present) = true)
    (hlarge : Sound s x (some (leafPfn level e vpn)))
    (hbelow : e.ps = false → Sound s y (hwPage s.mem level e vpn)) :
    Sound s (if e.ps then x else y) (hwPage s.mem level e vpn) := by
  cases hps : e.ps with
  | true =>
    rw [hwPage_large hl (by simpa using hpres) hps]
    exact hlarge
  | false => exact hbelow hps

theorem present_of_hwPage (h : hwPage s.mem level e vpn = some p) : e.present = true := by
  by_contra hpres
  rw [hwPage, walk_absent (by simpa using hpres)] at h
  cases h

/-- On the way to a page a table is read if its pointer is low. -/
theorem finds_below (h : hwPage s.mem (level + 2) e vpn = some p) (hps : e.ps = false)
    (hc : c ↔ ptPagePaOk e = false) (hf : ∀ e', hwPage s.mem (level + 1) e' vpn = some p →
      (Finds s (f e') (some p) ↔ Plain s.mem (level + 1) e' vpn)) :
    Finds s (if c then pure none else readEntry e.ptr (ix (level + 1) vpn) >>= f) (some p)
      ↔ Plain s.mem (level + 2) e vpn := by
  rw [Plain, if_neg (Bool.eq_false_iff.mp hps)]
  by_cases hptr : e.ptr < 2 ^ 20
  · have hok := paOk_of_low (ptr_eq hptr ▸ hptr)
    rw [if_neg (by rw [hc, hok]; decide), and_iff_right hptr,
      ← hf _ (hwPage_below hptr (present_of_hwPage h) hps ▸ h)]
    exact ends_readEntry hptr
  · refine iff_of_false ?_ fun hplain => hptr hplain.1
    split
    · exact fun hnone => by cases hnone
    · exact fun hend => (readEntry_faults hptr).mp hend

end Rules

section Walkers

variable {s : PtState} {pml4 vpn : Nat}

theorem userOk_present {e : Pte} {write : Bool} (h : ¬(!userOk e write) = true) :
    ¬(!e.present) = true := by
  simp only [userOk] at h
  grind

theorem mmUserLeafPaDirect_sound (hpml4 : pml4 < 2 ^ 20) (htop : (s.mem pml4 (ix 4 vpn)).ps = false)
    (write : Bool) :
    Sound s (mmUserLeafPaDirect pml4 vpn write) (hwPage s.mem 4 (s.mem pml4 (ix 4 vpn)) vpn) := by
  refine sound_guard fun _ => (ends_readEntry hpml4).mpr (sound_guard fun h4 => ?_)
  refine sound_below (by grind [userOk]) htop fun e3 => sound_guard fun h3 => ?_
  refine sound_large (.inr rfl) (userOk_present h3) sound_some fun hps3 => sound_guard fun _ => ?_
  refine sound_below (userOk_present h3) hps3 fun e2 => sound_guard fun h2 => ?_
  refine sound_large (.inl rfl) (userOk_present h2) sound_some fun hps2 => sound_guard fun _ => ?_
  refine sound_below (userOk_present h2) hps2 fun e1 => sound_guard fun h1 => ?_
  rw [hwPage_page (userOk_present h1)]
  exact sound_some

theorem mmSharePteUserWritablePa_sound (hpml4 : pml4 < 2 ^ 20)
    (htop : (s.mem pml4 (ix 4 vpn)).ps = false) :
    Sound s (mmSharePteUserWritablePa pml4 vpn) (hwPage s.mem 4 (s.mem pml4 (ix 4 vpn)) vpn) := by
  refine sound_guard fun _ => (ends_readEntry hpml4).mpr (sound_guard fun h4 => ?_)
  refine sound_below (by grind) htop fun e3 => sound_guard fun h3 => ?_
  refine sound_large (.inr rfl) h3 (sound_guard fun _ => sound_some) fun hps3 => ?_
  refine sound_below h3 hps3 fun e2 => sound_guard fun h2 => ?_
  refine sound_large (.inl rfl) h2 (sound_guard fun _ => sound_some) fun hps2 => ?_
  refine sound_below h2 hps2 fun e1 => sound_guard fun h1 => sound_guard fun _ => ?_
  rw [hwPage_page h1]
  exact sound_some

theorem mmSharePteUserCowablePa_sound (hpml4 : pml4 < 2 ^ 20)
    (htop : (s.mem pml4 (ix 4 vpn)).ps = false) :
    Sound s (mmSharePteUserCowablePa pml4 vpn) (hwPage s.mem 4 (s.mem pml4 (ix 4 vpn)) vpn) := by
  refine Ends.bind (mmSharePteUserWritablePa_sound hpml4 htop) ?_
  rintro (_ | pfn) s1 ⟨hfound, rfl⟩
  · refine sound_guard fun _ => (ends_readEntry hpml4).mpr (sound_guard fun h4 => ?_)
    refine sound_below (by grind) htop fun e3 => sound_guard fun h3 => ?_
    refine sound_below (by grind [leads]) (by grind [leads]) fun e2 => sound_guard fun h2 => ?_
    refine sound_below (by grind [leads]) (by grind [leads]) fun e1 => sound_guard fun h1 => ?_
    rw [hwPage_page (by grind)]
    exact sound_some
  · exact ⟨hfound, rfl⟩

/-- `mm_va_leaf_pa` on the way to a page. -/
theorem mmVaLeafPa_finds {p : Nat} (hpml4 : pml4 < 2 ^ 20) (hvpn : vpn < 2 ^ 20)
    (htop : (s.mem pml4 (ix 4 vpn)).ps = false)
    (h4 : hwPage s.mem 4 (s.mem pml4 (ix 4 vpn)) vpn = some p) (hlow : p < 2 ^ 20) :
    Finds s (mmVaLeafPa pml4 vpn) (some p) ↔ Plain s.mem 4 (s.mem pml4 (ix 4 vpn)) vpn := by
  unfold Finds mmVaLeafPa
  rw [if_neg (by omega), ends_readEntry hpml4]
  refine finds_below h4 htop (by simp [present_of_hwPage h4, htop]) fun e3 h3 => ?_
  have hpres3 := present_of_hwPage h3
  rw [if_neg (by simp [hpres3])]
  cases hps3 : e3.ps with
  | true =>
    rw [hwPage_large (.inr rfl) hpres3 hps3] at h3
    have hp : leafPfn 3 e3 vpn = p := Option.some.inj h3
    simp only [Finds, ends_pure, if_true, Plain, hps3, Option.some.injEq, forall_true_left]
    simp only [leafPfn] at hp
    omega
  | false =>
    refine finds_below h3 hps3 (by simp) fun e2 h2 => ?_
    have hpres2 := present_of_hwPage h2
    cases hps2 : e2.ps with
    | true =>
      rw [hwPage_large (.inl rfl) hpres2 hps2] at h2
      have hp : leafPfn 2 e2 vpn = p := Option.some.inj h2
      simp only [leafPfn] at hp
      have hok := paOk_of_low (e := e2) (by omega)
      simp [Finds, Plain, hpres2, hok, hps2, h2]
    | false =>
      refine finds_below h2 hps2 (by simp [hpres2]) fun e1 h1 => ?_
      have hpres1 := present_of_hwPage h1
      rw [hwPage_page (by simp [hpres1])] at h1
      have hok := paOk_of_low (Option.some.inj h1 ▸ hlow)
      simp [Finds, Plain, hpres1, hok, h1]

/-- `mm_va_leaf_pa` finds every page that the processor finds, and the others, if they find one,
find the same. -/
structure WalkersAgree (s : PtState) (pml4 vpn : Nat) : Prop where
  leaf : ∀ t, translate s.mem pml4 vpn = some t → Finds s (mmVaLeafPa pml4 vpn) (some t.pfn)
  user : Sound s (mmUserLeafPaDirect pml4 vpn false) ((translate s.mem pml4 vpn).map Trans.pfn)
  cowable : Sound s (mmSharePteUserCowablePa pml4 vpn) ((translate s.mem pml4 vpn).map Trans.pfn)

theorem walkers_agree_iff (s : PtState) (pml4 vpn : Nat) (hpml4 : pml4 < 2 ^ 20)
    (hvpn : vpn < 2 ^ 20) (htop : (s.mem pml4 (ix 4 vpn)).ps = false)
    (hlow : ∀ t, translate s.mem pml4 vpn = some t → t.pfn < 2 ^ 20) :
    WalkersAgree s pml4 vpn ↔
    (translate s.mem pml4 vpn ≠ none → Plain s.mem 4 (s.mem pml4 (ix 4 vpn)) vpn) := by
  have hleaf : ∀ t, translate s.mem pml4 vpn = some t →
      (Finds s (mmVaLeafPa pml4 vpn) (some t.pfn) ↔ Plain s.mem 4 (s.mem pml4 (ix 4 vpn)) vpn) :=
      fun t ht =>
    mmVaLeafPa_finds hpml4 hvpn htop (congrArg (Option.map Trans.pfn) ht) (hlow t ht)
  constructor
  · intro h hne
    obtain ⟨t, ht⟩ := Option.ne_none_iff_exists'.mp hne
    exact (hleaf t ht).mp (h.leaf t ht)
  · intro h
    refine ⟨fun t ht => (hleaf t ht).mpr (h (by simp [ht])), ?_, ?_⟩
    · exact mmUserLeafPaDirect_sound hpml4 htop false
    · exact mmSharePteUserCowablePa_sound hpml4 htop

/-- The 2 MiB leaf of a cloned tree. -/
theorem walkers_agree_cloned :
    1 < 2 ^ 20 ∧ 0x201 < 2 ^ 20 ∧ ((cloned userLeaf).mem 1 (ix 4 0x201)).ps = false
    ∧ (∀ t, translate (cloned userLeaf).mem 1 0x201 = some t → t.pfn < 2 ^ 20)
    ∧ WalkersAgree (cloned userLeaf) 1 0x201 := by
  have hlow : ∀ t, translate (cloned userLeaf).mem 1 0x201 = some t → t.pfn < 2 ^ 20 := by
    intro t ht
    obtain rfl := Option.some.inj ht
    decide
  refine ⟨by decide, by decide, rfl, hlow, ?_⟩
  refine (walkers_agree_iff _ 1 0x201 (by decide) (by decide) rfl hlow).mpr fun _ => ?_
  simp only [Plain]
  decide

/-- A leaf of 1 GiB, at 1 GiB. -/
def gigabyte : PtState := (cloned userLeaf).setEntry 2 1 { userLeaf with pfn := 2 ^ 18 }

/-- **`mm_va_leaf_pa` cuts the offset in a 1 GiB leaf**: 4 MiB into it, it returns the first
page. -/
theorem leaf_offset_cut :
    translate gigabyte.mem 1 (2 ^ 18 + 2 ^ 10) = some ⟨2 ^ 18 + 2 ^ 10, true, true⟩
    ∧ Finds gigabyte (mmVaLeafPa 1 (2 ^ 18 + 2 ^ 10)) (some (2 ^ 18))
    ∧ Finds gigabyte (mmUserLeafPaDirect 1 (2 ^ 18 + 2 ^ 10) false) (some (2 ^ 18 + 2 ^ 10)) :=
  ⟨by decide, rfl, rfl⟩

end Walkers

end AxonOS.Paging

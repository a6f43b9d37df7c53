import AxonOS.Vma.Unmap

/-! # Changing the protection of a range

`user_vma_set_prot` splits the records of a thread at both ends of the range and then overwrites the
protection of every record inside. `user_vma_split_at_nolock` adds the right half first and then
looks up the record that contains the split address, while the old record still has its whole
length. The lookup goes through the slots in order, so it finds the right half only if that landed
in a lower slot than the old record.

`splitAt_cases` says what one split does, with the two placements as separate cases. A split with
the right half in the lower slot changes no attribute of any address; in the other case the count of
the file is raised and no record holds the new reference.
-/

namespace AxonOS.Vma

open Lib List Option UserVma

/-- One iteration of the loop of `user_vma_set_prot`. -/
def UserVma.setProtIn (tid addr fin prot : Nat) (v : UserVma) : UserVma :=
  if v.used && v.tid == tid && !(decide (v.vend ≤ addr) || decide (fin ≤ v.addr)) then
    { v with prot := prot }
  else v

def userVmaSetProt (w : VmaState) (tid addr len prot : Nat) : Int × VmaState :=
  let fin := (addr + len) % 2 ^ 64
  match userVmaSplitAtNolock tid addr ⟨w.global, w.fileRefs⟩ with
  | (0, s1) =>
    match userVmaSplitAtNolock tid fin s1 with
    | (0, s2) => (0, w.withGlobal ⟨s2.vmas.map (UserVma.setProtIn tid addr fin prot), s2.refs⟩)
    | (_, s2) => (-1, w.withGlobal s2)
  | (_, s1) => (-1, w.withGlobal s1)

/-! ## Records of a thread -/

/-- The record is one of the thread's and contains `va`. -/
def UserVma.holdsAddr (tid va : Nat) (v : UserVma) : Bool :=
  v.used && v.tid == tid && decide (v.addr ≤ va) && decide (va < v.vend)

variable {va tid i k addr prot : Nat} {v u : UserVma} {t : List UserVma} {s : Slots}

theorem holdsAddr_iff :
    v.holdsAddr tid va = true ↔ v.used = true ∧ v.tid = tid ∧ v.addr ≤ va ∧ va < v.vend := by
  simp [UserVma.holdsAddr, and_assoc]

/-- The fields that hold an address or a length are 64-bit. -/
def Words (t : List UserVma) : Prop := ∀ v ∈ t, v.addr < 2 ^ 64 ∧ v.len < 2 ^ 64

/-- No address is in two records of the thread. -/
def DisjointFor (tid : Nat) (t : List UserVma) : Prop :=
  t.Pairwise fun v u => ∀ va, ¬ (v.holdsAddr tid va = true ∧ u.holdsAddr tid va = true)

theorem disjointFor_iff_count (tid : Nat) (t : List UserVma) :
    DisjointFor tid t ↔ ∀ va, t.countP (UserVma.holdsAddr tid va) ≤ 1 := by
  induction t with
  | nil => simp [DisjointFor]
  | cons v t ih =>
    have hcons : DisjointFor tid (v :: t) ↔ (∀ u ∈ t, ∀ va,
        ¬ (v.holdsAddr tid va = true ∧ u.holdsAddr tid va = true)) ∧ DisjointFor tid t :=
      pairwise_cons
    rw [hcons, ih]
    constructor
    · rintro ⟨hv, ht⟩ va
      rw [countP_cons_toNat]
      cases h : v.holdsAddr tid va with
      | false =>
        rw [Bool.toNat_false, Nat.zero_add]
        exact ht va
      | true =>
        have hzero : t.countP (UserVma.holdsAddr tid va) = 0 :=
          countP_eq_zero.mpr fun u hu hh => hv u hu va ⟨h, hh⟩
        rw [hzero, Bool.toNat_true]
    · intro hall
      refine ⟨?_, fun va => ?_⟩
      · rintro u hu va ⟨h1, h2⟩
        have hle := hall va
        have hpos : 0 < t.countP (UserVma.holdsAddr tid va) :=
          countP_pos_iff.mpr ⟨u, hu, h2⟩
        rw [countP_cons_toNat, h1, Bool.toNat_true] at hle
        omega
      · have hle := hall va
        rw [countP_cons_toNat] at hle
        omega

/-- The slot of the record that contains an address is determined. -/
theorem DisjointFor.slot_eq (h : DisjointFor tid t) (hi : t[i]? = some v) (hk : t[k]? = some u)
    (hv : v.holdsAddr tid va = true) (hu : u.holdsAddr tid va = true) : i = k := by
  have hpair := pairwise_iff_getElem.mp h
  obtain ⟨hil, rfl⟩ := List.getElem?_eq_some_iff.mp hi
  obtain ⟨hkl, rfl⟩ := List.getElem?_eq_some_iff.mp hk
  rcases Nat.lt_trichotomy i k with hlt | heq | hgt
  · exact absurd ⟨hv, hu⟩ (hpair i k hil hkl hlt va)
  · exact heq
  · exact absurd ⟨hu, hv⟩ (hpair k i hkl hil hgt va)

/-- A record that contains an address ends where its length says. -/
theorem vend_of_holdsAddr (hw : v.addr < 2 ^ 64 ∧ v.len < 2 ^ 64) (h : v.holdsAddr tid va = true) :
    v.vend = v.addr + v.len ∧ v.addr + v.len < 2 ^ 64 := by
  obtain ⟨-, -, h1, h2⟩ := holdsAddr_iff.mp h
  unfold vend at h2 ⊢
  omega

/-! ## One split -/

/-- The left half of a split record, which stays in its slot. -/
def UserVma.shortened (sp : Nat) (v : UserVma) : UserVma := { v with len := sp - v.addr }

/-- The right half of a split record as `user_vma_add_nolock` writes it. -/
def UserVma.bareRight (sp : Nat) (v : UserVma) : UserVma :=
  ⟨true, v.tid, sp, v.len - (sp - v.addr), v.prot, v.kind, none, 0⟩

/-- The record with the file and the offset of the right half. -/
def UserVma.withRightFile (sp : Nat) (v u : UserVma) : UserVma :=
  { u with file := v.file, fileOff := (v.fileOff + (sp - v.addr)) % 2 ^ 64 }

/-- The right half with the file of the record, if there is one. -/
def UserVma.filedRight (sp : Nat) (v : UserVma) : UserVma :=
  if v.file.isSome then v.withRightFile sp (v.bareRight sp) else v.bareRight sp

/-- The record in slot `i` is the first one that contains `sp`, and `sp` is inside it. -/
structure Straddles (tid sp i : Nat) (v : UserVma) (t : List UserVma) : Prop where
  record : t[i]? = some v
  found : userVmaFindContainingNolock tid sp t = some i
  holds : v.holdsAddr tid sp = true
  inside : v.addr < sp
  below : sp < v.addr + v.len
  noWrap : v.addr + v.len < 2 ^ 64

/-- The record in slot `i` is divided at `sp`, and `j` is the slot for its right half. -/
structure Divides (tid sp i j : Nat) (v : UserVma) (t : List UserVma) : Prop
    extends Straddles tid sp i v t where
  free : freeSlot t = some j

section Split

variable {tid sp i j : Nat} {v : UserVma} {t : List UserVma}

theorem findContaining_some (h : userVmaFindContainingNolock tid va t = some i) :
    ∃ v, t[i]? = some v ∧ v.holdsAddr tid va = true
      ∧ ∀ (k : Nat) (u : UserVma), k < i → t[k]? = some u → u.holdsAddr tid va = false := by
  obtain ⟨hlt, hp, hmin⟩ := findIdx?_eq_some_iff_getElem.mp h
  refine ⟨t[i], getElem?_eq_getElem hlt, hp, ?_⟩
  intro k u hk hu
  obtain ⟨hkl, rfl⟩ := List.getElem?_eq_some_iff.mp hu
  exact Bool.eq_false_iff.mpr (hmin k hk)

theorem findContaining_eq (hi : t[i]? = some u) (hu : u.holdsAddr tid va = true)
    (hmin : ∀ (k : Nat) (x : UserVma), k < i → t[k]? = some x → x.holdsAddr tid va = false) :
    userVmaFindContainingNolock tid va t = some i := by
  obtain ⟨hlt, rfl⟩ := List.getElem?_eq_some_iff.mp hi
  refine findIdx?_eq_some_iff_getElem.mpr ⟨hlt, hu, ?_⟩
  intro k hk
  have := hmin k _ hk (getElem?_eq_getElem (Nat.lt_trans hk hlt))
  exact Bool.eq_false_iff.mp this

theorem Straddles.tid_eq (h : Straddles tid sp i v t) : v.tid = tid :=
  (holdsAddr_iff.mp h.holds).2.1

theorem Straddles.proper (h : Straddles tid sp i v t) : ¬ (sp = v.addr ∨ v.vend ≤ sp) := by
  have := h.inside
  have := (holdsAddr_iff.mp h.holds).2.2.2
  omega

theorem Divides.free_slot (h : Divides tid sp i j v t) :
    ∃ u, t[j]? = some u ∧ u.used = false := freeSlot_some h.free

theorem Divides.ne (h : Divides tid sp i j v t) : i ≠ j := by
  rintro rfl
  obtain ⟨u, hu, hun⟩ := h.free_slot
  have hu := mem_unique h.record hu
  have hused := (holdsAddr_iff.mp h.holds).1
  rw [hu, hun] at hused
  cases hused

theorem bareRight_holdsAddr (h : Straddles tid sp i v t) :
    (v.bareRight sp).holdsAddr tid va = true ↔ sp ≤ va ∧ va < v.addr + v.len := by
  have hin := h.inside
  have hbelow := h.below
  have hend : (v.bareRight sp).vend = v.addr + v.len := by
    have := h.noWrap
    unfold vend bareRight
    dsimp only
    omega
  rw [holdsAddr_iff, hend]
  exact ⟨fun hh => hh.2.2, fun hh => ⟨rfl, h.tid_eq, hh⟩⟩

/-- No record equals the right half: it would share the split address with the old record. -/
theorem no_equal_right (h : Straddles tid sp i v t) (hd : DisjointFor tid t) :
    (t.findIdx? fun u => u.used && u.tid == tid && u.addr == sp
      && u.len == v.len - (sp - v.addr) && u.kind == v.kind) = none := by
  have hin := h.inside
  have hbelow := h.below
  have hwrap := h.noWrap
  refine findIdx?_eq_none_iff.mpr ?_
  intro u hu
  by_contra hex
  obtain ⟨k, hk⟩ := mem_iff_getElem?.mp hu
  simp only [Bool.not_eq_false, Bool.and_eq_true, beq_iff_eq] at hex
  obtain ⟨⟨⟨⟨hused, htid⟩, haddr⟩, hlen⟩, -⟩ := hex
  have hholds : u.holdsAddr tid sp = true := by
    refine holdsAddr_iff.mpr ⟨hused, htid, Nat.le_of_eq haddr, ?_⟩
    unfold vend
    omega
  have hik := hd.slot_eq h.record hk h.holds hholds
  subst hik
  have hk := mem_unique h.record hk
  rw [hk, haddr] at hin
  exact Nat.lt_irrefl _ hin

/-- So the right half goes to the free slot. -/
theorem addNolock_right (h : Divides tid sp i j v t) (hd : DisjointFor tid t) :
    userVmaAddNolock tid sp (v.len - (sp - v.addr)) v.prot v.kind t
    = (0, t.set j (v.bareRight sp)) := by
  unfold userVmaAddNolock
  rw [no_equal_right h.toStraddles hd, h.free]
  unfold bareRight
  rw [h.tid_eq]

theorem addNolock_full (h : Straddles tid sp i v t) (hd : DisjointFor tid t)
    (hfull : freeSlot t = none) :
    userVmaAddNolock tid sp (v.len - (sp - v.addr)) v.prot v.kind t = (-1, t) := by
  unfold userVmaAddNolock
  rw [no_equal_right h hd, hfull]

/-- The second lookup finds the right half or the old record, whichever has the lower slot. -/
theorem findContaining_right (h : Divides tid sp i j v t) :
    userVmaFindContainingNolock tid sp (t.set j (v.bareRight sp)) = some (min i j) := by
  obtain ⟨u, hu, -⟩ := h.free_slot
  obtain ⟨v', hv', -, hmin⟩ := findContaining_some h.found
  have hne := h.ne
  rcases Nat.lt_or_gt_of_ne hne with hlt | hgt
  · rw [Nat.min_eq_left (Nat.le_of_lt hlt)]
    refine findContaining_eq ?_ h.holds ?_
    · rw [getElem?_set_ne hne.symm]
      exact h.record
    · intro k x hk hx
      rw [getElem?_set_ne (by omega)] at hx
      exact hmin k x hk hx
  · rw [Nat.min_eq_right (Nat.le_of_lt hgt)]
    refine findContaining_eq (getElem?_set_eq hu _) ?_ ?_
    · exact (bareRight_holdsAddr h.toStraddles).mpr ⟨Nat.le_refl _, h.below⟩
    · intro k x hk hx
      rw [getElem?_set_ne (by omega)] at hx
      exact hmin k x (by omega) hx

/-- A record without a file is divided correctly. -/
theorem splitAt_noFile (h : Divides tid sp i j v s.vmas) (hd : DisjointFor tid s.vmas)
    (hf : v.file = none) :
    userVmaSplitAtNolock tid sp s
      = (0, ⟨(s.vmas.set j (v.bareRight sp)).set i (v.shortened sp), s.refs⟩) := by
  have hrec : (s.vmas.set j (v.bareRight sp)).getD i default = v :=
    getD_of_getElem? (by rw [getElem?_set_ne h.ne.symm]; exact h.record)
  unfold userVmaSplitAtNolock
  rw [h.found]
  dsimp only
  rw [getD_of_getElem? h.record, if_neg h.proper, addNolock_right h hd]
  simp only [findContaining_right h, hf, hrec, shortened]

section

variable {s : Slots} {f : FileId} (h : Divides tid sp i j v s.vmas) (hd : DisjointFor tid s.vmas)
    (hf : v.file = some f)

include h hd hf

/-- With the right half in the lower slot, the second lookup finds it. -/
theorem splitAt_lower (hji : j < i) : userVmaSplitAtNolock tid sp s
      = (0, ⟨(s.vmas.set j (v.withRightFile sp (v.bareRight sp))).set i (v.shortened sp),
          fsFileGet s.refs (some f)⟩) := by
  obtain ⟨u, hu, -⟩ := h.free_slot
  have hright : (s.vmas.set j (v.bareRight sp)).getD j default = v.bareRight sp :=
    getD_of_getElem? (getElem?_set_eq hu _)
  have hrec : ∀ r, (s.vmas.set j r).getD i default = v := fun r =>
    getD_of_getElem? (by rw [getElem?_set_ne h.ne.symm]; exact h.record)
  unfold userVmaSplitAtNolock
  rw [h.found]
  dsimp only
  rw [getD_of_getElem? h.record, if_neg h.proper, addNolock_right h hd]
  simp only [findContaining_right h, Nat.min_eq_right (Nat.le_of_lt hji), hf, hright, set_set,
    hrec, withRightFile, shortened]

/-- With the right half in the higher slot, the second lookup finds the old record. -/
theorem splitAt_higher (hij : i < j) : userVmaSplitAtNolock tid sp s
      = (0, ⟨(s.vmas.set j (v.bareRight sp)).set i (v.withRightFile sp (v.shortened sp)),
          fsFileGet s.refs (some f)⟩) := by
  have hget : (s.vmas.set j (v.bareRight sp))[i]? = some v := by
    rw [getElem?_set_ne h.ne.symm]
    exact h.record
  have hrec : ∀ a, ((s.vmas.set j (v.bareRight sp)).set i a).getD i default = a := fun a =>
    getD_of_getElem? (getElem?_set_eq hget a)
  unfold userVmaSplitAtNolock
  rw [h.found]
  dsimp only
  rw [getD_of_getElem? h.record, if_neg h.proper, addNolock_right h hd]
  simp only [findContaining_right h, Nat.min_eq_left (Nat.le_of_lt hij), hf, getD_of_getElem? hget,
    hrec, set_set, withRightFile, shortened]

end

end Split

/-- **What one split does.** Either there is nothing to divide, or no slot is free, or a record is
divided. Then the halves are right if it has no file or the free slot `j` comes before its own slot
`i`; otherwise the left half gets the offset of the right half, and the right half no file. -/
theorem splitAt_cases (tid sp : Nat) (hw : Words s.vmas) (hd : DisjointFor tid s.vmas) :
    (userVmaSplitAtNolock tid sp s = (0, s) ∧ ∀ v ∈ s.vmas, v.holdsAddr tid sp = true → v.addr = sp)
    ∨ userVmaSplitAtNolock tid sp s = (-1, s)
        ∨ (∃ i j v, Divides tid sp i j v s.vmas ∧ (v.file = none ∨ j < i)
        ∧ userVmaSplitAtNolock tid sp s
          = (0, ⟨(s.vmas.set j (v.filedRight sp)).set i (v.shortened sp), fsFileGet s.refs v.file⟩))
    ∨ (∃ i j v, Divides tid sp i j v s.vmas ∧ v.file ≠ none ∧ i < j ∧ userVmaSplitAtNolock tid sp s
          = (0, ⟨(s.vmas.set j (v.bareRight sp)).set i (v.withRightFile sp (v.shortened sp)),
              fsFileGet s.refs v.file⟩)) := by
  cases hfind : userVmaFindContainingNolock tid sp s.vmas with
  | none =>
    refine .inl ⟨?_, ?_⟩
    · unfold userVmaSplitAtNolock
      rw [hfind]
    · intro v hv hh
      have hnone : v.holdsAddr tid sp = false := findIdx?_eq_none_iff.mp hfind v hv
      rw [hnone] at hh
      cases hh
  | some i =>
    obtain ⟨v, hi, hholds, hmin⟩ := findContaining_some hfind
    have hgetD : s.vmas.getD i default = v := getD_of_getElem? hi
    obtain ⟨hused, htid, hle, hlt⟩ := holdsAddr_iff.mp hholds
    obtain ⟨hend, hwrap⟩ := vend_of_holdsAddr (hw v (mem_of_getElem? hi)) hholds
    by_cases hat : sp = v.addr
    · refine .inl ⟨?_, ?_⟩
      · unfold userVmaSplitAtNolock
        rw [hfind]
        dsimp only
        rw [hgetD, if_pos (.inl hat)]
      · intro u hu hh
        obtain ⟨k, hk⟩ := mem_iff_getElem?.mp hu
        have hik := hd.slot_eq hi hk hholds hh
        subst hik
        have hk := mem_unique hi hk
        rw [← hk, hat]
    · refine .inr ?_
      have hst : Straddles tid sp i v s.vmas := ⟨hi, hfind, hholds, by omega, by omega, hwrap⟩
      cases hfree : freeSlot s.vmas with
      | none =>
        refine .inl ?_
        unfold userVmaSplitAtNolock
        rw [hfind]
        dsimp only
        rw [hgetD, if_neg hst.proper, addNolock_full hst hd hfree]
        rfl
      | some j =>
        have hdiv : Divides tid sp i j v s.vmas := ⟨hst, hfree⟩
        refine .inr ?_
        cases hf : v.file with
        | none =>
          refine .inl ⟨i, j, v, hdiv, .inl hf, ?_⟩
          rw [splitAt_noFile hdiv hd hf, filedRight, hf]
          rfl
        | some f =>
          rcases Nat.lt_or_gt_of_ne hdiv.ne with hij | hji
          · refine .inr ⟨i, j, v, hdiv, by rw [hf]; simp, hij, ?_⟩
            rw [splitAt_higher hdiv hd hf hij, hf]
          · refine .inl ⟨i, j, v, hdiv, .inr hji, ?_⟩
            rw [splitAt_lower hdiv hd hf hji, filedRight, hf]
            rfl

/-! ## What a split keeps -/

/-- The records occupy the same addresses of the same thread. -/
structure SameRange (v u : UserVma) : Prop where
  used : v.used = u.used
  tid : v.tid = u.tid
  addr : v.addr = u.addr
  len : v.len = u.len

theorem SameRange.holdsAddr (h : SameRange v u) (tid va : Nat) :
    v.holdsAddr tid va = u.holdsAddr tid va := by
  unfold UserVma.holdsAddr vend
  rw [h.used, h.tid, h.addr, h.len]

theorem sameRange_refl (v : UserVma) : SameRange v v := ⟨rfl, rfl, rfl, rfl⟩

theorem sameRange_withRightFile (sp : Nat) (v u : UserVma) : SameRange (v.withRightFile sp u) u :=
  ⟨rfl, rfl, rfl, rfl⟩

theorem sameRange_filedRight (sp : Nat) (v : UserVma) :
    SameRange (v.filedRight sp) (v.bareRight sp) := by
  unfold filedRight
  split
  · exact sameRange_withRightFile sp v _
  · exact sameRange_refl _

/-- No record of the thread has the address inside. -/
def NoStraddle (tid x : Nat) (t : List UserVma) : Prop :=
  ∀ v ∈ t, v.holdsAddr tid x = true → v.addr = x

section Halves

variable {tid sp i j : Nat} {v l r : UserVma} {t : List UserVma}

theorem shortened_holdsAddr (h : Straddles tid sp i v t) :
    (v.shortened sp).holdsAddr tid va = true ↔ v.addr ≤ va ∧ va < sp := by
  have hin := h.inside
  have hend : (v.shortened sp).vend = sp := by
    have := h.noWrap
    have := h.below
    unfold vend shortened
    dsimp only
    omega
  rw [holdsAddr_iff, hend]
  exact ⟨fun hh => hh.2.2, fun hh => ⟨(holdsAddr_iff.mp h.holds).1, h.tid_eq, hh⟩⟩

theorem straddled_holdsAddr (h : Straddles tid sp i v t) (va : Nat) :
    v.holdsAddr tid va = true ↔ v.addr ≤ va ∧ va < v.addr + v.len := by
  have hend : v.vend = v.addr + v.len := Nat.mod_eq_of_lt h.noWrap
  rw [holdsAddr_iff, hend]
  exact ⟨fun hh => hh.2.2, fun hh => ⟨(holdsAddr_iff.mp h.holds).1, h.tid_eq, hh⟩⟩

/-- Every address of the record is in exactly one half. -/
theorem halves_toNat (h : Straddles tid sp i v t) (va : Nat) : (v.holdsAddr tid va).toNat
      = ((v.shortened sp).holdsAddr tid va).toNat + ((v.bareRight sp).holdsAddr tid va).toNat := by
  have hin := h.inside
  have hbelow := h.below
  by_cases hlt : va < sp
  · have hr : (v.bareRight sp).holdsAddr tid va = false := by
      rw [Bool.eq_false_iff, ne_eq, bareRight_holdsAddr h]
      omega
    have hl : v.holdsAddr tid va = (v.shortened sp).holdsAddr tid va := by
      rw [Bool.eq_iff_iff, straddled_holdsAddr h, shortened_holdsAddr h]
      omega
    rw [hl, hr, Bool.toNat_false, Nat.add_zero]
  · have hl : (v.shortened sp).holdsAddr tid va = false := by
      rw [Bool.eq_false_iff, ne_eq, shortened_holdsAddr h]
      omega
    have hr : v.holdsAddr tid va = (v.bareRight sp).holdsAddr tid va := by
      rw [Bool.eq_iff_iff, straddled_holdsAddr h, bareRight_holdsAddr h]
      omega
    rw [hl, hr, Bool.toNat_false, Nat.zero_add]

theorem mem_divided (hu : u ∈ (t.set j r).set i l) : u = l ∨ u = r ∨ u ∈ t := by
  rcases mem_or_eq_of_mem_set hu with h1 | h1
  · rcases mem_or_eq_of_mem_set h1 with h2 | h2
    · exact .inr (.inr h2)
    · exact .inr (.inl h2)
  · exact .inl h1

section

variable (h : Divides tid sp i j v t) (hl : SameRange l (v.shortened sp))
    (hr : SameRange r (v.bareRight sp))

include h hl hr

theorem divided_disjoint (hd : DisjointFor tid t) : DisjointFor tid ((t.set j r).set i l) := by
  rw [disjointFor_iff_count] at hd ⊢
  intro va
  obtain ⟨u, hu, hun⟩ := h.free_slot
  have hcount := countP_split l r h.record hu h.ne (UserVma.holdsAddr tid va)
  have hfree : u.holdsAddr tid va = false := by
    unfold UserVma.holdsAddr
    rw [hun]
    rfl
  have hparts := halves_toNat h.toStraddles va
  rw [hl.holdsAddr, hr.holdsAddr, hfree] at hcount
  have := hd va
  omega

theorem divided_words (hw : Words t) : Words ((t.set j r).set i l) := by
  have hwrap := h.noWrap
  have hbelow := h.below
  intro u hu
  rcases mem_divided hu with rfl | rfl | hmem
  · rw [hl.addr, hl.len]
    unfold shortened
    dsimp only
    omega
  · rw [hr.addr, hr.len]
    unfold bareRight
    dsimp only
    omega
  · exact hw u hmem

/-- After the split no record has the split address inside. -/
theorem divided_noStraddle (hd : DisjointFor tid t) : NoStraddle tid sp ((t.set j r).set i l) := by
  intro u hu hh
  obtain ⟨k, hk⟩ := mem_iff_getElem?.mp hu
  obtain ⟨x, hx, -⟩ := h.free_slot
  have hir : ((t.set j r).set i l)[j]? = some r := by
    rw [getElem?_set_ne h.ne]
    exact getElem?_set_eq hx r
  -- the right half contains the address, and no second record does
  have hrh : r.holdsAddr tid sp = true := by
    rw [hr.holdsAddr]
    exact (bareRight_holdsAddr h.toStraddles).mpr ⟨Nat.le_refl _, h.below⟩
  have hjk := (divided_disjoint h hl hr hd).slot_eq hir hk hrh hh
  subst hjk
  have hk := mem_unique hir hk
  rw [← hk, hr.addr]
  rfl

/-- A split makes no other address straddled. -/
theorem divided_noStraddle_other {x : Nat} (hx : NoStraddle tid x t) (hle : x ≤ sp) :
    NoStraddle tid x ((t.set j r).set i l) := by
  have hv := hx v (mem_of_getElem? h.record)
  rw [straddled_holdsAddr h.toStraddles] at hv
  have hin := h.inside
  have hbelow := h.below
  intro u hu hh
  rcases mem_divided hu with rfl | rfl | hmem
  · rw [hl.holdsAddr, shortened_holdsAddr h.toStraddles] at hh
    rw [hl.addr]
    exact hv ⟨hh.1, by omega⟩
  · rw [hr.holdsAddr, bareRight_holdsAddr h.toStraddles] at hh
    omega
  · exact hx u hmem hh

end

/-- With the file in both halves, every address keeps its attributes. -/
theorem divided_attrs (h : Divides tid sp i j v t) (va : Nat) (a : VmaAttr) :
    (∃ u ∈ (t.set j (v.filedRight sp)).set i (v.shortened sp), u.holdsAddr tid va = true
      ∧ u.attrAt va = a)
      ↔ ∃ u ∈ t, u.holdsAddr tid va = true ∧ u.attrAt va = a := by
  obtain ⟨x, hx, hxn⟩ := h.free_slot
  refine exists_mem_split h.record hx h.ne ?_ ?_
  · rintro ⟨hh, -⟩
    rw [(holdsAddr_iff.mp hh).1] at hxn
    cases hxn
  have hin := h.inside
  have hbelow := h.below
  have hleft : (v.shortened sp).attrAt va = v.attrAt va := rfl
  have hright : sp ≤ va → (v.filedRight sp).attrAt va = v.attrAt va := by
    intro hva
    rw [← rightOf_attrAt (Nat.le_of_lt hin) hva]
    unfold filedRight attrAt rightOf
    cases hf : v.file with
    | none => simp [bareRight]
    | some f => simp [bareRight, withRightFile, hf]
  rw [hleft, (sameRange_filedRight sp v).holdsAddr, straddled_holdsAddr h.toStraddles,
    shortened_holdsAddr h.toStraddles, bareRight_holdsAddr h.toStraddles]
  constructor
  · rintro ⟨⟨h1, h2⟩, ha⟩
    by_cases hlt : va < sp
    · exact .inl ⟨⟨h1, hlt⟩, ha⟩
    · have hge : sp ≤ va := Nat.le_of_not_lt hlt
      exact .inr ⟨⟨hge, h2⟩, by rw [hright hge]; exact ha⟩
  · rintro (⟨⟨h1, h2⟩, ha⟩ | ⟨⟨h1, h2⟩, ha⟩)
    · exact ⟨⟨h1, by omega⟩, ha⟩
    · rw [hright h1] at ha
      exact ⟨⟨by omega, h2⟩, ha⟩

/-- The number of records with the file after a split. -/
theorem divided_holders (l r : UserVma) (h : Divides tid sp i j v t)
    (hl : l.used = v.used ∧ l.file = v.file) (hr : r.used = true) (f : FileId) :
    holders f ((t.set j r).set i l) = holders f t + (r.file == some f).toNat := by
  obtain ⟨x, hx, hxn⟩ := h.free_slot
  have hcount := countP_split l r h.record hx h.ne fun u => u.used && u.file == some f
  rw [hl.1, hl.2, hr, hxn, Bool.true_and, Bool.false_and, Bool.toNat_false] at hcount
  unfold holders
  omega

end Halves

/-- Where a record with a file has to be divided, the free slot comes before its own. -/
def SplitPlaced (tid sp : Nat) (t : List UserVma) : Prop :=
  ∀ i j v, Divides tid sp i j v t → v.file = none ∨ j < i

/-- Where a record with a file has to be divided at `fin` once the split at `addr` is made, that
split has not divided it already and leaves a free slot before its own. -/
def SplitPlacedNext (tid addr fin : Nat) (t : List UserVma) : Prop :=
  addr < fin → ∀ i v, Straddles tid fin i v t → v.file = none
    ∨ addr ≤ v.addr ∧ ∃ m < i, (∃ x, t[m]? = some x ∧ x.used = false) ∧ ∀ k u,
    ¬ Divides tid addr k m u t

/-- The references to the file that no record of the table holds. -/
def surplus (f : FileId) (s : Slots) : Int := s.refs f - holders f s.vmas

/-- What a successful split does to the records of the thread. -/
structure SplitAtRel (tid sp : Nat) (s s' : Slots) : Prop where
  words : Words s'.vmas
  disjoint : DisjointFor tid s'.vmas
  noStraddle : NoStraddle tid sp s'.vmas
  noStraddleBelow : ∀ x, x ≤ sp → NoStraddle tid x s.vmas → NoStraddle tid x s'.vmas
  surplus_le : ∀ f, surplus f s ≤ surplus f s'
  placed : SplitPlaced tid sp s.vmas → (∀ f, surplus f s' = surplus f s)
    ∧ ∀ va a, (∃ u ∈ s'.vmas, u.holdsAddr tid va = true ∧ u.attrAt va = a)
      ↔ ∃ u ∈ s.vmas, u.holdsAddr tid va = true ∧ u.attrAt va = a
  misplaced : ¬ SplitPlaced tid sp s.vmas → ∃ f, surplus f s < surplus f s'

section Split

variable {tid sp j : Nat} {s : Slots}

theorem divides_unique {m : Nat} (h : Divides tid sp i j v t) (h' : Divides tid sp k m u t) :
    i = k ∧ j = m ∧ v = u := by
  have hik : i = k := some.inj (h.found.symm.trans h'.found)
  subst hik
  refine ⟨rfl, some.inj (h.free.symm.trans h'.free), ?_⟩
  exact some.inj (h.record.symm.trans h'.record)

theorem filedRight_file (sp : Nat) (v : UserVma) : (v.filedRight sp).file = v.file := by
  unfold filedRight
  cases hf : v.file with
  | none => rfl
  | some f => exact hf

theorem freeSlot_le {m : Nat} (h : freeSlot t = some j) (hm : t[m]? = some u)
    (hun : u.used = false) : j ≤ m := by
  obtain ⟨_, -, hmin⟩ := findIdx?_eq_some_iff_getElem.mp h
  obtain ⟨hlt, rfl⟩ := List.getElem?_eq_some_iff.mp hm
  by_contra hjm
  exact hmin m (by omega) (by simp [hun])

section

variable (hw : Words s.vmas) (hd : DisjointFor tid s.vmas)

include hw hd

theorem splitAtRel_same (hno : NoStraddle tid sp s.vmas) : SplitAtRel tid sp s s where
  words := hw
  disjoint := hd
  noStraddle := hno
  noStraddleBelow _ _ h := h
  surplus_le _ := Int.le_refl _
  placed _ := ⟨fun _ => rfl, fun _ _ => Iff.rfl⟩
  misplaced h := by
    refine absurd ?_ h
    intro i j v hdiv
    have := hno v (mem_of_getElem? hdiv.record) hdiv.holds
    have := hdiv.inside
    omega

/-- The right half received the file. -/
theorem splitAtRel_placed (h : Divides tid sp i j v s.vmas) (hp : v.file = none ∨ j < i) :
      SplitAtRel tid sp s
      ⟨(s.vmas.set j (v.filedRight sp)).set i (v.shortened sp), fsFileGet s.refs v.file⟩ := by
  have hl := sameRange_refl (v.shortened sp)
  have hr := sameRange_filedRight sp v
  have hfile := filedRight_file sp v
  have hsurplus : ∀ f, surplus f
      ⟨(s.vmas.set j (v.filedRight sp)).set i (v.shortened sp), fsFileGet s.refs v.file⟩
      = surplus f s := by
    intro f
    unfold surplus
    dsimp only
    rw [fsFileGet_apply, divided_holders (v.shortened sp) (v.filedRight sp) h
      ⟨rfl, rfl⟩ hr.used f, hfile]
    push_cast
    omega
  refine ⟨divided_words h hl hr hw, divided_disjoint h hl hr hd, divided_noStraddle h hl hr hd,
    fun x hx hno => divided_noStraddle_other h hl hr hno hx, fun f =>
    Int.le_of_eq (hsurplus f).symm, fun _ => ⟨hsurplus, divided_attrs h⟩,
    fun hnot => absurd ?_ hnot⟩
  intro k m u hdiv
  obtain ⟨rfl, rfl, rfl⟩ := divides_unique h hdiv
  exact hp

/-- The old record received the offset of the right half, and a reference that no record holds. -/
theorem splitAtRel_misplaced (h : Divides tid sp i j v s.vmas) (hf : v.file ≠ none) (hij : i < j) :
      SplitAtRel tid sp s
      ⟨(s.vmas.set j (v.bareRight sp)).set i (v.withRightFile sp (v.shortened sp)),
        fsFileGet s.refs v.file⟩ := by
  have hl := sameRange_withRightFile sp v (v.shortened sp)
  have hr := sameRange_refl (v.bareRight sp)
  have hsurplus :
        ∀ f, surplus f ⟨(s.vmas.set j (v.bareRight sp)).set i (v.withRightFile sp (v.shortened sp)),
        fsFileGet s.refs v.file⟩ = surplus f s + ((v.file == some f).toNat : Int) := by
    intro f
    unfold surplus
    dsimp only
    rw [fsFileGet_apply, divided_holders (v.withRightFile sp (v.shortened sp)) (v.bareRight sp) h
      ⟨rfl, rfl⟩ rfl f, show ((v.bareRight sp).file == some f) = false from rfl,
      Bool.toNat_false, Nat.add_zero]
    omega
  refine ⟨divided_words h hl hr hw, divided_disjoint h hl hr hd, divided_noStraddle h hl hr hd,
    fun x hx hno => divided_noStraddle_other h hl hr hno hx, fun f => ?_, fun hp => ?_, fun _ => ?_⟩
  · rw [hsurplus f]
    omega
  · rcases hp i j v h with hnone | hji
    · exact absurd hnone hf
    · omega
  · obtain ⟨f, hfile⟩ := ne_none_iff_exists'.mp hf
    refine ⟨f, ?_⟩
    rw [hsurplus f, hfile, beq_self_eq_true, Bool.toNat_true]
    omega

theorem splitAt_rel {s' : Slots} (hrun : userVmaSplitAtNolock tid sp s = (0, s')) :
    SplitAtRel tid sp s s' := by
  rcases splitAt_cases tid sp hw hd with ⟨he, hno⟩ | he | ⟨i, j, v, h, hp, he⟩
      | ⟨i, j, v, h, hf, hij, he⟩
  all_goals cases he.symm.trans hrun
  · exact splitAtRel_same hw hd hno
  · exact splitAtRel_placed hw hd h hp
  · exact splitAtRel_misplaced hw hd h hf hij

/-- A split that can be made is placed right if some free slot comes before the slot of the
record. -/
theorem splitPlaced_iff {s' : Slots} (hrun : userVmaSplitAtNolock tid sp s = (0, s')) :
    SplitPlaced tid sp s.vmas ↔ ∀ i v, Straddles tid sp i v s.vmas → v.file = none
      ∨ ∃ m < i, ∃ x, s.vmas[m]? = some x ∧ x.used = false := by
  constructor
  · intro hp i v hst
    obtain ⟨j, hfree⟩ : ∃ j, freeSlot s.vmas = some j := by
      rcases splitAt_cases tid sp hw hd with ⟨-, hno⟩ | he | ⟨_, j, _, h, -⟩ | ⟨_, j, _, h, -⟩
      · exact absurd (hno v (mem_of_getElem? hst.record) hst.holds) hst.inside.ne
      · cases he.symm.trans hrun
      · exact ⟨j, h.free⟩
      · exact ⟨j, h.free⟩
    rcases hp i j v ⟨hst, hfree⟩ with hfile | hji
    · exact .inl hfile
    · exact .inr ⟨j, hji, freeSlot_some hfree⟩
  · intro h i j v hdiv
    refine (h i v hdiv.toStraddles).imp id ?_
    rintro ⟨m, hmi, x, hx, hfree⟩
    exact Nat.lt_of_le_of_lt (freeSlot_le hdiv.free hx hfree) hmi

end

/-- With disjoint records the one that contains an address is the first that does. -/
theorem straddles_of_record (hd : DisjointFor tid t) (hi : t[i]? = some v)
    (hh : v.holdsAddr tid sp = true) (hin : v.addr < sp) (hw : v.addr + v.len < 2 ^ 64) :
    Straddles tid sp i v t where
  record := hi
  found := by
    refine findContaining_eq hi hh fun k x hk hx => ?_
    by_contra hhx
    exact absurd (hd.slot_eq hx hi (Bool.eq_true_of_not_eq_false hhx) hh) (Nat.ne_of_lt hk)
  holds := hh
  inside := hin
  below := by
    have := (holdsAddr_iff.mp hh).2.2.2
    rwa [vend, Nat.mod_eq_of_lt hw] at this
  noWrap := hw

section Next

variable {addr fin : Nat}

/-- The slots of a divided table: the two halves, and the old records elsewhere. -/
theorem divided_getElem? (h : Divides tid addr k j u t) (l r : UserVma) (i : Nat) :
      ((t.set j r).set k l)[i]?
      = if i = k then some l else if i = j then some r else t[i]? := by
  obtain ⟨x, hx, -⟩ := h.free_slot
  by_cases hik : i = k
  · rw [if_pos hik, hik, getElem?_set_self (by rw [length_set]; exact lt_of_getElem? h.record)]
  · rw [if_neg hik, getElem?_set_ne (Ne.symm hik)]
    by_cases hij : i = j
    · rw [if_pos hij, hij, getElem?_set_self (lt_of_getElem? hx)]
    · rw [if_neg hij, getElem?_set_ne (Ne.symm hij)]

/-- After a split at `addr` that was placed right, in terms of the table before it. -/
theorem divided_placedNext (h : Divides tid addr k j u t) (hd : DisjointFor tid t)
    (hlt : addr < fin)
    (hd1 : DisjointFor tid ((t.set j (u.filedRight addr)).set k (u.shortened addr))) :
    (∀ i v, Straddles tid fin i v ((t.set j (u.filedRight addr)).set k (u.shortened addr)) →
        v.file = none
        ∨ ∃ m < i, ∃ x, ((t.set j (u.filedRight addr)).set k (u.shortened addr))[m]? = some x
        ∧ x.used = false)
      ↔ SplitPlacedNext tid addr fin t := by
  have hslot := divided_getElem? h (u.shortened addr) (u.filedRight addr)
  have hright : ∀ va, (u.filedRight addr).holdsAddr tid va = true ↔ addr ≤ va
      ∧ va < u.addr + u.len := fun va => by
    rw [(sameRange_filedRight addr u).holdsAddr, bareRight_holdsAddr h.toStraddles]
  have huused : u.used = true := (holdsAddr_iff.mp h.holds).1
  -- the slots that are still free
  have hfree : ∀ m, (∃ x, ((t.set j (u.filedRight addr)).set k (u.shortened addr))[m]? = some x
      ∧ x.used = false)
      ↔ (∃ x, t[m]? = some x ∧ x.used = false) ∧ ∀ k' u', ¬ Divides tid addr k' m u' t := by
    intro m
    rw [hslot]
    constructor
    · rintro ⟨x, hx, hun⟩
      split at hx
      · rw [← some.inj hx] at hun
        exact absurd (huused.symm.trans hun) Bool.true_eq_false.mp
      split at hx
      · rw [← some.inj hx, (sameRange_filedRight addr u).used] at hun
        cases hun
      next hmj =>
        refine ⟨⟨x, hx, hun⟩, fun k' u' h' => hmj ?_⟩
        exact (divides_unique h h').2.1.symm
    · rintro ⟨⟨x, hx, hun⟩, hno⟩
      have hmk : m ≠ k := by
        rintro rfl
        rw [← mem_unique h.record hx, huused] at hun
        cases hun
      have hmj : m ≠ j := by
        rintro rfl
        exact hno k u h
      exact ⟨x, by rw [if_neg hmk, if_neg hmj, hx], hun⟩
  have hrange : (u.filedRight addr).addr = addr ∧ (u.filedRight addr).addr + (u.filedRight addr).len
      = u.addr + u.len := by
    rw [(sameRange_filedRight addr u).addr, (sameRange_filedRight addr u).len]
    have := h.inside
    have := h.below
    unfold bareRight
    dsimp only
    omega
  constructor
  · intro hall _ i v hst
    by_cases hv : v.addr < addr
    · -- the record has been divided already, and its right half is in the first free slot
      have hholds := (straddled_holdsAddr hst addr).mpr ⟨hv.le, by have := hst.below; omega⟩
      obtain rfl := hd.slot_eq hst.record h.record hholds h.holds
      obtain rfl := mem_unique h.record hst.record
      have hst' := straddles_of_record hd1 (by rw [hslot, if_neg h.ne.symm, if_pos rfl])
        ((hright fin).mpr ⟨hlt.le, hst.below⟩) (by rw [hrange.1]; exact hlt)
        (by rw [hrange.2]; exact h.noWrap)
      rcases hall j _ hst' with hfile | ⟨m, hmj, hm⟩
      · rw [filedRight_file] at hfile
        exact .inl hfile
      · obtain ⟨⟨x, hx, hun⟩, -⟩ := (hfree m).mp hm
        have := freeSlot_le h.free hx hun
        omega
    · have hik : i ≠ k := by
        rintro rfl
        rw [mem_unique hst.record h.record] at hv
        exact hv h.inside
      have hij : i ≠ j := by
        rintro rfl
        obtain ⟨x, hx, hun⟩ := h.free_slot
        rw [← mem_unique hst.record hx, (holdsAddr_iff.mp hst.holds).1] at hun
        cases hun
      have hst' := straddles_of_record hd1 (by rw [hslot, if_neg hik, if_neg hij]; exact hst.record)
        hst.holds hst.inside hst.noWrap
      refine (hall i v hst').imp id ?_
      rintro ⟨m, hmi, hm⟩
      exact ⟨Nat.le_of_not_lt hv, m, hmi, (hfree m).mp hm⟩
  · intro hnext i v hst
    have hi := hst.record
    rw [hslot] at hi
    split at hi
    · -- the left half ends at `addr`
      have hholds := hst.holds
      rw [← some.inj hi, shortened_holdsAddr h.toStraddles] at hholds
      omega
    split at hi
    · have hholds := hst.holds
      rw [← some.inj hi, hright] at hholds
      have := h.inside
      have hold := straddles_of_record hd h.record
        ((straddled_holdsAddr h.toStraddles fin).mpr ⟨by omega, hholds.2⟩) (by omega) h.noWrap
      rcases hnext hlt k u hold with hfile | ⟨hge, -⟩
      · rw [← some.inj hi, filedRight_file]
        exact .inl hfile
      · omega
    · refine (hnext hlt i v (straddles_of_record hd hi hst.holds hst.inside hst.noWrap)).imp id ?_
      rintro ⟨-, m, hmi, hm⟩
      exact ⟨m, hmi, (hfree m).mpr hm⟩

/-- **The second split in terms of the table before the call.** -/
theorem splitPlaced_next_iff {s1 s2 : Slots} (hw : Words s.vmas) (hd : DisjointFor tid s.vmas)
    (hle : addr ≤ fin) (h1 : userVmaSplitAtNolock tid addr s = (0, s1))
    (h2 : userVmaSplitAtNolock tid fin s1 = (0, s2)) (hp : SplitPlaced tid addr s.vmas) :
    SplitPlaced tid fin s1.vmas ↔ SplitPlacedNext tid addr fin s.vmas := by
  have rel1 := splitAt_rel hw hd h1
  rcases hle.eq_or_lt with rfl | hlt
  · -- nothing straddles the address any more
    refine iff_of_true (fun i j v hdiv => ?_) fun hlt => absurd hlt (Nat.lt_irrefl _)
    have := rel1.noStraddle v (mem_of_getElem? hdiv.record) hdiv.holds
    exact absurd this hdiv.inside.ne
  rw [splitPlaced_iff rel1.words rel1.disjoint h2]
  rcases splitAt_cases tid addr hw hd with
    ⟨he, hno⟩ | he | ⟨k, j, u, h, -, he⟩ | ⟨k, j, u, h, hf, hkj, he⟩
  all_goals cases he.symm.trans h1
  · refine ⟨fun hall _ i v hst => (hall i v hst).imp id ?_,
      fun hnext i v hst => (hnext hlt i v hst).imp id ?_⟩
    · rintro ⟨m, hmi, hm⟩
      have hge : addr ≤ v.addr := by
        by_contra hv
        have hend := hst.below
        have := hno v (mem_of_getElem? hst.record)
          ((straddled_holdsAddr hst addr).mpr ⟨by omega, by omega⟩)
        omega
      refine ⟨hge, m, hmi, hm, fun k u h => ?_⟩
      exact absurd (hno u (mem_of_getElem? h.record) h.holds) h.inside.ne
    · rintro ⟨-, m, hmi, hm, -⟩
      exact ⟨m, hmi, hm⟩
  · exact divided_placedNext h hd hlt rel1.disjoint
  · rcases hp k j u h with hnone | hjk
    · exact absurd hnone hf
    · omega

end Next

end Split

/-! ## Both splits and the new protection -/

/-- The attributes of an address with the protection changed in `[addr, fin)`. -/
def VmaAttr.protectIn (addr fin prot va : Nat) (a : VmaAttr) : VmaAttr :=
  if addr ≤ va ∧ va < fin then { a with prot := prot } else a

/-- Only the protection has changed, and every record with a file accounts for one reference. -/
structure ProtOnly (tid addr len prot : Nat) (w w' : VmaState) : Prop where
  covered : ∀ v ∈ w.global, ∀ va, v.holdsAddr tid va = true → ∃ v' ∈ w'.global,
      v'.holdsAddr tid va = true
      ∧ v'.attrAt va = (v.attrAt va).protectIn addr (addr + len) prot va
  refs : ∀ f, w'.fileRefs f - w.fileRefs f = (holders f w'.global : Int) - holders f w.global

theorem setProtIn_sameRange (tid addr fin prot : Nat) (v : UserVma) :
    SameRange (v.setProtIn tid addr fin prot) v := by
  unfold setProtIn
  split
  · exact ⟨rfl, rfl, rfl, rfl⟩
  · exact sameRange_refl v

theorem setProtIn_file (tid addr fin prot : Nat) (v : UserVma) :
    (v.setProtIn tid addr fin prot).file = v.file := by
  unfold setProtIn
  split <;> rfl

theorem holders_setProt (tid addr fin prot : Nat) (f : FileId) (t : List UserVma) :
    holders f (t.map (setProtIn tid addr fin prot)) = holders f t := by
  unfold holders
  rw [countP_map]
  refine countP_congr fun v _ => ?_
  simp only [Function.comp_apply, (setProtIn_sameRange tid addr fin prot v).used, setProtIn_file]

/-- The records that the loop changes are those inside the range, once no record straddles its
ends. -/
theorem setProtIn_attrAt {fin : Nat} (hv : v ∈ t) (hlo : NoStraddle tid addr t)
    (hhi : NoStraddle tid fin t) (hh : v.holdsAddr tid va = true) :
    (v.setProtIn tid addr fin prot).attrAt va = (v.attrAt va).protectIn addr fin prot va := by
  obtain ⟨hused, htid, hle, hlt⟩ := holdsAddr_iff.mp hh
  have h1 : v.addr < addr → v.vend ≤ addr := by
    intro hbelow
    by_contra hend
    have := hlo v hv (holdsAddr_iff.mpr ⟨hused, htid, by omega, by omega⟩)
    omega
  have h2 : v.addr < fin → v.vend ≤ fin := by
    intro hbelow
    by_contra hend
    have := hhi v hv (holdsAddr_iff.mpr ⟨hused, htid, by omega, by omega⟩)
    omega
  have hcond : (v.used && v.tid == tid && !(decide (v.vend ≤ addr) || decide (fin ≤ v.addr))) = true
      ↔ addr ≤ va ∧ va < fin := by
    simp only [hused, htid, beq_self_eq_true, Bool.true_and, Bool.not_eq_true',
      Bool.or_eq_false_iff, decide_eq_false_iff_not]
    omega
  unfold setProtIn VmaAttr.protectIn
  by_cases hin : addr ≤ va ∧ va < fin
  · rw [if_pos (hcond.mpr hin), if_pos hin]
    rfl
  · rw [if_neg (fun hc => hin (hcond.mp hc)), if_neg hin]

/-- A call that returns 0 has made both splits. -/
theorem userVmaSetProt_splits {w : VmaState} {len : Nat} (hrange : addr + len < 2 ^ 64)
    (hrc : (userVmaSetProt w tid addr len prot).1 = 0) :
    ∃ s1 s2, userVmaSplitAtNolock tid addr ⟨w.global, w.fileRefs⟩ = (0, s1)
      ∧ userVmaSplitAtNolock tid (addr + len) s1 = (0, s2)
      ∧ (userVmaSetProt w tid addr len prot).2 = w.withGlobal
          ⟨s2.vmas.map (setProtIn tid addr (addr + len) prot), s2.refs⟩ := by
  unfold userVmaSetProt at hrc ⊢
  simp only [Nat.mod_eq_of_lt hrange] at hrc ⊢
  split at hrc
  next s1 h1 =>
    split at hrc
    next s2 h2 => exact ⟨s1, s2, h1, h2, rfl⟩
    next => cases hrc
  next => cases hrc

/-- **Changing the protection changes nothing else exactly if both splits are placed right.** The
table may hold records of other threads, records that wrap, and its free slots anywhere. -/
theorem userVmaSetProt_protOnly_iff (w : VmaState) (tid addr len prot : Nat)
    (hwords : Words w.global) (hdisjoint : DisjointFor tid w.global) (hrange : addr + len < 2 ^ 64)
    (hrc : (userVmaSetProt w tid addr len prot).1 = 0) :
    ProtOnly tid addr len prot w (userVmaSetProt w tid addr len prot).2
      ↔ SplitPlaced tid addr w.global ∧ SplitPlacedNext tid addr (addr + len) w.global := by
  obtain ⟨s1, s2, h1, h2, hrun⟩ := userVmaSetProt_splits hrange hrc
  have rel1 := splitAt_rel hwords hdisjoint h1
  have rel2 := splitAt_rel rel1.words rel1.disjoint h2
  -- the loop changes neither the counts nor who holds a file
  have hrefs : (∀ f, (userVmaSetProt w tid addr len prot).2.fileRefs f - w.fileRefs f
        = (holders f (userVmaSetProt w tid addr len prot).2.global : Int) - holders f w.global)
      ↔ ∀ f, surplus f s2 = surplus f ⟨w.global, w.fileRefs⟩ := by
    refine forall_congr' fun f => ?_
    rw [hrun]
    unfold surplus VmaState.withGlobal
    dsimp only
    rw [holders_setProt]
    omega
  rw [and_congr_right fun hp =>
    (splitPlaced_next_iff hwords hdisjoint (Nat.le_add_right addr len) h1 h2 hp).symm]
  constructor
  · -- a misplaced half leaves a reference nobody holds
    intro h
    have hbal := hrefs.mp h.refs
    constructor
    · by_contra hbad
      obtain ⟨f, hlt⟩ := rel1.misplaced hbad
      have := rel2.surplus_le f
      have := hbal f
      omega
    · by_contra hbad
      obtain ⟨f, hlt⟩ := rel2.misplaced hbad
      have := rel1.surplus_le f
      have := hbal f
      omega
  · rintro ⟨hp1, hp2⟩
    obtain ⟨hs1, ha1⟩ := rel1.placed hp1
    obtain ⟨hs2, ha2⟩ := rel2.placed hp2
    refine ⟨?_, hrefs.mpr fun f => (hs2 f).trans (hs1 f)⟩
    intro v hv va hh
    obtain ⟨u, hu, hhu, hau⟩ := (ha2 va _).mpr ((ha1 va _).mpr ⟨v, hv, hh, rfl⟩)
    rw [hrun]
    refine ⟨_, mem_map_of_mem hu, ?_, ?_⟩
    · rw [(setProtIn_sameRange tid addr (addr + len) prot u).holdsAddr]
      exact hhu
    · rw [← hau]
      exact setProtIn_attrAt hu
        (rel2.noStraddleBelow addr (Nat.le_add_right _ _) rel1.noStraddle) rel2.noStraddle hhu

/-- A file mapping `[0x1000, 0x5000)` of thread `2`, with the free slots before or behind it. -/
def fileTable (freeFirst : Bool) : VmaState :=
  let lib : UserVma := ⟨true, 2, 0x1000, 0x4000, 5, .mmapLazy, some 9, 0x200⟩
  { threads := [none, none, some ⟨2, 3, some 7⟩]
    threadCount := 3
    global := if freeFirst then [default, default, lib] else [lib, default, default]
    storage := fun _ => none
    fileRefs := fun f => if f = 9 then 1 else 0 }

theorem fileTable_disjoint (b : Bool) : DisjointFor 2 (fileTable b).global := by
  have hfree : ∀ va, (default : UserVma).holdsAddr 2 va = false := fun _ => rfl
  cases b <;> simp [DisjointFor, fileTable, hfree]

/-- With the free slots first, a change up to the end of the mapping divides it correctly. -/
theorem userVmaSetProt_protOnly_lower : (userVmaSetProt (fileTable true) 2 0x2000 0x3000 1).1 = 0
      ∧ ProtOnly 2 0x2000 0x3000 1 (fileTable true)
      (userVmaSetProt (fileTable true) 2 0x2000 0x3000 1).2 := by
  refine ⟨by decide, (userVmaSetProt_protOnly_iff (fileTable true) 2 0x2000 0x3000 1
    (by unfold Words; decide) (fileTable_disjoint true) (by decide) (by decide)).mpr ⟨?_, ?_⟩⟩
  · intro i j v h
    have hi : i = 2 := some.inj (h.found.symm.trans (by decide))
    have hj : j = 0 := some.inj (h.free.symm.trans (by decide))
    exact .inr (by omega)
  · intro _ i v h
    exact absurd (h.found.symm.trans (by decide : _ = none)) (by simp)

/-- With the free slots behind the record, as in a new process, the first page loses its place in
the file, the rest of the mapping loses the file, and a reference is leaked. -/
theorem userVmaSetProt_protOnly_fails :
      Words (fileTable false).global ∧ DisjointFor 2 (fileTable false).global
      ∧ (userVmaSetProt (fileTable false) 2 0x2000 0x1000 1).1 = 0
      ∧ (userVmaSetProt (fileTable false) 2 0x2000 0x1000 1).2.global
        = [⟨true, 2, 0x1000, 0x1000, 5, .mmapLazy, some 9, 0x1200⟩,
           ⟨true, 2, 0x2000, 0x1000, 1, .mmapLazy, none, 0⟩,
           ⟨true, 2, 0x3000, 0x2000, 5, .mmapLazy, none, 0⟩]
      ∧ ¬ ProtOnly 2 0x2000 0x1000 1 (fileTable false)
          (userVmaSetProt (fileTable false) 2 0x2000 0x1000 1).2 := by
  refine ⟨by unfold Words; decide, fileTable_disjoint false, by decide, by decide, ?_⟩
  intro h
  have hleak := h.refs 9
  revert hleak
  decide

end AxonOS.Vma

import AxonOS.Lib.SlotTable
import AxonOS.Vma.Table

/-! # Unmapping a range of an address space

What a VMA table is for is to say which addresses are mapped and how. `view` reads a table as
that relation: the pairs of an address and the attributes some record gives it. On views,
unmapping a range is removing the pairs whose address is in the range (`unmapView`), and
`user_vma_unmap_range` is shown to be exactly that on both stores, or to fail and change
nothing.

A split of one record takes one free slot. `SplitRel` says what a run of splits at one
address keeps: the view, the records of other address spaces, and the balance between free
slots and records still to be split there. The balance is what the counting pre-check relies
on, so it also gives that no split fails once the pre-check has passed.
-/

namespace AxonOS.Vma

open Lib List Option Nat UserVma

/-! ## Views -/

/-- What a record says about an address: its owner, protection and kind, and, for a mapped
file, the file and the byte offset in it. A record without a file has no offset. -/
structure VmaAttr where
  tid : Nat
  prot : Nat
  kind : VmaKind
  backing : Option (FileId × Nat)
  deriving DecidableEq, Repr

def UserVma.attrAt (v : UserVma) (va : Nat) : VmaAttr :=
  ⟨v.tid, v.prot, v.kind, v.file.map fun f => (f, (v.fileOff + (va - v.addr)) % 2 ^ 64)⟩

/-- The record is in use, belongs to the address space and gives `va` the attributes `a`. -/
def UserVma.Maps (owns : Nat → Bool) (va : Nat) (a : VmaAttr) (v : UserVma) : Prop :=
  v.used = true ∧ owns v.tid = true ∧ v.addr ≤ va ∧ va < v.addr + v.len ∧ v.attrAt va = a

/-- The mapping a table describes, restricted to the records of one address space. -/
def view (owns : Nat → Bool) (t : List UserVma) : Set (Nat × VmaAttr) :=
  {p | ∃ v ∈ t, v.Maps owns p.1 p.2}

/-- Unmapping `[addr, addr + len)`, on views. -/
def unmapView (addr len : Nat) (m : Set (Nat × VmaAttr)) : Set (Nat × VmaAttr) :=
  {p ∈ m | ¬ (addr ≤ p.1 ∧ p.1 < addr + len)}

/-- No record in use runs past the end of the address space. -/
def NoWrap (t : List UserVma) : Prop := ∀ v ∈ t, v.used = true → v.addr + v.len < 2 ^ 64

variable {t : List UserVma} {v : UserVma} {owns : Nat → Bool} {s : Slots} {i len addr j sp : Nat}
  {owner : Thread} {mm : MmId} {w : VmaState}

theorem NoWrap.set (h : NoWrap t) (i : Nat) (hv : v.used = true → v.addr + v.len < 2 ^ 64) :
    NoWrap (t.set i v) := by
  intro u hu
  rcases mem_or_eq_of_mem_set hu with hmem | rfl
  · exact h u hmem
  · exact hv

/-! ## Counting -/

def freeCount (t : List UserVma) : Nat := t.countP fun v => !v.used

/-- A record of the address space that a split at `x` has to divide. -/
def UserVma.needsSplit (owns : Nat → Bool) (x : Nat) (v : UserVma) : Bool :=
  v.used && owns v.tid && v.straddles x

/-- The records a split at `x` has to divide. -/
def needCount (owns : Nat → Bool) (x : Nat) (t : List UserVma) : Nat :=
  t.countP (UserVma.needsSplit owns x)

/-- The records that hold a reference to the file `f`. -/
def holders (f : FileId) (t : List UserVma) : Nat := t.countP fun v => v.used && v.file == some f

theorem capacityStep_eq (owns : Nat → Bool) (addr fin a b : Nat) (v : UserVma) :
    capacityStep owns addr fin (a, b) v = (a + (!v.used).toNat,
          b + ((v.needsSplit owns addr).toNat + (v.needsSplit owns fin).toNat)) := by
  unfold capacityStep needsSplit
  cases v.used <;> cases owns v.tid <;> cases v.straddles addr <;> cases v.straddles fin <;> rfl

/-- The counting loop computes the free slots and the splits needed at the two ends. -/
theorem capacity_eq (owns : Nat → Bool) (addr fin : Nat) (t : List UserVma) :
    capacity owns addr fin t = (freeCount t, needCount owns addr t + needCount owns fin t) := by
  have key : ∀ (t : List UserVma) (a b : Nat), t.foldl (capacityStep owns addr fin) (a, b)
      = (a + freeCount t, b + (needCount owns addr t + needCount owns fin t)) := by
    intro t
    induction t with
    | nil => intro a b; rfl
    | cons v t ih =>
      intro a b
      rw [foldl_cons, capacityStep_eq, ih]
      simp only [freeCount, needCount, countP_cons_toNat]
      refine Prod.ext ?_ ?_ <;> (simp only []; omega)
  have := key t 0 0
  rw [capacity, this, zero_add, zero_add]

theorem freeSlot_some (h : freeSlot t = some j) : ∃ u, t[j]? = some u ∧ u.used = false := by
  obtain ⟨hj, hp, -⟩ := findIdx?_eq_some_iff_getElem.mp h
  exact ⟨t[j], getElem?_eq_getElem hj, by simpa using hp⟩

theorem freeSlot_none (h : freeSlot t = none) : freeCount t = 0 := by
  have hall := findIdx?_eq_none_iff.mp h
  exact countP_eq_zero.mpr fun v hv => by simp [hall v hv]

/-! ## Splitting one record -/

section Parts

variable {v : UserVma} {sp : Nat}

@[simp] theorem leftOf_used : (v.leftOf sp).used = v.used := rfl
@[simp] theorem leftOf_tid : (v.leftOf sp).tid = v.tid := rfl
@[simp] theorem leftOf_file : (v.leftOf sp).file = v.file := rfl
@[simp] theorem rightOf_used : (v.rightOf sp).used = v.used := rfl
@[simp] theorem rightOf_tid : (v.rightOf sp).tid = v.tid := rfl
@[simp] theorem rightOf_file : (v.rightOf sp).file = v.file := rfl

theorem straddles_iff {p : Nat} (hw : v.addr + v.len < 2 ^ 64) :
    v.straddles p = true ↔ v.addr < p ∧ p < v.addr + v.len := by
  rw [straddles, vend, mod_eq_of_lt hw]
  simp

theorem rightOf_range (hw : v.addr + v.len < 2 ^ 64) (hs : v.straddles sp = true) :
    (v.rightOf sp).addr = sp ∧ (v.rightOf sp).addr + (v.rightOf sp).len = v.addr + v.len := by
  have h := (straddles_iff hw).mp hs
  refine ⟨rfl, ?_⟩
  show sp + (v.vend - sp) = v.addr + v.len
  rw [vend]
  omega

theorem leftOf_range (hw : v.addr + v.len < 2 ^ 64) (hs : v.straddles sp = true) :
    (v.leftOf sp).addr = v.addr ∧ (v.leftOf sp).addr + (v.leftOf sp).len = sp := by
  have h := (straddles_iff hw).mp hs
  refine ⟨rfl, ?_⟩
  show v.addr + (sp - v.addr) = sp
  omega

theorem leftOf_attrAt (va : Nat) : (v.leftOf sp).attrAt va = v.attrAt va := rfl

/-- The file offset of the right part is advanced by what the left part covers, so every
address keeps its byte of the file. -/
theorem rightOf_attrAt {va : Nat} (h1 : v.addr ≤ sp) (h2 : sp ≤ va) :
    (v.rightOf sp).attrAt va = v.attrAt va := by
  unfold attrAt rightOf
  cases hf : v.file with
  | none => simp
  | some f =>
    simp only [isSome_some, if_true, map_some, VmaAttr.mk.injEq, true_and,
      some.injEq, Prod.mk.injEq]
    rw [mod_add_mod]
    congr 1
    omega

section

variable (owns : Nat → Bool) (hw : v.addr + v.len < 2 ^ 64) (hs : v.straddles sp = true)

include hw hs

/-- The two parts map what the record mapped. -/
theorem maps_split (va : Nat) (a : VmaAttr) :
    v.Maps owns va a ↔ (v.leftOf sp).Maps owns va a ∨ (v.rightOf sp).Maps owns va a := by
  obtain ⟨hl1, hl2⟩ := leftOf_range hw hs
  obtain ⟨hr1, hr2⟩ := rightOf_range hw hs
  unfold UserVma.Maps
  rw [hl2, hr2, hr1, leftOf_attrAt]
  constructor
  · rintro ⟨hu, ho, h1, h2, h3⟩
    by_cases hva : va < sp
    · exact .inl ⟨hu, ho, h1, hva, h3⟩
    · refine .inr ⟨hu, ho, by omega, h2, ?_⟩
      rw [rightOf_attrAt (by omega) (by omega)]
      exact h3
  · rintro (⟨hu, ho, h1, h2, h3⟩ | ⟨hu, ho, h1, h2, h3⟩)
    · exact ⟨hu, ho, h1, by omega, h3⟩
    · rw [rightOf_attrAt (by omega) h1] at h3
      exact ⟨hu, ho, by omega, h2, h3⟩

/-- Away from the split address exactly one of the parts takes over a pending split. -/
theorem needsSplit_other {x : Nat} (hx : x ≠ sp) : (v.needsSplit owns x).toNat
      = ((v.leftOf sp).needsSplit owns x).toNat + ((v.rightOf sp).needsSplit owns x).toNat := by
  obtain ⟨hl1, hl2⟩ := leftOf_range hw hs
  obtain ⟨hr1, hr2⟩ := rightOf_range hw hs
  have hsv := straddles_iff (p := x) hw
  have hsl := straddles_iff (v := v.leftOf sp) (p := x) (by omega)
  have hsr := straddles_iff (v := v.rightOf sp) (p := x) (by omega)
  unfold needsSplit
  by_cases hlt : x < sp
  · have h1 : (v.rightOf sp).straddles x = false := by rw [← Bool.not_eq_true, hsr]; omega
    have h2 : (v.leftOf sp).straddles x = v.straddles x := by
      rw [Bool.eq_iff_iff, hsl, hsv]; omega
    rw [h1, h2, Bool.and_false]
    rfl
  · have h1 : (v.leftOf sp).straddles x = false := by rw [← Bool.not_eq_true, hsl]; omega
    have h2 : (v.rightOf sp).straddles x = v.straddles x := by
      rw [Bool.eq_iff_iff, hsr, hsv]; omega
    rw [h1, h2, Bool.and_false]
    exact (zero_add _).symm

theorem needsSplit_left : (v.leftOf sp).needsSplit owns sp = false := by
  obtain ⟨hl1, hl2⟩ := leftOf_range hw hs
  have hin := (straddles_iff hw).mp hs
  have hsl := straddles_iff (v := v.leftOf sp) (p := sp) (by omega)
  have : (v.leftOf sp).straddles sp = false := by
    rw [← Bool.not_eq_true, hsl]; omega
  simp [needsSplit, this]

end

theorem needsSplit_right (owns : Nat → Bool) : (v.rightOf sp).needsSplit owns sp = false := by
  have : (v.rightOf sp).straddles sp = false := by
    simp [straddles, rightOf]
  simp [needsSplit, this]

end Parts

/-! ## A run of splits at one address -/

/-- What splitting records of one address space at `sp` keeps. -/
structure SplitRel (owns : Nat → Bool) (sp : Nat) (s s' : Slots) : Prop where
  length : s'.vmas.length = s.vmas.length
  noWrap : NoWrap s'.vmas
  view : view owns s'.vmas = view owns s.vmas
  others : ∀ (k : Nat) (v : UserVma), v.used = true → owns v.tid = false →
    (s'.vmas[k]? = some v ↔ s.vmas[k]? = some v)
  balance : freeCount s'.vmas + needCount owns sp s.vmas
      = freeCount s.vmas + needCount owns sp s'.vmas
  needOther : ∀ x, x ≠ sp → needCount owns x s'.vmas = needCount owns x s.vmas
  refs : ∀ f, s'.refs f - holders f s'.vmas = s.refs f - holders f s.vmas

theorem SplitRel.refl (h : NoWrap s.vmas) : SplitRel owns sp s s :=
  ⟨rfl, h, rfl, fun _ _ _ _ => Iff.rfl, rfl, fun _ _ => rfl, fun _ => rfl⟩

theorem SplitRel.trans {sp : Nat} {s' s'' : Slots} (h : SplitRel owns sp s s')
    (h' : SplitRel owns sp s' s'') : SplitRel owns sp s s'' where
  length := h'.length.trans h.length
  noWrap := h'.noWrap
  view := h'.view.trans h.view
  others k v hu ho := (h'.others k v hu ho).trans (h.others k v hu ho)
  balance := by have h1 := h.balance; have h2 := h'.balance; omega
  needOther x hx := (h'.needOther x hx).trans (h.needOther x hx)
  refs f := (h'.refs f).trans (h.refs f)

theorem fsFileGet_apply (refs : FileId → Int) (o : Option FileId) (f : FileId) :
    fsFileGet refs o f = refs f + ((o == some f).toNat : Int) := by
  cases o with
  | none => simp [fsFileGet]
  | some g =>
    by_cases h : f = g
    · simp [fsFileGet, h]
    · have h' : g ≠ f := fun e => h e.symm
      simp [fsFileGet, h, h']

/-- One split: the record in slot `i` is divided over its own slot and the free slot `j`. -/
theorem splitRel_split (owns : Nat → Bool) (sp : Nat) {u : UserVma} (hw : NoWrap s.vmas)
    (hi : s.vmas[i]? = some v) (hused : v.used = true) (howns : owns v.tid = true)
    (hs : v.straddles sp = true) (hj : s.vmas[j]? = some u) (hfree : u.used = false) :
    SplitRel owns sp s
      { vmas := (s.vmas.set j (v.rightOf sp)).set i (v.leftOf sp)
        refs := fsFileGet s.refs v.file } := by
  have hij : i ≠ j := by
    rintro rfl
    have hj := mem_unique hi hj
    rw [hj, hfree] at hused
    cases hused
  have hwv : v.addr + v.len < 2 ^ 64 := hw v (mem_of_getElem? hi) hused
  have hcount := countP_split (v.leftOf sp) (v.rightOf sp) hi hj hij
  refine ⟨by simp, ?_, ?_, ?_, ?_, ?_, ?_⟩
  · -- every record is an old one or a part of `v`, and the parts end where `v` ends or earlier
    intro x hx hxu
    rcases mem_or_eq_of_mem_set hx with hx | rfl
    · rcases mem_or_eq_of_mem_set hx with hx | rfl
      · exact hw x hx hxu
      · rw [(rightOf_range hwv hs).2]; exact hwv
    · rw [(leftOf_range hwv hs).2]
      have := (straddles_iff hwv).mp hs
      omega
  · ext ⟨va, a⟩
    refine exists_mem_split hi hj hij ?_ (maps_split owns hwv hs va a)
    rintro ⟨h, -⟩
    rw [hfree] at h
    cases h
  · intro k x hxu hxo
    have hxv : x ≠ v := by rintro rfl; rw [howns] at hxo; cases hxo
    have hxr : v.rightOf sp ≠ x := by rintro rfl; rw [rightOf_tid, howns] at hxo; cases hxo
    have hxl : v.leftOf sp ≠ x := by rintro rfl; rw [leftOf_tid, howns] at hxo; cases hxo
    have hxu' : u ≠ x := by rintro rfl; rw [hfree] at hxu; cases hxu
    by_cases hik : i = k
    · subst hik
      rw [getElem?_set_eq (by rw [getElem?_set_ne hij.symm]; exact hi), hi]
      simp [hxl, hxv.symm]
    rw [getElem?_set_ne hik]
    by_cases hjk : j = k
    · subst hjk
      rw [getElem?_set_eq hj, hj]
      simp [hxr, hxu']
    · rw [getElem?_set_ne hjk]
  · have h1 := hcount fun v => !v.used
    have h2 := hcount (needsSplit owns sp)
    rw [needsSplit_left owns hwv hs, needsSplit_right owns] at h2
    have h3 : v.needsSplit owns sp = true := by simp [needsSplit, hused, howns, hs]
    have h4 : u.needsSplit owns sp = false := by simp [needsSplit, hfree]
    simp only [leftOf_used, rightOf_used, hused, hfree, h3, h4, Bool.toNat_true, Bool.toNat_false,
      Bool.not_true, Bool.not_false] at h1 h2
    unfold freeCount needCount
    dsimp only
    omega
  · intro x hx
    have h1 := hcount (needsSplit owns x)
    have h2 := needsSplit_other owns hwv hs hx
    have h4 : u.needsSplit owns x = false := by simp [needsSplit, hfree]
    rw [h4, Bool.toNat_false] at h1
    unfold needCount
    dsimp only
    omega
  · intro f
    have h1 := hcount fun v => v.used && v.file == some f
    simp only [leftOf_used, rightOf_used, leftOf_file, rightOf_file, hused, hfree, Bool.true_and,
      Bool.false_and, Bool.toNat_false] at h1
    unfold holders
    dsimp only
    rw [fsFileGet_apply]
    omega

/-- One iteration: nothing to do, or one split; it fails only without a free slot. After it
the slot needs no split any more. -/
theorem splitStep_rel (owns : Nat → Bool) (sp : Nat) (hw : NoWrap s.vmas) (hi : i < s.vmas.length)
    (hfree : needCount owns sp s.vmas ≤ freeCount s.vmas) :
    ∃ s', splitStep owns sp i s = .next s' ∧ SplitRel owns sp s s' ∧
      (∀ v, s'.vmas[i]? = some v → v.needsSplit owns sp = false) ∧
      ∀ (k : Nat) (v : UserVma), s'.vmas[k]? = some v → v.needsSplit owns sp = true →
      s.vmas[k]? = some v := by
  obtain ⟨v, hv⟩ : ∃ v, s.vmas[i]? = some v := ⟨_, getElem?_eq_getElem hi⟩
  unfold splitStep
  rw [getD_of_getElem? hv]
  cases hn : v.needsSplit owns sp with
  | false =>
    refine ⟨s, ?_, SplitRel.refl hw, ?_, fun _ _ h _ => h⟩
    · unfold needsSplit at hn
      cases hu : v.used <;> cases ho : owns v.tid <;> simp_all
    · intro x hx
      have hx := mem_unique hv hx
      rw [← hx, hn]
  | true =>
    obtain ⟨⟨hu, ho⟩, hs⟩ : (v.used = true ∧ owns v.tid = true) ∧ v.straddles sp = true := by
      simpa [needsSplit] using hn
    have hpos : 0 < needCount owns sp s.vmas :=
      countP_pos_iff.mpr ⟨v, mem_of_getElem? hv, hn⟩
    cases hf : freeSlot s.vmas with
    | none => have := freeSlot_none hf; omega
    | some j =>
      obtain ⟨u, hj, hju⟩ := freeSlot_some hf
      have hwv := hw v (mem_of_getElem? hv) hu
      have hij : i ≠ j := by
        rintro rfl
        have hj := mem_unique hv hj
        rw [hj, hju] at hu
        cases hu
      have hi' : (s.vmas.set j (v.rightOf sp))[i]? = some v := by
        rw [getElem?_set_ne hij.symm]; exact hv
      refine ⟨_, by simp [hu, ho, hs], splitRel_split owns sp hw hv hu ho hs hj hju, ?_, ?_⟩
      · intro x hx
        have hx := mem_unique (getElem?_set_eq hi' _) hx
        rw [← hx, needsSplit_left owns hwv hs]
      · intro k x hx hxn
        rcases getElem?_set_cases hx with ⟨-, rfl⟩ | ⟨-, hx⟩
        · rw [needsSplit_left owns hwv hs] at hxn
          cases hxn
        rcases getElem?_set_cases hx with ⟨-, rfl⟩ | ⟨-, hx⟩
        · rw [needsSplit_right owns] at hxn
          cases hxn
        · exact hx

/-- **The split loop.** With as many free slots as records to divide, the loop runs to its
end, and afterwards no record of the address space has the split address inside. -/
theorem splitOwnedAt_rel (owns : Nat → Bool) (sp : Nat) (hw : NoWrap s.vmas)
    (hfree : needCount owns sp s.vmas ≤ freeCount s.vmas) :
    ∃ s', splitOwnedAt owns sp s = (0, s') ∧ SplitRel owns sp s s'
    ∧ needCount owns sp s'.vmas = 0 := by
  -- after `i` iterations the slots below `i` are done
  have hloop := forLoop_rule (splitStep owns sp) (fun i s' => SplitRel owns sp s s' ∧
      ∀ (k : Nat) (v : UserVma), k < i → s'.vmas[k]? = some v → v.needsSplit owns sp = false)
    (fun _ _ => False) s.vmas.length 0 s
    (by
      intro i s' _ hi ⟨hrel, hdone⟩
      have hbal := hrel.balance
      have hlen := hrel.length
      obtain ⟨s'', hstep, hrel', hself, hrest⟩ :=
        splitStep_rel owns sp hrel.noWrap (i := i) (by omega) (by omega)
      rw [hstep]
      refine ⟨hrel.trans hrel', ?_⟩
      intro k v hk hv
      by_cases hki : k = i
      · subst hki; exact hself v hv
      · by_contra hne
        rw [Bool.not_eq_false] at hne
        have := hdone k v (by omega) (hrest k v hv hne)
        rw [hne] at this
        cases this)
    ⟨SplitRel.refl hw, fun k v hk => by omega⟩
  unfold splitOwnedAt
  cases hres : forLoop (splitStep owns sp) s.vmas.length 0 s with
  | ret r s' => rw [hres] at hloop; exact hloop.elim
  | next s' =>
    rw [hres] at hloop
    obtain ⟨hrel, hdone⟩ := hloop
    refine ⟨s', rfl, hrel, ?_⟩
    refine countP_eq_zero.mpr fun v hv => ?_
    obtain ⟨k, hk⟩ := mem_iff_getElem?.mp hv
    have hlt := lt_of_getElem? hk
    have hlen := hrel.length
    rw [hdone k v (by omega) hk]
    simp

/-! ## Clearing -/

/-- The record overlaps the range, as the clearing loop tests it. -/
def UserVma.overlaps (addr fin : Nat) (v : UserVma) : Bool :=
  !(decide (v.vend ≤ addr) || decide (fin ≤ v.addr))

/-- What the clearing loop does to one record. -/
def UserVma.clearIf (owns : Nat → Bool) (addr fin : Nat) (v : UserVma) : UserVma :=
  if v.used && owns v.tid && v.overlaps addr fin then v.clear else v

theorem clear_used (v : UserVma) : v.clear.used = false := by
  unfold clear
  cases h : v.used <;> simp [h]

theorem clearIf_used {fin : Nat} (h : (v.clearIf owns addr fin).used = true) :
    v.clearIf owns addr fin = v := by
  unfold clearIf at h ⊢
  split at h
  · rw [clear_used] at h; cases h
  · rename_i hc; rw [if_neg hc]

theorem fsFileFree_apply (refs : FileId → Int) (o : Option FileId) (f : FileId) :
    fsFileFree refs o f = refs f - ((o == some f).toNat : Int) := by
  cases o with
  | none => simp [fsFileFree]
  | some g =>
    by_cases h : f = g
    · simp [fsFileFree, h]
    · have h' : (g == f) = false := beq_eq_false_iff_ne.mpr fun e => h e.symm
      simp [fsFileFree, h, h']

/-- Clearing a slot gives back the reference it held. -/
theorem userVmaClearNolock_refs (hi : s.vmas[i]? = some v) (f : FileId) :
    (userVmaClearNolock i s).refs f - holders f (userVmaClearNolock i s).vmas
      = s.refs f - holders f s.vmas := by
  have h := countP_set_add hi (fun v => v.used && v.file == some f) v.clear
  rw [clear_used, Bool.false_and, Bool.toNat_false] at h
  unfold userVmaClearNolock holders
  rw [getD_of_getElem? hi]
  dsimp only
  cases hu : v.used with
  | false =>
    rw [hu, Bool.false_and, Bool.toNat_false] at h
    simp only [Bool.false_eq_true, if_false]
    omega
  | true =>
    rw [hu, Bool.true_and] at h
    rw [if_pos rfl, fsFileFree_apply]
    omega

theorem clearStep_eq (owns : Nat → Bool) (addr fin : Nat) (hi : s.vmas[i]? = some v) :
    ∃ s', clearStep owns addr fin i s = .next s' ∧ s'.vmas = s.vmas.set i (v.clearIf owns addr fin)
      ∧ ∀ f, s'.refs f - holders f s'.vmas = s.refs f - holders f s.vmas := by
  unfold clearStep clearIf
  rw [getD_of_getElem? hi]
  by_cases hc : (v.used && owns v.tid && v.overlaps addr fin) = true
  · refine ⟨userVmaClearNolock i s, if_pos hc, ?_, userVmaClearNolock_refs hi⟩
    rw [if_pos hc, userVmaClearNolock, getD_of_getElem? hi]
  refine ⟨s, if_neg hc, ?_, fun _ => rfl⟩
  rw [if_neg hc]
  refine ext_getElem? fun k => ?_
  by_cases hk : i = k
  · subst hk; rw [getElem?_set_eq hi, hi]
  · rw [getElem?_set_ne hk]

/-- **The clearing loop** treats every record by itself. -/
theorem clearOwnedIn_eq (owns : Nat → Bool) (addr fin : Nat) (s : Slots) :
    (clearOwnedIn owns addr fin s).vmas = s.vmas.map (clearIf owns addr fin)
    ∧ ∀ f, (clearOwnedIn owns addr fin s).refs f - holders f (clearOwnedIn owns addr fin s).vmas
        = s.refs f - holders f s.vmas := by
  -- after `i` iterations the slots below `i` are treated and the others are as before
  have hloop := forLoop_rule (clearStep owns addr fin)
    (fun i s' => (∀ k, s'.vmas[k]? = if k < i then s.vmas[k]?.map (clearIf owns addr fin)
        else s.vmas[k]?)
      ∧ ∀ f, s'.refs f - holders f s'.vmas = s.refs f - holders f s.vmas)
    (fun _ _ => False) s.vmas.length 0 s
    (by
      intro i s' _ hi ⟨hslots, hrefs⟩
      obtain ⟨v, hv⟩ : ∃ v, s.vmas[i]? = some v := ⟨_, getElem?_eq_getElem (by omega)⟩
      have hv' : s'.vmas[i]? = some v := by rw [hslots, if_neg (by omega), hv]
      obtain ⟨s'', hstep, hset, hrefs'⟩ := clearStep_eq owns addr fin hv'
      rw [hstep]
      refine ⟨?_, fun f => (hrefs' f).trans (hrefs f)⟩
      intro k
      rw [hset]
      by_cases hk : i = k
      · subst hk
        rw [getElem?_set_eq hv', if_pos (by omega), hv]
        rfl
      · rw [getElem?_set_ne hk, hslots]
        by_cases hlt : k < i
        · rw [if_pos hlt, if_pos (by omega)]
        · rw [if_neg hlt, if_neg (by omega)])
    ⟨fun k => by rw [if_neg (by omega)], fun _ => rfl⟩
  unfold clearOwnedIn
  cases hres : forLoop (clearStep owns addr fin) s.vmas.length 0 s with
  | ret r s' => rw [hres] at hloop; exact hloop.elim
  | next s' =>
    rw [hres] at hloop
    obtain ⟨hslots, hrefs⟩ := hloop
    refine ⟨ext_getElem? fun k => ?_, hrefs⟩
    rw [hslots, getElem?_map, zero_add]
    by_cases hk : k < s.vmas.length
    · rw [if_pos hk]
    · rw [if_neg hk, getElem?_eq_none (by omega)]
      rfl

theorem clear_noWrap {fin : Nat} (hw : NoWrap s.vmas) :
    NoWrap (clearOwnedIn owns addr fin s).vmas := by
  rw [(clearOwnedIn_eq owns addr fin s).1]
  intro u hu hused
  obtain ⟨v, hv, rfl⟩ := mem_map.mp hu
  have he := clearIf_used hused
  rw [he] at hused ⊢
  exact hw v hv hused

/-- A record with neither end of the range inside loses either nothing or everything. -/
theorem maps_clearIf (owns : Nat → Bool) (hw : v.used = true → v.addr + v.len < 2 ^ 64)
    (ha : v.needsSplit owns addr = false) (he : v.needsSplit owns (addr + len) = false) (va : Nat)
    (a : VmaAttr) : (v.clearIf owns addr (addr + len)).Maps owns va a
      ↔ v.Maps owns va a ∧ ¬ (addr ≤ va ∧ va < addr + len) := by
  by_cases hvu : (v.used && owns v.tid) = true
  · obtain ⟨hu, ho⟩ := (Bool.and_eq_true _ _).mp hvu
    have hs1 := straddles_iff (p := addr) (hw hu)
    have hs2 := straddles_iff (p := addr + len) (hw hu)
    unfold needsSplit at ha he
    rw [hvu, Bool.true_and] at ha he
    rw [ha] at hs1
    rw [he] at hs2
    have hov : v.overlaps addr (addr + len) = true ↔ addr < v.addr + v.len
        ∧ v.addr < addr + len := by
      rw [overlaps, vend, mod_eq_of_lt (hw hu)]
      simp
    unfold clearIf
    by_cases hc : v.overlaps addr (addr + len) = true
    · rw [hvu, hc, Bool.true_and, if_pos rfl]
      have hin := hov.mp hc
      constructor
      · rintro ⟨h, -⟩
        rw [clear_used] at h
        cases h
      · rintro ⟨⟨-, -, h1, h2, -⟩, h3⟩
        simp only [Bool.false_eq_true, false_iff] at hs1 hs2
        omega
    · rw [Bool.not_eq_true] at hc
      rw [hc, Bool.and_false]
      simp only [Bool.false_eq_true, if_false]
      refine ⟨fun h => ⟨h, ?_⟩, fun h => h.1⟩
      obtain ⟨-, -, h1, h2, -⟩ := h
      rw [hc] at hov
      simp only [Bool.false_eq_true, false_iff] at hov
      omega
  · unfold clearIf
    rw [Bool.not_eq_true] at hvu
    rw [hvu, Bool.false_and]
    simp only [Bool.false_eq_true, if_false]
    refine ⟨fun h => ?_, fun h => h.1⟩
    obtain ⟨h1, h2, -⟩ := h
    rw [h1, h2] at hvu
    cases hvu

/-! ## One table -/

/-- What unmapping does to one table: on the records of the address space it is `unmapView`,
and the other records stay in their slots. -/
structure UnmapRel (owns : Nat → Bool) (addr len : Nat) (t t' : List UserVma) : Prop where
  view : view owns t' = unmapView addr len (view owns t)
  others : ∀ (k : Nat) (v : UserVma), v.used = true → owns v.tid = false →
      (t'[k]? = some v ↔ t[k]? = some v)

theorem needsSplit_of_needCount {x : Nat} (h : needCount owns x t = 0) :
    ∀ v ∈ t, v.needsSplit owns x = false := fun v hv =>
  Bool.not_eq_true _ ▸ countP_eq_zero.mp h v hv

theorem clearOwnedIn_rel (owns : Nat → Bool) (hw : NoWrap s.vmas)
    (ha : needCount owns addr s.vmas = 0) (he : needCount owns (addr + len) s.vmas = 0) :
    UnmapRel owns addr len s.vmas (clearOwnedIn owns addr (addr + len) s).vmas := by
  rw [(clearOwnedIn_eq owns addr (addr + len) s).1]
  refine ⟨?_, ?_⟩
  · ext ⟨va, a⟩
    have hpt : ∀ v ∈ s.vmas, (v.clearIf owns addr (addr + len)).Maps owns va a
        ↔ v.Maps owns va a ∧ ¬ (addr ≤ va ∧ va < addr + len) := fun v hv =>
      maps_clearIf owns (hw v hv) (needsSplit_of_needCount ha v hv)
        (needsSplit_of_needCount he v hv) va a
    constructor
    · rintro ⟨x, hx, hm⟩
      obtain ⟨v, hv, rfl⟩ := mem_map.mp hx
      obtain ⟨h1, h2⟩ := (hpt v hv).mp hm
      exact ⟨⟨v, hv, h1⟩, h2⟩
    · rintro ⟨⟨v, hv, h1⟩, h2⟩
      exact ⟨_, mem_map_of_mem hv, (hpt v hv).mpr ⟨h1, h2⟩⟩
  · intro k v hu ho
    rw [getElem?_map, map_eq_some_iff]
    constructor
    · rintro ⟨x, hx, rfl⟩
      rw [clearIf_used hu]
      exact hx
    · intro hk
      refine ⟨v, hk, ?_⟩
      rw [clearIf, ho, Bool.and_false]
      rfl

/-- **Two splits and a clear are an unmap.** The capacity the pre-check asks for is enough for
both splits, also when the two ends coincide. The counts may change between the splits and the
clear, as the other table is treated there. -/
theorem unmap_slots (owns : Nat → Bool) (addr len : Nat) (hw : NoWrap s.vmas)
    (hcap : needCount owns addr s.vmas + needCount owns (addr + len) s.vmas ≤ freeCount s.vmas) :
    ∃ s1 s2, splitOwnedAt owns addr s = (0, s1) ∧ splitOwnedAt owns (addr + len) s1 = (0, s2)
      ∧ (∀ f, s2.refs f - holders f s2.vmas = s.refs f - holders f s.vmas)
      ∧ NoWrap s2.vmas ∧ s2.vmas.length = s.vmas.length ∧ ∀ refs, UnmapRel owns addr len s.vmas
          (clearOwnedIn owns addr (addr + len) ⟨s2.vmas, refs⟩).vmas := by
  obtain ⟨s1, he1, hr1, hd1⟩ := splitOwnedAt_rel owns addr hw (by omega)
  have hbal := hr1.balance
  have hother : addr + len ≠ addr →
    needCount owns (addr + len) s1.vmas = needCount owns (addr + len) s.vmas :=
    hr1.needOther _
  have hcap2 : needCount owns (addr + len) s1.vmas ≤ freeCount s1.vmas := by
    by_cases h : addr + len = addr
    · rw [h, hd1]; exact zero_le _
    · rw [hother h]; omega
  obtain ⟨s2, he2, hr2, hd2⟩ := splitOwnedAt_rel owns (addr + len) hr1.noWrap hcap2
  have hd1' : needCount owns addr s2.vmas = 0 := by
    by_cases h : addr = addr + len
    · rw [h]; exact hd2
    · rw [hr2.needOther addr h]; exact hd1
  refine ⟨s1, s2, he1, he2, fun f => (hr2.refs f).trans (hr1.refs f), hr2.noWrap,
    hr2.length.trans hr1.length, fun refs => ?_⟩
  have hc := clearOwnedIn_rel owns (s := ⟨s2.vmas, refs⟩) hr2.noWrap hd1' hd2
  refine ⟨?_, ?_⟩
  · rw [hc.view, hr2.view, hr1.view]
  · intro k v hu ho
    rw [hc.others k v hu ho, hr2.others k v hu ho, hr1.others k v hu ho]

/-! ## Both stores -/

/-- The pre-check passes exactly when both tables have room for both splits. -/
theorem capacity_zero_iff (w : VmaState) (hm : owner.mm = some mm)
    (howns : owns = userVmaTidMatchesRunnerMmNolock w (some owner)) (addr fin : Nat) :
    userVmaUnmapCapacityNolock w (some owner) addr fin = 0 ↔
      needCount owns addr w.global + needCount owns fin w.global ≤ freeCount w.global
      ∧ ∀ t, w.storage mm = some t →
          needCount (fun _ => true) addr t + needCount (fun _ => true) fin t ≤ freeCount t := by
  have hfold : (fun tid => (some owner).isSome
      && userVmaTidMatchesRunnerMmNolock w (some owner) tid) = owns := by
    rw [howns]; rfl
  unfold userVmaUnmapCapacityNolock
  rw [hfold, bind_some, hm, bind_some]
  simp only [capacity_eq]
  by_cases hg : needCount owns addr w.global + needCount owns fin w.global ≤ freeCount w.global
  · rw [if_neg (by omega)]
    cases ht : w.storage mm with
    | none => simp [hg]
    | some t =>
      by_cases hc : needCount (fun _ => true) addr t + needCount (fun _ => true) fin t ≤ freeCount t
      · simp [hg, hc]
      · simp [hg, hc, Nat.lt_of_not_le hc]
  · rw [if_pos (by omega)]
    simp [hg]

/-- The references to `f` that the global store and the store of `mm` do not account for. -/
def otherRefs (mm : MmId) (f : FileId) (w : VmaState) : Int :=
  w.fileRefs f - holders f w.global - ((w.storage mm).elim 0 fun t => (holders f t : Int))

/-- What unmapping does to the whole state, seen from the owner's address space `mm`. -/
structure UnmapOk (owns : Nat → Bool) (mm : MmId) (addr len : Nat) (w w' : VmaState) : Prop where
  global : UnmapRel owns addr len w.global w'.global
  storage : ∀ t, w.storage mm = some t → ∃ t', w'.storage mm = some t'
      ∧ UnmapRel (fun _ => true) addr len t t'
  noStorage : w.storage mm = none → w'.storage mm = none
  storageOthers : ∀ m, m ≠ mm → w'.storage m = w.storage m
  threads : w'.threads = w.threads ∧ w'.threadCount = w.threadCount
  refs : ∀ f, otherRefs mm f w' = otherRefs mm f w

/-- Without a store of its own an address space is unmapped in the global store alone. -/
theorem unmapOk_global (hrel : UnmapRel owns addr len w.global s.vmas) (hst : w.storage mm = none)
    (hrefs : ∀ f, s.refs f - holders f s.vmas = w.fileRefs f - holders f w.global) :
    UnmapOk owns mm addr len w (w.withGlobal s) where
  global := hrel
  storage t ht := by rw [hst] at ht; cases ht
  noStorage h := h
  storageOthers _ _ := rfl
  threads := ⟨rfl, rfl⟩
  refs f := by
    have := hrefs f
    simp only [otherRefs, VmaState.withGlobal, hst, elim_none]
    omega

theorem unmapOk_both {g : Slots} (hg : UnmapRel owns addr len w.global g.vmas)
    (hst : w.storage mm = some t) (hs : UnmapRel (fun _ => true) addr len t s.vmas)
    (hrefs : ∀ f, s.refs f - holders f g.vmas - holders f s.vmas
      = w.fileRefs f - holders f w.global - holders f t) :
    UnmapOk owns mm addr len w ((w.withGlobal g).withStorage mm s) where
  global := hg
  storage t' ht' := by
    have ht' := mem_unique hst ht'
    exact ⟨s.vmas, if_pos rfl, ht' ▸ hs⟩
  noStorage h := by rw [hst] at h; cases h
  storageOthers m hm := if_neg hm
  threads := ⟨rfl, rfl⟩
  refs f := by
    have := hrefs f
    simp only [otherRefs, VmaState.withGlobal, VmaState.withStorage, hst, if_true, elim_some]
    omega

section Run

variable {w : VmaState} {owner : Thread} {mm : MmId} {addr fin : Nat} {owns : Nat → Bool}
  {g1 g2 m1 m2 : Slots}

/-- The splits and the clear of an address space without a store of its own. -/
theorem unmapRun_global (howns : userVmaTidMatchesRunnerMmNolock w (some owner) = owns)
    (hst : w.storage mm = none) (hg1 : splitOwnedAt owns addr ⟨w.global, w.fileRefs⟩ = (0, g1))
    (hg2 : splitOwnedAt owns fin g1 = (0, g2)) :
      unmapSplits w owner mm addr fin = (0, w.withGlobal g2)
      ∧ unmapClear (w.withGlobal g2) owner mm addr fin
        = w.withGlobal (clearOwnedIn owns addr fin g2) := by
  constructor
  · unfold unmapSplits userVmaSplitRunnerAtNolock
    simp only [howns, hg1, hg2, hst]
  · unfold unmapClear
    rw [show (w.withGlobal g2).storage mm = none from hst, ← howns]
    rfl

/-- The splits and the clear in both stores. The clearing loop starts from the counts that the
splits of the mm store left. -/
theorem unmapRun_both {t : List UserVma}
    (howns : userVmaTidMatchesRunnerMmNolock w (some owner) = owns) (hst : w.storage mm = some t)
    (hg1 : splitOwnedAt owns addr ⟨w.global, w.fileRefs⟩ = (0, g1))
    (hg2 : splitOwnedAt owns fin g1 = (0, g2))
    (hm1 : splitOwnedAt (fun _ => true) addr ⟨t, g2.refs⟩ = (0, m1))
    (hm2 : splitOwnedAt (fun _ => true) fin m1 = (0, m2)) :
    unmapSplits w owner mm addr fin = (0, (w.withGlobal g2).withStorage mm m2)
      ∧ unmapClear ((w.withGlobal g2).withStorage mm m2) owner mm addr fin
        = (w.withGlobal (clearOwnedIn owns addr fin ⟨g2.vmas, m2.refs⟩)).withStorage mm
            (clearOwnedIn (fun _ => true) addr fin
              ⟨m2.vmas, (clearOwnedIn owns addr fin ⟨g2.vmas, m2.refs⟩).refs⟩) := by
  constructor
  · unfold unmapSplits userVmaSplitRunnerAtNolock userVmaSplitMmAtNolock
    simp only [howns, hg1, hg2, hst, hm1, hm2]
  unfold unmapClear
  rw [show ((w.withGlobal g2).withStorage mm m2).storage mm = some m2.vmas from if_pos rfl, ← howns]
  simp only [VmaState.withGlobal, VmaState.withStorage, VmaState.mk.injEq, true_and]
  refine ⟨rfl, ?_, rfl⟩
  funext m
  by_cases hm : m = mm
  · rw [if_pos hm, if_pos hm]
    rfl
  · rw [if_neg hm, if_neg hm, if_neg hm]

end Run

/-- When the pre-check passes, the range is unmapped. -/
theorem userVmaUnmapRange_ok (hmm : owner.mm = some mm) (hglobal : NoWrap w.global)
    (hstorage : ∀ t, w.storage mm = some t → NoWrap t)
    (hcap : userVmaUnmapCapacityNolock w (some owner) addr (addr + len) = 0) :
    ∃ w', unmapSplits w owner mm addr (addr + len) = (0, w')
      ∧ UnmapOk (userVmaTidMatchesRunnerMmNolock w (some owner)) mm addr len w
          (unmapClear w' owner mm addr (addr + len))
          ∧ NoWrap (unmapClear w' owner mm addr (addr + len)).global
      ∧ ∀ t, (unmapClear w' owner mm addr (addr + len)).storage mm = some t → NoWrap t := by
  generalize howns : userVmaTidMatchesRunnerMmNolock w (some owner) = owns
  obtain ⟨hg, hs⟩ := (capacity_zero_iff w hmm howns.symm addr (addr + len)).mp hcap
  obtain ⟨g1, g2, hg1, hg2, hgrefs, hgw, -, hgrel⟩ :=
    unmap_slots owns addr len (s := ⟨w.global, w.fileRefs⟩) hglobal hg
  cases ht : w.storage mm with
  | none =>
    obtain ⟨hsplit, hclear⟩ := unmapRun_global howns ht hg1 hg2
    refine ⟨_, hsplit, ?_⟩
    have hcr := (clearOwnedIn_eq owns addr (addr + len) g2).2
    rw [hclear]
    refine ⟨unmapOk_global (hgrel g2.refs) ht fun f => (hcr f).trans (hgrefs f),
      clear_noWrap hgw, fun t ht' => ?_⟩
    rw [show (w.withGlobal _).storage mm = none from ht] at ht'
    cases ht'
  | some t =>
    obtain ⟨m1, m2, hm1, hm2, hmrefs, hmw, -, hmrel⟩ := unmap_slots (fun _ => true) addr len
      (s := ⟨t, g2.refs⟩) (hstorage t ht) (hs t ht)
    obtain ⟨hsplit, hclear⟩ := unmapRun_both howns ht hg1 hg2 hm1 hm2
    refine ⟨_, hsplit, ?_⟩
    rw [hclear]
    set g3 := clearOwnedIn owns addr (addr + len) ⟨g2.vmas, m2.refs⟩ with hg3
    have hg3r := (clearOwnedIn_eq owns addr (addr + len) ⟨g2.vmas, m2.refs⟩).2
    have hm3r := (clearOwnedIn_eq (fun _ => true) addr (addr + len) ⟨m2.vmas, g3.refs⟩).2
    refine ⟨unmapOk_both (hgrel m2.refs) ht (hmrel g3.refs) fun f => ?_, clear_noWrap hgw,
      fun t' ht' => ?_⟩
    · have h1 := hgrefs f
      have h2 := hmrefs f
      have h3 := hg3r f
      have h4 := hm3r f
      dsimp only at h1 h2 h3 h4
      rw [← hg3] at h3
      omega
    · rw [show ∀ s : Slots, ((w.withGlobal g3).withStorage mm s).storage mm = some s.vmas from
        fun s => if_pos rfl] at ht'
      injection ht' with ht'
      rw [← ht']
      exact clear_noWrap hmw

/-- **The two outcomes of a call by a thread with an address space.** -/
theorem userVmaUnmapRange_cases {tid : Nat} (hthread : threadGet w tid = some owner)
    (hmm : owner.mm = some mm) (hglobal : NoWrap w.global)
    (hstorage : ∀ t, w.storage mm = some t → NoWrap t) (hrange : addr + len < 2 ^ 64) :
    (userVmaUnmapCapacityNolock w (some owner) addr (addr + len) ≠ 0
      ∧ userVmaUnmapRange w tid addr len = (-1, w)) ∨ ∃ w',
      userVmaUnmapRange w tid addr len = (0, w')
      ∧ UnmapOk (userVmaTidMatchesRunnerMmNolock w (some owner)) mm addr len w w'
      ∧ NoWrap w'.global ∧ ∀ t, w'.storage mm = some t → NoWrap t := by
  obtain ⟨otid, oring, omm⟩ := owner
  obtain rfl : omm = some mm := hmm
  by_cases hcap : userVmaUnmapCapacityNolock w (some ⟨otid, oring, some mm⟩) addr (addr + len) = 0
  · obtain ⟨w', hsplit, hok⟩ := userVmaUnmapRange_ok rfl hglobal hstorage hcap
    refine .inr ⟨_, ?_, hok⟩
    unfold userVmaUnmapRange
    simp only [mod_eq_of_lt hrange, hthread, hcap, ne_eq, not_true_eq_false, if_false, hsplit]
  · refine .inl ⟨hcap, ?_⟩
    unfold userVmaUnmapRange
    simp only [mod_eq_of_lt hrange, hthread, hcap, ne_eq, not_false_eq_true, if_true]

/-- **`user_vma_unmap_range` is exact and atomic**, for a thread with an address space. It
returns `0` or `-1`. On `0` both stores describe the old mapping without the range: an address
of the range is mapped by no record of the address space, any other address is mapped as it
was, and the records of other address spaces are where they were. On `-1` nothing has
changed. When `user_vma_can_unmap_range` has said `0`, the answer is `0`. -/
theorem userVmaUnmapRange_exact (w : VmaState) (tid addr len : Nat) (owner : Thread) (mm : MmId)
    (hthread : threadGet w tid = some owner) (hmm : owner.mm = some mm)
    (hglobal : NoWrap w.global) (hstorage : ∀ t, w.storage mm = some t → NoWrap t)
    (hrange : addr + len < 2 ^ 64) :
    ((userVmaUnmapRange w tid addr len).1 = 0 ∨ (userVmaUnmapRange w tid addr len).1 = -1)
    ∧ ((userVmaUnmapRange w tid addr len).1 = 0 →
        UnmapOk (userVmaTidMatchesRunnerMmNolock w (some owner)) mm addr len w
          (userVmaUnmapRange w tid addr len).2)
    ∧ ((userVmaUnmapRange w tid addr len).1 = -1 → (userVmaUnmapRange w tid addr len).2 = w)
    ∧ (userVmaCanUnmapRange w tid addr len = 0 → (userVmaUnmapRange w tid addr len).1 = 0) := by
  rcases userVmaUnmapRange_cases hthread hmm hglobal hstorage hrange with
    ⟨hcap, hrun⟩ | ⟨w', hrun, hok, -, -⟩
  · have hcan : userVmaCanUnmapRange w tid addr len ≠ 0 := by
      unfold userVmaCanUnmapRange
      simp only [mod_eq_of_lt hrange, hthread]
      split
      · decide
      · exact hcap
    rw [hrun]
    exact ⟨.inr rfl, fun h => absurd h (by simp), fun _ => rfl, fun h => absurd h hcan⟩
  · rw [hrun]
    exact ⟨.inl rfl, fun _ => hok, fun h => absurd h (by simp), fun _ => rfl⟩

/-- A process of two threads (`2` and `3`) with one file mapping `[0x1000, 0x5000)`, recorded
for thread `2` and in the store of the address space; thread `1` is another process. -/
def threadedState : VmaState :=
  let lib : UserVma := ⟨true, 2, 0x1000, 0x4000, 5, .mmapLazy, some 9, 0x200⟩
  let other : UserVma := ⟨true, 1, 0x2000, 0x1000, 3, .mmap, none, 0⟩
  { threads := [none, some ⟨1, 3, some 4⟩, some ⟨2, 3, some 7⟩, some ⟨3, 3, some 7⟩]
    threadCount := 4
    global := [lib, other, default, default]
    storage := fun m => if m = 7 then some [default, lib, default] else none
    fileRefs := fun f => if f = 9 then 3 else 0 }

/-- Thread `3` unmaps the second page of the mapping: both stores need two splits. -/
theorem userVmaUnmapRange_exact_threaded : (userVmaUnmapRange threadedState 3 0x2000 0x1000).1 = 0
    ∧ UnmapOk (userVmaTidMatchesRunnerMmNolock threadedState (some ⟨3, 3, some 7⟩)) 7 0x2000 0x1000
        threadedState (userVmaUnmapRange threadedState 3 0x2000 0x1000).2 := by
  have hstep := userVmaUnmapRange_exact threadedState 3 0x2000 0x1000 ⟨3, 3, some 7⟩ 7
    (by decide) rfl (by unfold NoWrap; decide)
    (by
      intro t ht
      injection ht with ht
      subst ht
      unfold NoWrap
      decide)
    (by decide)
  suffices hzero : _ from ⟨hzero, hstep.2.1 hzero⟩
  decide

end AxonOS.Vma

import AxonOS.Arch.Word
import AxonOS.Arch.Addr
import AxonOS.Vma.FindUnmapped

/-! # `mprotect` and the threads of a process

`user_syscall_mprotect` asks whether the range is mapped under the id of the calling thread. If it
is, the protection of those records is changed; if it is not, the range is unmapped for the whole
address space and registered anew for the caller, as anonymous memory. A range that another thread
has registered takes the second way.

`processMap` is what the records of all threads of the process say together. The main result states
for which tables a call changes nothing in it but the protection of the range.
-/

namespace AxonOS.Vma

open Lib Arch List UserVma

/-! ## The call -/

/-- The loop of `user_vma_is_fully_mapped`. Every round moves `cur` up, so the number of addresses
of the range bounds the number of rounds. -/
def fullyMappedLoop (tid : Nat) (t : List UserVma) (fin : Nat) : Nat → Nat → Bool
  | 0, cur => decide (fin ≤ cur)
  | n + 1, cur =>
    if cur < fin then
      match userVmaFindContainingNolock tid cur t with
      | none => false
      | some i =>
        let ve := (t.getD i default).vend
        if ve ≤ cur then false else fullyMappedLoop tid t fin n ve
    else true

def userVmaIsFullyMapped (w : VmaState) (tid addr len : Nat) : Bool :=
  let fin := (addr + len) % 2 ^ 64
  fullyMappedLoop tid w.global fin (fin - addr) addr

/-- What the functions return that `mprotect` calls for the page tables, if they walk the tables at
all. None of them changes a VMA record. -/
structure PageTableResults where
  breakCow : Int
  ensurePresent : Int
  protect : Int
  deriving DecidableEq, Repr

/-- `user_map_mprotect_range` and `user_map_ensure_present_us_2m` refuse a range before they walk
the tables. -/
def checkedRange (vaBegin vaEnd : Nat) (walk : Int) : Int :=
  if vaEnd < vaBegin ∨ MMIO_IDENTITY_LIMIT ≤ vaBegin then -1 else walk

/-- The records after `mprotect` has changed or replaced them; `0` or the error it returns. -/
def mprotectRecords (kmallocOk : Bool) (pt : PageTableResults) (w : VmaState)
    (tid addr len prot : Nat) : Int × VmaState :=
  if !userVmaIsFullyMapped w tid addr len then
    if checkedRange addr ((addr + len) % 2 ^ 64) pt.ensurePresent ≠ 0 then (-EFAULT, w)
    else
      match userVmaUnmapRange w tid addr len with
      | (0, w1) =>
        match userVmaAdd kmallocOk w1 tid addr len prot .mmap with
        | (0, w2) => (0, w2)
        | (_, w2) => (-ENOSPC, w2)
      | (_, w1) => (-ENOSPC, w1)
  else
    match userVmaSetProt w tid addr len prot with
    | (0, w1) => (0, w1)
    | (_, w1) => (-ENOSPC, w1)

/-- `user_syscall_mprotect`, as far as the VMA tables go. -/
def userSyscallMprotect (kmallocOk : Bool) (pt : PageTableResults) (w : VmaState)
    (tcur : Option Thread) (a1 a2 a3 : Nat) : Int × VmaState :=
  let addr := a1
  let prot := a3 % 2 ^ 32
  if a2 = 0 then (0, w)
  else
    let len := alignUp4K a2
    if addr < 0x200000 then (-EINVAL, w)
    else if MMIO_IDENTITY_LIMIT ≤ (addr + len) % 2 ^ 64 then (-EINVAL, w)
    else if addr % 4096 ≠ 0 then (-EINVAL, w)
    else if prot / 8 ≠ 0 then (-EINVAL, w)
    else
      let tid := (tcur.map Thread.recordTid).getD 1
      -- a range that becomes writable is copied first
      if prot / 2 % 2 = 1 ∧ (tcur.bind (·.mm)).isSome
          ∧ ((addr + len) % 2 ^ 64 < addr ∨ pt.breakCow ≠ 0) then (-ENOMEM, w)
      else
        match mprotectRecords kmallocOk pt w tid addr len (prot % 8) with
        | (0, w1) =>
          if checkedRange addr ((addr + len) % 2 ^ 64) pt.protect ≠ 0 then (-EFAULT, w1)
          else (0, w1)
        | (e, w1) => (e, w1)

/-! ## The map of a process -/

/-- What a process sees of an address: the protection, the kind, and the file and offset behind
it. -/
structure PageAttr where
  prot : Nat
  kind : VmaKind
  backing : Option (FileId × Nat)
  deriving DecidableEq, Repr

def VmaAttr.page (a : VmaAttr) : PageAttr := ⟨a.prot, a.kind, a.backing⟩

/-- The record is in use, is one of the process's, and contains `va`. -/
def UserVma.OwnedAt (owns : Nat → Bool) (va : Nat) (v : UserVma) : Prop :=
  v.used = true ∧ owns v.tid = true ∧ v.addr ≤ va ∧ va < v.vend

/-- What the records of the threads with the address space `mm` say together. -/
def processMap (w : VmaState) (mm : MmId) : Set (Nat × PageAttr) :=
  {p | ∃ v ∈ w.global, v.OwnedAt (mmOwns w mm) p.1 ∧ (v.attrAt p.1).page = p.2}

variable {w w2 : VmaState} {va len tid addr prot fin : Nat} {v u : UserVma} {t : List UserVma}
  {kmallocOk : Bool} {pt : PageTableResults}

theorem mem_processMap {mm : MmId} (hv : v ∈ w.global) (ho : v.OwnedAt (mmOwns w mm) va) :
    (va, (v.attrAt va).page) ∈ processMap w mm :=
  ⟨v, hv, ho, rfl⟩

/-- A change of protection, on the map. -/
def protectMap (addr len prot : Nat) (m : Set (Nat × PageAttr)) : Set (Nat × PageAttr) :=
  {p | ∃ a, (p.1, a) ∈ m ∧ p.2 = if addr ≤ p.1 ∧ p.1 < addr + len then
    { a with prot := prot } else a}

/-- No address is in two records of the process. -/
def DisjointOwned (owns : Nat → Bool) (t : List UserVma) : Prop :=
  t.Pairwise fun v u => ∀ va, ¬ (v.OwnedAt owns va ∧ u.OwnedAt owns va)

theorem DisjointOwned.eq {owns : Nat → Bool} (h : DisjointOwned owns t) (hv : v ∈ t) (hu : u ∈ t)
    (h1 : v.OwnedAt owns va) (h2 : u.OwnedAt owns va) : v = u := by
  by_contra hne
  have : Std.Symm fun v u : UserVma => ∀ va, ¬ (v.OwnedAt owns va ∧ u.OwnedAt owns va) :=
    ⟨fun _ _ hvu x hx => hvu x ⟨hx.2, hx.1⟩⟩
  exact h.forall hv hu hne va ⟨h1, h2⟩

theorem ownedAt_of_holdsAddr {owns : Nat → Bool} (howns : owns tid = true)
    (h : v.holdsAddr tid va = true) :
    v.OwnedAt owns va := by
  obtain ⟨hu, rfl, h1, h2⟩ := holdsAddr_iff.mp h
  exact ⟨hu, howns, h1, h2⟩

theorem DisjointOwned.disjointFor {owns : Nat → Bool} (h : DisjointOwned owns t)
    (howns : owns tid = true) :
    DisjointFor tid t :=
  h.imp fun hvu va hh =>
    hvu va ⟨ownedAt_of_holdsAddr howns hh.1, ownedAt_of_holdsAddr howns hh.2⟩

/-! ## Is the range mapped under one id -/

/-- Every address of the range is in a record of the thread. -/
def MappedBy (tid addr fin : Nat) (t : List UserVma) : Prop :=
  ∀ va, addr ≤ va → va < fin → ∃ v ∈ t, v.holdsAddr tid va = true

theorem fullyMappedLoop_iff {n cur : Nat} (hn : fin - cur ≤ n) :
    (fullyMappedLoop tid t fin n cur = true ↔ MappedBy tid cur fin t) := by
  induction n generalizing cur with
  | zero =>
    have hle : fin ≤ cur := by omega
    simp only [fullyMappedLoop, decide_eq_true_eq, hle, true_iff]
    intro va h1 h2
    omega
  | succ n ih =>
    unfold fullyMappedLoop
    split
    next hlt =>
      cases hfind : userVmaFindContainingNolock tid cur t with
      | none =>
        -- `cur` itself is in no record
        simp only [Bool.false_eq_true, false_iff]
        intro hall
        obtain ⟨v, hv, hh⟩ := hall cur (Nat.le_refl _) hlt
        have := findIdx?_eq_none_iff.mp hfind v hv
        exact absurd hh (by rw [show v.holdsAddr tid cur = false from this]; simp)
      | some i =>
        obtain ⟨v, hget, hh, -⟩ := findContaining_some hfind
        obtain ⟨hu, htid, hle, hend⟩ := holdsAddr_iff.mp hh
        dsimp only
        rw [getD_of_getElem? hget, if_neg (by omega), ih (by omega)]
        constructor
        · intro hrest va h1 h2
          by_cases hva : va < v.vend
          · exact ⟨v, mem_of_getElem? hget, holdsAddr_iff.mpr ⟨hu, htid, by omega, hva⟩⟩
          · exact hrest va (by omega) h2
        · intro hall va h1 h2
          exact hall va (by omega) h2
    next hge =>
      simp only [true_iff]
      intro va h1 h2
      omega

theorem isFullyMapped_iff (w : VmaState) (tid : Nat) (hr : addr + len < 2 ^ 64) :
    userVmaIsFullyMapped w tid addr len = true ↔ MappedBy tid addr (addr + len) w.global := by
  unfold userVmaIsFullyMapped
  rw [Nat.mod_eq_of_lt hr]
  exact fullyMappedLoop_iff (Nat.le_refl _)

/-! ## Changing the records of the caller -/

section SetProt

variable {tid sp : Nat} {s s' : Slots}

/-- **What a split does to the files and to the other threads.** Below the split the file of an
address is what it was. If the halves are misplaced, the address of the split had a file and has
none. -/
structure SplitFiles (tid sp : Nat) (s s' : Slots) : Prop where
  below : ∀ va, va < sp → ∀ u' ∈ s'.vmas, u'.holdsAddr tid va = true →
    ∃ u ∈ s.vmas, u.holdsAddr tid va = true ∧ u.file = u'.file
  had : ¬ SplitPlaced tid sp s.vmas → ∃ v ∈ s.vmas, v.holdsAddr tid sp = true ∧ v.file ≠ none
  lost : ¬ SplitPlaced tid sp s.vmas → ∀ u ∈ s'.vmas, u.holdsAddr tid sp = true → u.file = none
  others : ∀ u, u.used = true → u.tid ≠ tid → (u ∈ s'.vmas ↔ u ∈ s.vmas)
  holds : ∀ va, (∃ u ∈ s'.vmas, u.holdsAddr tid va = true) ↔ ∃ u ∈ s.vmas, u.holdsAddr tid va = true

section

variable {i j : Nat} {v l r : UserVma} {t : List UserVma} (h : Divides tid sp i j v t)
    (hl : SameRange l (v.shortened sp)) (hr : SameRange r (v.bareRight sp))

include h hl hr

theorem divided_below (hfile : l.file = v.file) (hva : va < sp) {u' : UserVma}
    (hu' : u' ∈ (t.set j r).set i l) (hh : u'.holdsAddr tid va = true) :
    ∃ u ∈ t, u.holdsAddr tid va = true ∧ u.file = u'.file := by
  rcases mem_divided hu' with rfl | rfl | hmem
  · rw [hl.holdsAddr, shortened_holdsAddr h.toStraddles] at hh
    have := h.below
    refine ⟨v, mem_of_getElem? h.record, ?_, hfile.symm⟩
    rw [straddled_holdsAddr h.toStraddles]
    omega
  · rw [hr.holdsAddr, bareRight_holdsAddr h.toStraddles] at hh
    omega
  · exact ⟨u', hmem, hh, rfl⟩

theorem divided_others (hu : u.used = true) (htid : u.tid ≠ tid) :
    u ∈ (t.set j r).set i l ↔ u ∈ t := by
  obtain ⟨x, hx, hxn⟩ := h.free_slot
  have hne : ∀ y : UserVma, y.tid = tid → ¬ y = u := by
    rintro y hy rfl
    exact htid hy
  have hlt : l.tid = tid := by rw [hl.tid]; exact h.toStraddles.tid_eq
  have hrt : r.tid = tid := by rw [hr.tid]; exact h.toStraddles.tid_eq
  have hmem := exists_mem_split (l := l) (r := r) h.record hx h.ne (P := fun y => y = u)
    (by rintro rfl; rw [hu] at hxn; cases hxn)
    (by simp only [hne v h.toStraddles.tid_eq, hne l hlt, hne r hrt, or_self])
  simpa using hmem

theorem divided_holds (va : Nat) : (∃ u ∈ (t.set j r).set i l, u.holdsAddr tid va = true)
      ↔ ∃ u ∈ t, u.holdsAddr tid va = true := by
  obtain ⟨x, hx, hxn⟩ := h.free_slot
  have := h.inside
  have := h.below
  refine exists_mem_split h.record hx h.ne (by simp [holdsAddr, hxn]) ?_
  rw [hl.holdsAddr, hr.holdsAddr, shortened_holdsAddr h.toStraddles,
    bareRight_holdsAddr h.toStraddles, straddled_holdsAddr h.toStraddles]
  omega

end

/-- After a misplaced split the record at the split address is the half without a file. -/
theorem misplaced_lost {i j : Nat} {l : UserVma} (h : Divides tid sp i j v t)
    (hl : SameRange l (v.shortened sp)) (hd : DisjointFor tid t)
    (hu : u ∈ (t.set j (v.bareRight sp)).set i l) (hh : u.holdsAddr tid sp = true) :
    u.file = none := by
  have hr := sameRange_refl (v.bareRight sp)
  obtain ⟨x, hx, -⟩ := h.free_slot
  have hright : ((t.set j (v.bareRight sp)).set i l)[j]? = some (v.bareRight sp) := by
    rw [getElem?_set_ne h.ne, getElem?_set_eq hx]
  have hholds : (v.bareRight sp).holdsAddr tid sp = true :=
    (bareRight_holdsAddr h.toStraddles).mpr ⟨Nat.le_refl _, h.below⟩
  obtain ⟨k, hk⟩ := mem_iff_getElem?.mp hu
  obtain rfl := (divided_disjoint h hl hr hd).slot_eq hk hright hh hholds
  have hk := Option.mem_unique hright hk
  rw [← hk]
  rfl

theorem splitAt_files (hw : Words s.vmas) (hd : DisjointFor tid s.vmas)
    (hrun : userVmaSplitAtNolock tid sp s = (0, s')) : SplitFiles tid sp s s' := by
  rcases splitAt_cases tid sp hw hd with ⟨he, hno⟩ | he | ⟨i, j, v, h, hp, he⟩
      | ⟨i, j, v, h, hf, hij, he⟩
  · obtain rfl : s = s' := congrArg Prod.snd (he.symm.trans hrun)
    have hplaced : SplitPlaced tid sp s.vmas := by
      intro i j v h
      have := hno v (mem_of_getElem? h.record) h.holds
      have := h.inside
      omega
    exact ⟨fun va _ u hu hh => ⟨u, hu, hh, rfl⟩, fun hn => absurd hplaced hn,
      fun hn => absurd hplaced hn, fun _ _ _ => Iff.rfl, fun _ => Iff.rfl⟩
  · cases he.symm.trans hrun
  · obtain rfl := congrArg Prod.snd (he.symm.trans hrun)
    have hplaced : SplitPlaced tid sp s.vmas := by
      intro k m u hdiv
      obtain ⟨rfl, rfl, rfl⟩ := divides_unique h hdiv
      exact hp
    have hl := sameRange_refl (v.shortened sp)
    have hr := sameRange_filedRight sp v
    exact ⟨fun va hva u hu hh => divided_below h hl hr rfl hva hu hh, fun hn => absurd hplaced hn,
      fun hn => absurd hplaced hn, fun u hu htid => divided_others h hl hr hu htid,
      divided_holds h hl hr⟩
  · obtain rfl := congrArg Prod.snd (he.symm.trans hrun)
    have hl := sameRange_withRightFile sp v (v.shortened sp)
    have hr := sameRange_refl (v.bareRight sp)
    exact ⟨fun va hva u hu hh => divided_below h hl hr rfl hva hu hh,
      fun _ => ⟨v, mem_of_getElem? h.record, h.holds, hf⟩,
      fun _ u hu hh => misplaced_lost h hl hd hu hh,
      fun u hu htid => divided_others h hl hr hu htid, divided_holds h hl hr⟩

end SetProt

theorem setProtIn_other (htid : u.tid ≠ tid) (t : List UserVma) :
    u ∈ t.map (setProtIn tid addr fin prot) ↔ u ∈ t := by
  have hsame : ∀ x : UserVma, x.tid ≠ tid → x.setProtIn tid addr fin prot = x := by
    intro x hx
    unfold setProtIn
    simp [hx]
  rw [mem_map]
  constructor
  · rintro ⟨x, hx, rfl⟩
    rw [(setProtIn_sameRange tid addr fin prot x).tid] at htid
    rw [hsame x htid]
    exact hx
  · intro hu
    exact ⟨u, hu, hsame u htid⟩

theorem page_protectIn (addr fin prot va : Nat) (a : VmaAttr) : (a.protectIn addr fin prot va).page
      = if addr ≤ va ∧ va < fin then { a.page with prot := prot } else a.page := by
  unfold VmaAttr.protectIn
  split <;> rfl

/-- The tables a successful `user_vma_set_prot` goes through. -/
structure SetProtRun (w : VmaState) (tid addr fin prot : Nat) (s1 s2 : Slots) (w' : VmaState) :
    Prop where
  rel1 : SplitAtRel tid addr ⟨w.global, w.fileRefs⟩ s1
  rel2 : SplitAtRel tid fin s1 s2
  files1 : SplitFiles tid addr ⟨w.global, w.fileRefs⟩ s1
  files2 : SplitFiles tid fin s1 s2
  result : w' = w.withGlobal ⟨s2.vmas.map (UserVma.setProtIn tid addr fin prot), s2.refs⟩

theorem setProt_run (hwords : Words w.global) (hd : DisjointFor tid w.global)
    (hr : addr + len < 2 ^ 64) (hrc : (userVmaSetProt w tid addr len prot).1 = 0) :
    ∃ s1 s2, userVmaSplitAtNolock tid addr ⟨w.global, w.fileRefs⟩ = (0, s1)
      ∧ userVmaSplitAtNolock tid (addr + len) s1 = (0, s2)
      ∧ SetProtRun w tid addr (addr + len) prot s1 s2 (userVmaSetProt w tid addr len prot).2 := by
  obtain ⟨s1, s2, h1, h2, hrun⟩ := userVmaSetProt_splits hr hrc
  have rel1 := splitAt_rel hwords hd h1
  exact ⟨s1, s2, h1, h2, rel1, splitAt_rel rel1.words rel1.disjoint h2, splitAt_files hwords hd h1,
    splitAt_files rel1.words rel1.disjoint h2, hrun⟩

section Caller

variable {w w' : VmaState} {mm : MmId} {tid addr fin prot : Nat} {s1 s2 : Slots}

section

variable (h : SetProtRun w tid addr fin prot s1 s2 w')

include h

theorem SetProtRun.owns : mmOwns w' mm = mmOwns w mm := by
  rw [h.result]
  exact mmOwns_congr rfl rfl mm

/-- The records of the other threads are where they were. -/
theorem SetProtRun.others (hu : u.used = true) (htid : u.tid ≠ tid) :
    u ∈ w'.global ↔ u ∈ w.global := by
  rw [h.result]
  calc u ∈ s2.vmas.map (setProtIn tid addr fin prot) ↔ u ∈ s2.vmas := setProtIn_other htid s2.vmas
    _ ↔ u ∈ s1.vmas := h.files2.others u hu htid
    _ ↔ u ∈ w.global := h.files1.others u hu htid

/-- What the caller had mapped of the range has the new protection, however the splits are
placed. -/
theorem SetProtRun.covers (hby : MappedBy tid addr fin w.global) (hlo : addr ≤ va)
    (hhi : va < fin) :
    ∃ u ∈ w'.global, u.holdsAddr tid va = true ∧ u.prot = prot := by
  obtain ⟨u, hu, hh⟩ := (h.files2.holds va).mpr ((h.files1.holds va).mpr (hby va hlo hhi))
  obtain ⟨hused, htid, h1, h2⟩ := holdsAddr_iff.mp hh
  rw [h.result]
  refine ⟨_, mem_map_of_mem hu, ?_, ?_⟩
  · rw [(setProtIn_sameRange tid addr fin prot u).holdsAddr]
    exact hh
  · have hin : ¬ u.vend ≤ addr ∧ ¬ fin ≤ u.addr := by omega
    simp [setProtIn, hused, htid, hin]

/-- If both splits are placed right, the records of the caller say what they said, with the new
protection in the range. -/
theorem SetProtRun.caller (hle : addr ≤ fin) (hp1 : SplitPlaced tid addr w.global)
    (hp2 : SplitPlaced tid fin s1.vmas) (va : Nat) (b : VmaAttr) :
    (∃ u ∈ w'.global, u.holdsAddr tid va = true ∧ u.attrAt va = b) ↔
      ∃ v ∈ w.global, v.holdsAddr tid va = true
        ∧ (v.attrAt va).protectIn addr fin prot va = b := by
  have ha1 := (h.rel1.placed hp1).2
  have ha2 := (h.rel2.placed hp2).2
  have hlo := h.rel2.noStraddleBelow addr hle h.rel1.noStraddle
  have hnew : ∀ u ∈ s2.vmas, u.holdsAddr tid va = true →
      (u.setProtIn tid addr fin prot).attrAt va = (u.attrAt va).protectIn addr fin prot va :=
    fun u hu hh => setProtIn_attrAt hu hlo h.rel2.noStraddle hh
  rw [h.result]
  constructor
  · rintro ⟨u', hu', hh, rfl⟩
    obtain ⟨u, hu, rfl⟩ := mem_map.mp hu'
    rw [(setProtIn_sameRange tid addr fin prot u).holdsAddr] at hh
    obtain ⟨v, hv, hhv, hav⟩ := (ha1 va _).mp ((ha2 va _).mp ⟨u, hu, hh, rfl⟩)
    exact ⟨v, hv, hhv, by rw [hav, hnew u hu hh]⟩
  · rintro ⟨v, hv, hh, rfl⟩
    obtain ⟨u, hu, hhu, hau⟩ := (ha2 va _).mpr ((ha1 va _).mpr ⟨v, hv, hh, rfl⟩)
    refine ⟨_, mem_map_of_mem hu, ?_, by rw [hnew u hu hhu, hau]⟩
    rw [(setProtIn_sameRange tid addr fin prot u).holdsAddr]
    exact hhu

end

variable {va len : Nat} {v : UserVma}

theorem holdsAddr_of_ownedAt {owns : Nat → Bool} (h : v.OwnedAt owns va) (htid : v.tid = tid) :
    v.holdsAddr tid va = true :=
  holdsAddr_iff.mpr ⟨h.1, htid, h.2.2.1, h.2.2.2⟩

/-- In a range the caller has mapped there is no record of another thread of the process. -/
theorem mappedBy_tid (hd : DisjointOwned (mmOwns w mm) w.global) (htid : mmOwns w mm tid = true)
    (hby : MappedBy tid addr fin w.global) (hv : v ∈ w.global) (ho : v.OwnedAt (mmOwns w mm) va)
    (h1 : addr ≤ va) (h2 : va < fin) : v.tid = tid := by
  obtain ⟨u, hu, hh⟩ := hby va h1 h2
  rw [hd.eq hv hu ho (ownedAt_of_holdsAddr htid hh)]
  exact (holdsAddr_iff.mp hh).2.1

/-- **Placed right, `user_vma_set_prot` changes the protection of the range and nothing else.** -/
theorem SetProtRun.exact_of_placed (h : SetProtRun w tid addr (addr + len) prot s1 s2 w')
    (hd : DisjointOwned (mmOwns w mm) w.global) (htid : mmOwns w mm tid = true)
    (hby : MappedBy tid addr (addr + len) w.global) (hp1 : SplitPlaced tid addr w.global)
    (hp2 : SplitPlaced tid (addr + len) s1.vmas) :
    processMap w' mm = protectMap addr len prot (processMap w mm) := by
  have hcaller := h.caller (Nat.le_add_right addr len) hp1 hp2
  ext ⟨va, a⟩
  simp only [processMap, protectMap, Set.mem_ofPred_eq, h.owns]
  constructor
  · rintro ⟨u, hu, ho, rfl⟩
    by_cases hut : u.tid = tid
    · obtain ⟨v, hv, hh, hb⟩ := (hcaller va _).mp ⟨u, hu, holdsAddr_of_ownedAt ho hut, rfl⟩
      refine ⟨_, ⟨v, hv, ownedAt_of_holdsAddr htid hh, rfl⟩, ?_⟩
      rw [← hb, page_protectIn]
    · have hold := (h.others ho.1 hut).mp hu
      refine ⟨_, ⟨u, hold, ho, rfl⟩, ?_⟩
      rw [if_neg fun hin => hut (mappedBy_tid hd htid hby hold ho hin.1 hin.2)]
  · rintro ⟨b, ⟨v, hv, ho, rfl⟩, ha⟩
    by_cases hvt : v.tid = tid
    · obtain ⟨u, hu, hh, hb⟩ := (hcaller va _).mpr ⟨v, hv, holdsAddr_of_ownedAt ho hvt, rfl⟩
      refine ⟨u, hu, ownedAt_of_holdsAddr htid hh, ?_⟩
      rw [hb, page_protectIn, ha]
    · refine ⟨v, (h.others ho.1 hvt).mpr hv, ho, ?_⟩
      rw [ha, if_neg fun hin => hvt (mappedBy_tid hd htid hby hv ho hin.1 hin.2)]

/-- An address that had a file has one after a change of protection. -/
theorem exact_keeps_file (hmap : processMap w' mm = protectMap addr len prot (processMap w mm))
    (howns : mmOwns w' mm = mmOwns w mm) (hv : v ∈ w.global) (ho : v.OwnedAt (mmOwns w mm) va)
    (hf : v.file ≠ none) : ∃ u ∈ w'.global, u.OwnedAt (mmOwns w mm) va ∧ u.file ≠ none := by
  have hback : ∀ x : UserVma, (x.attrAt va).page.backing = none ↔ x.file = none := by
    intro x
    simp [attrAt, VmaAttr.page]
  have hin : (va, if addr ≤ va ∧ va < addr + len then { (v.attrAt va).page with prot := prot }
      else (v.attrAt va).page) ∈ processMap w' mm := by
    rw [hmap]
    exact ⟨_, ⟨v, hv, ho, rfl⟩, rfl⟩
  obtain ⟨u, hu, hou, hpage⟩ := hin
  rw [howns] at hou
  refine ⟨u, hu, hou, fun hnone => hf ?_⟩
  rw [← hback] at hnone ⊢
  rw [hpage] at hnone
  split at hnone
  · exact hnone
  · exact hnone

/-- A misplaced half takes the file away from the address of the split. -/
theorem SetProtRun.placed_of_exact (h : SetProtRun w tid addr (addr + len) prot s1 s2 w')
    (hlen : 0 < len) (hd : DisjointOwned (mmOwns w mm) w.global) (htid : mmOwns w mm tid = true)
    (hmap : processMap w' mm = protectMap addr len prot (processMap w mm)) :
    SplitPlaced tid addr w.global ∧ SplitPlaced tid (addr + len) s1.vmas := by
  -- where the caller had a record with a file, it still has one
  have hkeep : ∀ va, (∃ v ∈ w.global, v.holdsAddr tid va = true ∧ v.file ≠ none) →
      ∃ u ∈ s2.vmas, u.holdsAddr tid va = true ∧ u.file ≠ none := by
    rintro va ⟨v, hv, hh, hf⟩
    have hov := ownedAt_of_holdsAddr htid hh
    obtain ⟨u, hu, hou, hfu⟩ := exact_keeps_file hmap h.owns hv hov hf
    have hut : u.tid = tid := by
      by_contra hne
      rw [hd.eq ((h.others hou.1 hne).mp hu) hv hou hov] at hne
      exact hne (holdsAddr_iff.mp hh).2.1
    rw [h.result] at hu
    obtain ⟨x, hx, rfl⟩ := mem_map.mp hu
    have hhx := holdsAddr_of_ownedAt hou hut
    rw [(setProtIn_sameRange tid addr (addr + len) prot x).holdsAddr] at hhx
    rw [setProtIn_file] at hfu
    exact ⟨x, hx, hhx, hfu⟩
  have hp1 : SplitPlaced tid addr w.global := by
    by_contra hbad
    obtain ⟨u2, hu2, hh2, hf2⟩ := hkeep addr (h.files1.had hbad)
    obtain ⟨u1, hu1, hh1, hf1⟩ := h.files2.below addr (by omega) u2 hu2 hh2
    rw [h.files1.lost hbad u1 hu1 hh1] at hf1
    exact hf2 hf1.symm
  refine ⟨hp1, ?_⟩
  by_contra hbad
  obtain ⟨v1, hv1, hh1, hf1⟩ := h.files2.had hbad
  obtain ⟨v, hv, hh, hav⟩ := ((h.rel1.placed hp1).2 (addr + len) _).mp ⟨v1, hv1, hh1, rfl⟩
  have hfile : v.file ≠ none := by
    intro hnone
    have hb := congrArg VmaAttr.backing hav
    simp [attrAt, hnone] at hb
    exact hf1 hb
  obtain ⟨u, hu, hhu, hfu⟩ := hkeep (addr + len) ⟨v, hv, hh, hfile⟩
  exact hfu (h.files2.lost hbad u hu hhu)

end Caller

/-! ## Registering the range anew -/

section Anew

variable {w : VmaState} {mm : MmId}

theorem mem_processMap_iff (hw : NoWrap w.global) {a : PageAttr} :
    (va, a) ∈ processMap w mm ↔ ∃ b, (va, b) ∈ view (mmOwns w mm) w.global ∧ b.page = a := by
  constructor
  · rintro ⟨v, hv, ⟨hu, ho, h1, h2⟩, ha⟩
    rw [show v.vend = v.addr + v.len from Nat.mod_eq_of_lt (hw v hv hu)] at h2
    exact ⟨_, ⟨v, hv, hu, ho, h1, h2, rfl⟩, ha⟩
  · rintro ⟨b, ⟨v, hv, hu, ho, h1, h2, hb⟩, ha⟩
    refine ⟨v, hv, ⟨hu, ho, h1, ?_⟩, (congrArg VmaAttr.page hb).trans ha⟩
    rw [show v.vend = v.addr + v.len from Nat.mod_eq_of_lt (hw v hv hu)]
    exact h2

/-- Adding a range of which nothing is mapped fills a free slot. -/
theorem addNolock_view {owns : Nat → Bool} {t' : List UserVma} (prot : Nat) (kind : VmaKind)
    (hfresh : ¬ MapsAt owns t addr) (howns : owns tid = true) (hlen : 0 < len)
    (hrun : userVmaAddNolock tid addr len prot kind t = (0, t')) (va : Nat) (b : VmaAttr) :
    (va, b) ∈ view owns t'
      ↔ ((addr ≤ va ∧ va < addr + len) ∧ b = ⟨tid, prot, kind, none⟩) ∨ (va, b) ∈ view owns t := by
  unfold userVmaAddNolock at hrun
  split at hrun
  next i hi =>
    -- an equal record would map `addr`
    exfalso
    obtain ⟨hlt, hp, -⟩ := findIdx?_eq_some_iff_getElem.mp hi
    simp only [Bool.and_eq_true, beq_iff_eq] at hp
    obtain ⟨⟨⟨⟨hu, rfl⟩, rfl⟩, rfl⟩, -⟩ := hp
    exact hfresh ⟨t[i], getElem_mem hlt, hu, howns, Nat.le_refl _, by omega⟩
  next =>
    split at hrun
    next i hi =>
      obtain ⟨u, hget, hu⟩ := freeSlot_some hi
      obtain rfl := congrArg Prod.snd hrun
      refine (exists_mem_set_new hget _ (fun hm => ?_)).trans (or_congr_left ?_)
      · rw [hm.1] at hu
        cases hu
      simp only [UserVma.Maps, howns, attrAt, Option.map_none, true_and]
      constructor
      · rintro ⟨h1, h2, rfl⟩
        exact ⟨⟨h1, h2⟩, rfl⟩
      · rintro ⟨⟨h1, h2⟩, rfl⟩
        exact ⟨h1, h2, rfl⟩
    next => cases hrun

theorem userVmaAdd_global {w : VmaState} {tid addr len prot : Nat} {kind : VmaKind}
    {r : Int × VmaState} (hr : userVmaAdd kmallocOk w tid addr len prot kind = r) :
    r.1 = (userVmaAddNolock tid addr len prot kind w.global).1
      ∧ r.2.global = (userVmaAddNolock tid addr len prot kind w.global).2
      ∧ r.2.threads = w.threads ∧ r.2.threadCount = w.threadCount := by
  subst hr
  unfold userVmaAdd
  split
  · exact ⟨rfl, rfl, rfl, rfl⟩
  next mm _ =>
    obtain ⟨⟨h1, h2⟩, h3⟩ := addMm_frame kmallocOk (w.withGlobal
      ⟨(userVmaAddNolock tid addr len prot kind w.global).2, w.fileRefs⟩) mm addr len prot kind rfl
    exact ⟨rfl, h3, h1, h2⟩

variable {t : Thread} {addr len prot : Nat}

section

variable (ht : Live w mm t) (hglobal : NoWrap w.global)
  (hstorage : ∀ s, w.storage mm = some s → NoWrap s) (hr : addr + len < 2 ^ 64)
  (hlen : 0 < len) {w1 : VmaState}

include ht hglobal hstorage hr hlen

/-- **The map after the range has been unmapped and registered anew**: outside the range as before,
inside anonymous memory with the new protection. -/
theorem remap_map (h1 : userVmaUnmapRange w t.tid addr len = (0, w1))
    (h2 : userVmaAdd kmallocOk w1 t.tid addr len prot .mmap = (0, w2)) (va : Nat) (a : PageAttr) :
    (va, a) ∈ processMap w2 mm ↔ ((addr ≤ va ∧ va < addr + len) ∧ a = ⟨prot, .mmap, none⟩)
        ∨ ((va, a) ∈ processMap w mm ∧ ¬ (addr ≤ va ∧ va < addr + len)) := by
  rcases userVmaUnmapRange_cases ht.get ht.space hglobal hstorage hr with
    ⟨-, hrun⟩ | ⟨w', hrun, hok, hgw, -⟩
  · cases hrun.symm.trans h1
  obtain rfl : w' = w1 := congrArg Prod.snd (hrun.symm.trans h1)
  obtain ⟨hrc, hg2, hth, hcount⟩ := userVmaAdd_global h2
  have howns1 : mmOwns w' mm = mmOwns w mm := mmOwns_congr hok.threads.1 hok.threads.2 mm
  have howns2 : mmOwns w2 mm = mmOwns w mm := (mmOwns_congr hth hcount mm).trans howns1
  have hview := hok.global.view
  rw [matches_eq_mmOwns ht.space] at hview
  have hfresh : ¬ MapsAt (mmOwns w mm) w'.global addr := by
    rw [mapsAt_iff_view, hview]
    rintro ⟨b, -, hout⟩
    exact hout ⟨Nat.le_refl _, by omega⟩
  have hadd := addNolock_view prot .mmap hfresh ht.owns hlen (Prod.ext hrc.symm hg2.symm) va
  have hw2 : NoWrap w2.global := by
    rw [hg2]
    exact (addNolock_keeps t.tid prot .mmap hgw hr).2
  rw [mem_processMap_iff hw2, mem_processMap_iff hglobal, howns2]
  simp only [hadd, hview, unmapView, Set.mem_sep_iff]
  constructor
  · rintro ⟨b, ⟨hin, rfl⟩ | ⟨hb, hout⟩, rfl⟩
    · exact .inl ⟨hin, rfl⟩
    · exact .inr ⟨⟨b, hb, rfl⟩, hout⟩
  · rintro (⟨hin, rfl⟩ | ⟨⟨b, hb, rfl⟩, hout⟩)
    · exact ⟨_, .inl ⟨hin, rfl⟩, rfl⟩
    · exact ⟨b, .inr ⟨hb, hout⟩, rfl⟩

/-- Registering anew keeps the map exactly if the range was anonymous memory before. -/
theorem remap_exact_iff (hmapped : ∀ va, addr ≤ va → va < addr + len → ∃ a,
    (va, a) ∈ processMap w mm) (h1 : userVmaUnmapRange w t.tid addr len = (0, w1))
    (h2 : userVmaAdd kmallocOk w1 t.tid addr len prot .mmap = (0, w2)) :
    processMap w2 mm = protectMap addr len prot (processMap w mm)
      ↔ ∀ va a, (va, a) ∈ processMap w mm → addr ≤ va → va < addr + len →
          a.kind = .mmap ∧ a.backing = none := by
  have hmap := remap_map ht hglobal hstorage hr hlen h1 h2
  constructor
  · intro heq va a ha hlo hhi
    have hin : (va, { a with prot := prot }) ∈ processMap w2 mm := by
      rw [heq]
      exact ⟨a, ha, (if_pos ⟨hlo, hhi⟩).symm⟩
    rcases (hmap va _).mp hin with ⟨-, hnew⟩ | ⟨-, hout⟩
    · injection hnew with _ hkind hback
      exact ⟨hkind, hback⟩
    · exact absurd ⟨hlo, hhi⟩ hout
  · intro hanon
    have hnew : ∀ va a, (va, a) ∈ processMap w mm → addr ≤ va → va < addr + len →
        { a with prot := prot } = (⟨prot, .mmap, none⟩ : PageAttr) := by
      intro va a ha hlo hhi
      obtain ⟨hkind, hback⟩ := hanon va a ha hlo hhi
      rw [hkind, hback]
    ext ⟨va, a⟩
    rw [hmap]
    constructor
    · rintro (⟨⟨hlo, hhi⟩, rfl⟩ | ⟨ha, hout⟩)
      · obtain ⟨b, hb⟩ := hmapped va hlo hhi
        exact ⟨b, hb, by rw [if_pos ⟨hlo, hhi⟩, hnew va b hb hlo hhi]⟩
      · exact ⟨a, ha, (if_neg hout).symm⟩
    · rintro ⟨b, hb, ha⟩
      by_cases hin : addr ≤ va ∧ va < addr + len
      · rw [if_pos hin] at ha
        exact .inl ⟨hin, ha.trans (hnew va b hb hin.1 hin.2)⟩
      · rw [if_neg hin] at ha
        dsimp only at ha hb
        rw [ha]
        exact .inr ⟨hb, hin⟩

end

end Anew

/-! ## The call as a whole -/

/-- The tables for which a call of thread `tid` keeps the map: the caller has mapped the whole range
and its records are divided correctly, or the range is anonymous memory. -/
def KeepsMap (w : VmaState) (mm : MmId) (tid addr len : Nat) : Prop :=
  len = 0 ∨ (MappedBy tid addr (addr + len) w.global ∧ SplitPlaced tid addr w.global
        ∧ SplitPlacedNext tid addr (addr + len) w.global)
    ∨ (¬ MappedBy tid addr (addr + len) w.global
        ∧ ∀ va a, (va, a) ∈ processMap w mm → addr ≤ va → va < addr + len → a.kind = .mmap
        ∧ a.backing = none)

theorem mprotectRecords_cases (hr : addr + len < 2 ^ 64)
    (h : mprotectRecords kmallocOk pt w tid addr len prot = (0, w2)) :
    (MappedBy tid addr (addr + len) w.global ∧ userVmaSetProt w tid addr len prot = (0, w2))
      ∨ ¬ MappedBy tid addr (addr + len) w.global ∧ ∃ w1, userVmaUnmapRange w tid addr len = (0, w1)
          ∧ userVmaAdd kmallocOk w1 tid addr len prot .mmap = (0, w2) := by
  rw [← isFullyMapped_iff w tid hr]
  unfold mprotectRecords at h
  cases hfull : userVmaIsFullyMapped w tid addr len with
  | true =>
    simp only [hfull, Bool.not_true, Bool.false_eq_true, if_false] at h
    split at h
    next w1 hset =>
      obtain rfl : w1 = w2 := congrArg Prod.snd h
      exact .inl ⟨rfl, hset⟩
    next => cases congrArg Prod.fst h
  | false =>
    simp only [hfull, Bool.not_false, if_true] at h
    split at h
    · cases congrArg Prod.fst h
    split at h
    next w1 hunmap =>
      split at h
      next w3 hadd =>
        obtain rfl : w3 = w2 := congrArg Prod.snd h
        exact .inr ⟨Bool.false_ne_true, w1, hunmap, hadd⟩
      next => cases congrArg Prod.fst h
    next => cases congrArg Prod.fst h

/-- A call that returns `0` has passed the checks and changed or replaced the records. -/
theorem mprotect_ok {tcur : Option Thread} (hlen : len ≠ 0)
    (hrc : (userSyscallMprotect kmallocOk pt w tcur addr len prot).1 = 0) :
    (addr + alignUp4K len) % 2 ^ 64 < MMIO_IDENTITY_LIMIT ∧ addr ≤ (addr + alignUp4K len) % 2 ^ 64
      ∧ mprotectRecords kmallocOk pt w ((tcur.map Thread.recordTid).getD 1) addr
        (alignUp4K len) (prot % 2 ^ 32)
        = (0, (userSyscallMprotect kmallocOk pt w tcur addr len prot).2) := by
  generalize hres : userSyscallMprotect kmallocOk pt w tcur addr len prot = res at hrc ⊢
  unfold userSyscallMprotect at hres
  simp only [if_neg hlen] at hres
  have hbad : ∀ e w1, e ≠ 0 → (e, w1) ≠ res := by
    rintro e w1 he rfl
    exact he hrc
  split at hres
  · exact absurd hres (hbad _ _ (by decide))
  split at hres
  · exact absurd hres (hbad _ _ (by decide))
  next hlimit =>
  split at hres
  · exact absurd hres (hbad _ _ (by decide))
  split at hres
  · exact absurd hres (hbad _ _ (by decide))
  next hprot =>
  have hsmall : prot % 2 ^ 32 < 8 := by omega
  rw [Nat.mod_eq_of_lt hsmall] at hres
  split at hres
  · exact absurd hres (hbad _ _ (by decide))
  split at hres
  next w1 hrecords =>
    split at hres
    · exact absurd hres (hbad _ _ (by decide))
    next hchecked =>
      unfold checkedRange at hchecked
      split at hchecked
      · exact absurd hchecked (by decide)
      · exact ⟨by omega, by omega, by rw [hrecords, ← hres]⟩
  next e w1 hne hrecords => exact absurd hres (hbad _ _ hne)

/-- **`mprotect` keeps everything but the protection exactly for the tables of `KeepsMap`.** The
range is mapped, by records of any threads of the process; the records of the process are
disjoint. -/
theorem userSyscallMprotect_exact_iff (kmallocOk : Bool) (pt : PageTableResults) (w : VmaState)
    (mm : MmId) (t : Thread) (addr len prot : Nat) (ht : Live w mm t) (hwords : Words w.global)
    (hglobal : NoWrap w.global) (hstorage : ∀ s, w.storage mm = some s → NoWrap s)
    (hdisjoint : DisjointOwned (mmOwns w mm) w.global) (halign : len % 4096 = 0) (hprot : prot < 8)
    (hmapped : ∀ va, addr ≤ va → va < addr + len → ∃ a, (va, a) ∈ processMap w mm)
    (hrc : (userSyscallMprotect kmallocOk pt w (some t) addr len prot).1 = 0) :
    processMap (userSyscallMprotect kmallocOk pt w (some t) addr len prot).2 mm
        = protectMap addr len prot (processMap w mm) ↔ KeepsMap w mm t.tid addr len := by
  rcases Nat.eq_zero_or_pos len with rfl | hlen
  · -- nothing is done for an empty range
    refine iff_of_true ?_ (.inl rfl)
    have hsame : userSyscallMprotect kmallocOk pt w (some t) addr 0 prot = (0, w) := by
      unfold userSyscallMprotect
      exact if_pos rfl
    have hnot : ∀ va, ¬ (addr ≤ va ∧ va < addr) := by omega
    rw [hsame]
    ext ⟨va, a⟩
    simp [protectMap, hnot]
  · -- the last address of the range is in a record, which does not wrap
    have hr : addr + len < 2 ^ 64 := by
      obtain ⟨a, v, hv, ⟨hu, -, -, hend⟩, -⟩ := hmapped (addr + len - 1) (by omega) (by omega)
      have := hglobal v hv hu
      rw [show v.vend = v.addr + v.len from Nat.mod_eq_of_lt this] at hend
      omega
    have hup : alignUp4K len = len := by
      unfold alignUp4K
      omega
    have hrun := (mprotect_ok (Nat.ne_of_gt hlen) hrc).2.2
    rw [hup, Nat.mod_eq_of_lt (by omega : prot < 2 ^ 32),
      show ((some t).map Thread.recordTid).getD 1 = t.tid from if_neg ht.tid] at hrun
    unfold KeepsMap
    rcases mprotectRecords_cases hr hrun with ⟨hby, hset⟩ | ⟨hby, w1, hunmap, hadd⟩
    · obtain ⟨s1, s2, h1, h2, hrun⟩ := setProt_run hwords (hdisjoint.disjointFor ht.owns) hr
        (congrArg Prod.fst hset)
      rw [hset] at hrun
      have hiff : processMap (userSyscallMprotect kmallocOk pt w (some t) addr len prot).2 mm
          = protectMap addr len prot (processMap w mm)
            ↔ SplitPlaced t.tid addr w.global ∧ SplitPlaced t.tid (addr + len) s1.vmas :=
        ⟨hrun.placed_of_exact hlen hdisjoint ht.owns,
          fun hp => hrun.exact_of_placed hdisjoint ht.owns hby hp.1 hp.2⟩
      have hnext := fun hp : SplitPlaced t.tid addr w.global => splitPlaced_next_iff hwords
        (hdisjoint.disjointFor ht.owns) (Nat.le_add_right addr len) h1 h2 hp
      simp only [hiff, and_congr_right hnext, hby, Nat.ne_of_gt hlen, true_and, not_true_eq_false,
        false_and, or_false, false_or]
    · simp only [remap_exact_iff ht hglobal hstorage hr hlen hmapped hunmap hadd, hby,
        Nat.ne_of_gt hlen, false_and, not_false_eq_true, true_and, false_or]

/-- Threads `2` and `3` share the address space `7`. Thread `2` has mapped a file at `0x10000000`,
thread `3` anonymous memory at `0x20000000`. -/
def twoOwners : VmaState :=
  { threads := [none, none, some ⟨2, 3, some 7⟩, some ⟨3, 3, some 7⟩]
    threadCount := 4
    global := [⟨true, 2, 0x10000000, 0x2000, 5, .mmapLazy, some 9, 0x400⟩,
      ⟨true, 3, 0x20000000, 0x2000, 3, .mmap, none, 0⟩, default, default]
    storage := fun _ => none
    fileRefs := fun f => if f = 9 then 1 else 0 }

instance (owns : Nat → Bool) (va : Nat) (v : UserVma) : Decidable (v.OwnedAt owns va) :=
  inferInstanceAs (Decidable (_ ∧ _ ∧ _ ∧ _))

theorem twoOwners_disjoint : DisjointOwned (mmOwns twoOwners 7) twoOwners.global := by
  simp only [DisjointOwned, twoOwners, UserVma.OwnedAt, vend, pairwise_cons, mem_cons, not_mem_nil,
    or_false, forall_eq_or_imp, forall_eq, List.Pairwise.nil]
  refine ⟨⟨?_, ?_⟩, ?_⟩
  all_goals simp [default]
  all_goals omega

/-- Thread `2` makes the first page of the other thread's memory read-only. -/
theorem userSyscallMprotect_exact_sibling :
    (userSyscallMprotect true ⟨0, 0, 0⟩ twoOwners (some ⟨2, 3, some 7⟩) 0x20000000 0x1000 1).1 = 0
      ∧ processMap
        (userSyscallMprotect true ⟨0, 0, 0⟩ twoOwners (some ⟨2, 3, some 7⟩) 0x20000000 0x1000 1).2 7
        = protectMap 0x20000000 0x1000 1 (processMap twoOwners 7) := by
  refine ⟨by decide, (userSyscallMprotect_exact_iff true ⟨0, 0, 0⟩ twoOwners 7 ⟨2, 3, some 7⟩
    0x20000000 0x1000 1 ⟨by decide, by decide, by decide, rfl, rfl⟩ (by unfold Words; decide)
    (by unfold NoWrap; decide) nofun twoOwners_disjoint (by decide) (by decide)
    ?_ (by decide)).mpr (.inr (.inr ⟨?_, ?_⟩))⟩
  · intro va h1 h2
    refine ⟨_, mem_processMap (v := ⟨true, 3, 0x20000000, 0x2000, 3, .mmap, none, 0⟩) (by decide)
      ⟨rfl, by decide, h1, ?_⟩⟩
    simp only [vend]
    omega
  · intro hby
    exact absurd (hby 0x20000000 (by decide) (by decide)) (by decide)
  · rintro va a ⟨v, hv, ⟨hu, ho, h1, h2⟩, ha⟩ hlo hhi
    simp only [twoOwners, mem_cons, not_mem_nil, or_false] at hv
    dsimp only at ha
    rw [← ha]
    rcases hv with rfl | rfl | rfl | rfl
    · simp only [vend] at h2
      omega
    · exact ⟨rfl, rfl⟩
    · cases hu
    · cases hu

/-- Thread `3` makes the first page of the file mapping of thread `2` read-only: the file is
gone. -/
theorem userSyscallMprotect_exact_fails :
    Live twoOwners 7 ⟨3, 3, some 7⟩ ∧ DisjointOwned (mmOwns twoOwners 7) twoOwners.global
      ∧ (∀ va, 0x10000000 ≤ va → va < 0x10000000 + 0x1000 → ∃ a, (va, a) ∈ processMap twoOwners 7)
      ∧ (userSyscallMprotect true ⟨0, 0, 0⟩ twoOwners (some ⟨3, 3, some 7⟩) 0x10000000 0x1000 1).1
      = 0
      ∧ (userSyscallMprotect true ⟨0, 0, 0⟩ twoOwners (some ⟨3, 3, some 7⟩) 0x10000000
        0x1000 1).2.global
        = [⟨true, 3, 0x10000000, 0x1000, 1, .mmap, none, 0⟩,
           ⟨true, 3, 0x20000000, 0x2000, 3, .mmap, none, 0⟩,
           ⟨true, 2, 0x10001000, 0x1000, 5, .mmapLazy, some 9, 0x1400⟩, default]
      ∧ processMap
        (userSyscallMprotect true ⟨0, 0, 0⟩ twoOwners (some ⟨3, 3, some 7⟩) 0x10000000 0x1000 1).2 7
        ≠ protectMap 0x10000000 0x1000 1 (processMap twoOwners 7) := by
  refine ⟨⟨by decide, by decide, by decide, rfl, rfl⟩, twoOwners_disjoint,
    ?_, by decide, by decide, ?_⟩
  · intro va h1 h2
    refine ⟨_, mem_processMap (v := ⟨true, 2, 0x10000000, 0x2000, 5, .mmapLazy, some 9, 0x400⟩)
      (by decide) ⟨rfl, by decide, h1, ?_⟩⟩
    simp only [vend]
    omega
  · intro heq
    have hin : (0x10000000, (⟨1, .mmapLazy, some (9, 0x400)⟩ : PageAttr))
        ∈ protectMap 0x10000000 0x1000 1 (processMap twoOwners 7) :=
      ⟨⟨5, .mmapLazy, some (9, 0x400)⟩,
        ⟨⟨true, 2, 0x10000000, 0x2000, 5, .mmapLazy, some 9, 0x400⟩, by decide, by decide, rfl⟩,
        rfl⟩
    rw [← heq] at hin
    obtain ⟨v, hv, ho, hpage⟩ := hin
    have hkind : ∀ v ∈ (userSyscallMprotect true ⟨0, 0, 0⟩ twoOwners (some ⟨3, 3, some 7⟩)
        0x10000000 0x1000 1).2.global,
        v.OwnedAt
        (mmOwns (userSyscallMprotect true ⟨0, 0, 0⟩ twoOwners (some ⟨3, 3, some 7⟩) 0x10000000
        0x1000 1).2 7) 0x10000000 → v.kind = .mmap := by decide
    have := congrArg PageAttr.kind hpage
    exact absurd ((hkind v hv ho).symm.trans this) (by decide)

/-! ## The range of a call -/

/-- **A call that succeeds has protected its range exactly if the rounding of its length does not
wrap.** A length above `2^64 - 4096` is rounded to `0`. -/
theorem mprotect_range_iff (kmallocOk : Bool) (pt : PageTableResults) (w : VmaState)
    (tcur : Option Thread) (addr len prot : Nat) (haddr : addr < 2 ^ 64) (hlen64 : len < 2 ^ 64)
    (hwords : Words w.global)
    (hdisjoint : DisjointFor ((tcur.map Thread.recordTid).getD 1) w.global) (hlen : len ≠ 0)
    (hrc : (userSyscallMprotect kmallocOk pt w tcur addr len prot).1 = 0) :
    (addr + (len + 4095) / 4096 * 4096 < MMIO_IDENTITY_LIMIT ∧ ∀ va, addr ≤ va → va < addr + len →
        ∃ v ∈ (userSyscallMprotect kmallocOk pt w tcur addr len prot).2.global,
          v.holdsAddr ((tcur.map Thread.recordTid).getD 1) va = true ∧ v.prot = prot % 2 ^ 32)
      ↔ len ≤ 2 ^ 64 - 4096 := by
  obtain ⟨hlimit, horder, hrun⟩ := mprotect_ok hlen hrc
  refine ⟨fun h => ?_, fun hsmall => ?_⟩
  · have := h.1
    unfold MMIO_IDENTITY_LIMIT at this
    omega
  have hup : alignUp4K len = (len + 4095) / 4096 * 4096 := by
    unfold alignUp4K
    rw [Nat.mod_eq_of_lt (by omega)]
  rw [hup] at hlimit horder hrun
  have hr : addr + (len + 4095) / 4096 * 4096 < 2 ^ 64 := by omega
  rw [Nat.mod_eq_of_lt hr] at hlimit
  refine ⟨hlimit, fun va hlo hhi => ?_⟩
  have hin : va < addr + (len + 4095) / 4096 * 4096 := by omega
  rcases mprotectRecords_cases hr hrun with ⟨hby, hset⟩ | ⟨-, w1, -, hadd⟩
  · obtain ⟨s1, s2, -, -, hchange⟩ := setProt_run hwords hdisjoint hr (congrArg Prod.fst hset)
    rw [hset] at hchange
    exact hchange.covers hby hlo hin
  -- registered anew, by one record
  obtain ⟨hadded, hglobal, -⟩ := userVmaAdd_global hadd
  rcases addNolock_cases ((tcur.map Thread.recordTid).getD 1) addr ((len + 4095) / 4096 * 4096)
    (prot % 2 ^ 32) .mmap w1.global with ⟨t', he, v, hv, hp, hprot⟩ | he
  · rw [he] at hglobal
    simp only [Bool.and_eq_true, beq_iff_eq] at hp
    obtain ⟨⟨⟨hused, htid⟩, rfl⟩, hl⟩ := hp
    refine ⟨v, hglobal ▸ hv, holdsAddr_iff.mpr ⟨hused, htid, hlo, ?_⟩, hprot⟩
    rwa [vend, hl, Nat.mod_eq_of_lt hr]
  · rw [he] at hadded
    cases hadded

/-- Half of a page of the file mapping is made read-only. -/
theorem mprotect_range_page :
    (userSyscallMprotect true ⟨0, 0, 0⟩ twoOwners (some ⟨2, 3, some 7⟩) 0x10000000 0x800 1).1 = 0
      ∧ ∀ va, 0x10000000 ≤ va → va < 0x10000000 + 0x800 →
        ∃ v ∈ (userSyscallMprotect true ⟨0, 0, 0⟩ twoOwners (some ⟨2, 3, some 7⟩)
            0x10000000 0x800 1).2.global,
          v.holdsAddr 2 va = true ∧ v.prot = 1 := by
  suffices hrc : _ from ⟨hrc,
    ((mprotect_range_iff true ⟨0, 0, 0⟩ twoOwners (some ⟨2, 3, some 7⟩) 0x10000000 0x800 1
    (by decide) (by decide) (by unfold Words; decide) (twoOwners_disjoint.disjointFor (by decide))
    (by decide) hrc).mpr (by decide)).2⟩
  decide

/-- A length that rounds to `0`: the call succeeds, and there is no record at all. -/
theorem mprotect_range_wraps :
    (userSyscallMprotect true ⟨0, 0, 0⟩ ⟨[], 0, [], fun _ => none, fun _ => 0⟩ none 0x200000
      (2 ^ 64 - 1) 1).1 = 0
      ∧ (userSyscallMprotect true ⟨0, 0, 0⟩ ⟨[], 0, [], fun _ => none, fun _ => 0⟩ none 0x200000
        (2 ^ 64 - 1) 1).2.global
        = [] := by
  decide

end AxonOS.Vma

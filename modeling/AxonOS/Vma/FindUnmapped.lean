import AxonOS.Vma.Agree

/-! # Looking for a free range

`user_vma_find_unmapped` searches upwards and `user_vma_find_unmapped_topdown` downwards for a range
that no record of the address space overlaps. Both read the global store only, and take a record for
theirs if some thread in the table has its thread id and their address space.

`Covered` is the invariant that makes the searches safe: every address that the store of the address
space maps is also mapped by a global record that the searches see. Registering and unmapping keep
it. The exit of a thread does not if the thread has registered a mapping, because its records stay
in the global store but are no longer taken for those of the address space.
-/

namespace AxonOS.Vma

open Lib List Option

/-! ## The searches -/

/-- `user_mm_align_up` in 64 bits. -/
def userMmAlignUp (v a : Nat) : Nat := (v + (a - 1)) % 2 ^ 64 &&& (2 ^ 64 - a)

def userMmAlignDown (v a : Nat) : Nat := v &&& (2 ^ 64 - a)

/-- The alignment that is used: a power of two from 4096 up. -/
def searchAlign (align : Nat) : Nat :=
  let align := if align < 4096 then 4096 else align
  if align &&& (align - 1) ≠ 0 then 4096 else align

/-- The record is one of the runner's, does not wrap, and overlaps `[a0, a1)`. -/
def UserVma.blocks (w : VmaState) (runner : Thread) (a0 a1 : Nat) (v : UserVma) : Bool :=
  v.used && userVmaTidMatchesRunnerMmNolock w (some runner) v.tid && !decide (v.vend < v.addr)
    && !(decide (a1 ≤ v.addr) || decide (v.vend ≤ a0))

def userVmaOverlapEndNolock (w : VmaState) (runner : Thread) (addr len : Nat) : Nat :=
  let a1 := (addr + len) % 2 ^ 64
  if a1 < addr then 2 ^ 64 - 1
  else
    w.global.foldl (fun fin v =>
      if v.blocks w runner addr a1 then (if v.vend > fin then v.vend else fin) else fin) 0

/-- The loop of `user_vma_find_unmapped`. -/
def findUnmappedLoop (w : VmaState) (runner : Thread) (ceil len align : Nat) : Nat → Nat → Nat
  | 0, _ => 0
  | n + 1, cand =>
    if ceil ≤ cand ∨ (cand + len) % 2 ^ 64 > ceil ∨ (cand + len) % 2 ^ 64 < cand then 0
    else
      let block := userVmaOverlapEndNolock w runner cand len
      if block = 0 then cand
      else if block = 2 ^ 64 - 1 then 0
      else
        let next := userMmAlignUp block align
        findUnmappedLoop w runner ceil len align n
        (if next ≤ cand then (cand + align) % 2 ^ 64 else next)

def userVmaFindUnmapped (w : VmaState) (runner : Option Thread) (floor ceil len hint align : Nat) :
    Nat :=
  match runner with
  | none => 0
  | some r =>
    if len = 0 ∨ ceil ≤ floor then 0
    else
      let align := searchAlign align
      if len > ceil - floor then 0
      else
        let h := userMmAlignUp hint align
        if hint ≠ 0 ∧ floor ≤ h ∧ (h + len) % 2 ^ 64 ≤ ceil ∧ h ≤ (h + len) % 2 ^ 64
            ∧ userVmaOverlapEndNolock w r h len = 0 then h
        else findUnmappedLoop w r ceil len align (w.global.length + 16) (userMmAlignUp floor align)

/-- `user_vma_overlap_start_nolock`: the lowest start of a record that overlaps; `0` if there is
none. -/
def userVmaOverlapStartNolock (w : VmaState) (runner : Thread) (addr len : Nat) : Nat :=
  let a1 := (addr + len) % 2 ^ 64
  if a1 < addr then 2 ^ 64 - 1
  else
    let r : Option Nat := w.global.foldl (fun start v =>
      if v.blocks w runner addr a1 then
        match start with
        | none => some v.addr
        | some s => if v.addr < s then some v.addr else some s
      else start) none
    r.getD 0

/-- The loop of `user_vma_find_unmapped_topdown`. -/
def findTopdownLoop (w : VmaState) (runner : Thread) (floor ceil len align : Nat) : Nat → Nat → Nat
  | 0, _ => 0
  | n + 1, cand =>
    if cand < floor ∨ (cand + len) % 2 ^ 64 > ceil then 0
    else
      let ovStart := userVmaOverlapStartNolock w runner cand len
      if ovStart = 0 then cand
      else if ovStart = 2 ^ 64 - 1 then 0
      else if ovStart < (floor + len) % 2 ^ 64 then 0
      else
        let next := userMmAlignDown ((ovStart + 2 ^ 64 - len) % 2 ^ 64) align
        if cand ≤ next then
          if cand < (align + floor) % 2 ^ 64 then 0
          else findTopdownLoop w runner floor ceil len align n ((cand + 2 ^ 64 - align) % 2 ^ 64)
        else findTopdownLoop w runner floor ceil len align n next

def userVmaFindUnmappedTopdown (w : VmaState) (runner : Option Thread)
    (floor ceil len align : Nat) :
    Nat :=
  match runner with
  | none => 0
  | some r =>
    if len = 0 ∨ ceil ≤ floor then 0
    else
      let align := searchAlign align
      if len > ceil - floor then 0
      else
        let cand := userMmAlignDown (ceil - len) align
        if (cand + len) % 2 ^ 64 > ceil then
          if cand < align then 0
          else findTopdownLoop w r floor ceil len align (w.global.length + 16) (cand - align)
        else findTopdownLoop w r floor ceil len align (w.global.length + 16) cand

/-! ## What a search says about the records -/

variable {addr n hint : Nat}

section Search

variable {w : VmaState} {runner : Thread}

variable {len ceil align floor : Nat}

theorem UserVma.blocks_iff {a0 a1 : Nat} {v : UserVma} : v.blocks w runner a0 a1 = true
    ↔ v.used = true ∧ userVmaTidMatchesRunnerMmNolock w (some runner) v.tid = true ∧ v.addr ≤ v.vend
      ∧ v.addr < a1 ∧ a0 < v.vend := by
  simp only [UserVma.blocks, Bool.and_eq_true, Bool.not_eq_true', Bool.or_eq_false_iff,
    decide_eq_false_iff_not, not_lt, not_le, and_assoc]

/-- The end that is reported is that of a record that overlaps, unless there is none. -/
theorem overlapEnd_cases (w : VmaState) (runner : Thread) {len : Nat}
    (hle : addr ≤ (addr + len) % 2 ^ 64) :
    (userVmaOverlapEndNolock w runner addr len = 0
        ∧ ∀ v ∈ w.global, v.blocks w runner addr ((addr + len) % 2 ^ 64) = false)
      ∨ ∃ v ∈ w.global, v.blocks w runner addr ((addr + len) % 2 ^ 64) = true
        ∧ userVmaOverlapEndNolock w runner addr len = v.vend := by
  unfold userVmaOverlapEndNolock
  rw [if_neg (Nat.not_lt.mpr hle)]
  refine foldl_pick (fun fin v hb => if_neg (by rw [hb]; decide)) (fun fin v hb => ?_) w.global
  rw [if_pos hb]
  have hend := (UserVma.blocks_iff.mp hb).2.2.2.2
  split
  · exact .inl rfl
  · exact .inr ⟨rfl, by omega⟩

theorem overlapEnd_zero (h : userVmaOverlapEndNolock w runner addr len = 0) :
    addr ≤ (addr + len) % 2 ^ 64
      ∧ ∀ v ∈ w.global, v.blocks w runner addr ((addr + len) % 2 ^ 64) = false := by
  have hle : addr ≤ (addr + len) % 2 ^ 64 := by
    by_contra hlt
    rw [userVmaOverlapEndNolock, if_pos (Nat.not_le.mp hlt)] at h
    cases h
  refine ⟨hle, ?_⟩
  rcases overlapEnd_cases w runner hle with ⟨-, hnone⟩ | ⟨v, -, hb, he⟩
  · exact hnone
  · have hend := (UserVma.blocks_iff.mp hb).2.2.2.2
    omega

/-- The start that is reported is that of a record that overlaps, unless there is none. -/
theorem overlapStart_cases (w : VmaState) (runner : Thread) {len : Nat}
    (hle : addr ≤ (addr + len) % 2 ^ 64) :
    (userVmaOverlapStartNolock w runner addr len = 0
        ∧ ∀ v ∈ w.global, v.blocks w runner addr ((addr + len) % 2 ^ 64) = false)
      ∨ ∃ v ∈ w.global, v.blocks w runner addr ((addr + len) % 2 ^ 64) = true
        ∧ userVmaOverlapStartNolock w runner addr len = v.addr := by
  unfold userVmaOverlapStartNolock
  rw [if_neg (Nat.not_lt.mpr hle)]
  generalize hr : w.global.foldl _ (none : Option Nat) = r
  have hpick : (r = none ∧ ∀ v ∈ w.global, v.blocks w runner addr ((addr + len) % 2 ^ 64) = false)
      ∨ ∃ v ∈ w.global, v.blocks w runner addr ((addr + len) % 2 ^ 64) = true
      ∧ r = some v.addr := by
    rw [← hr]
    refine foldl_pick (fun _ v hb => if_neg (by rw [hb]; decide)) (fun start v hb => ?_) w.global
    rw [if_pos hb]
    cases start with
    | none => exact .inl rfl
    | some s =>
      dsimp only
      split
      · exact .inl rfl
      · exact .inr ⟨rfl, some_ne_none s⟩
  rcases hpick with ⟨rfl, hnone⟩ | ⟨v, hv, hb, rfl⟩
  · exact .inl ⟨rfl, hnone⟩
  · exact .inr ⟨v, hv, hb, rfl⟩

theorem overlapStart_zero (h : userVmaOverlapStartNolock w runner addr len = 0) :
    addr ≤ (addr + len) % 2 ^ 64
        ∧ ((∀ v ∈ w.global, v.blocks w runner addr ((addr + len) % 2 ^ 64) = false)
        ∨ ∃ v ∈ w.global, v.blocks w runner addr ((addr + len) % 2 ^ 64) = true ∧ v.addr = 0) := by
  have hle : addr ≤ (addr + len) % 2 ^ 64 := by
    by_contra hlt
    rw [userVmaOverlapStartNolock, if_pos (Nat.not_le.mp hlt)] at h
    cases h
  refine ⟨hle, ?_⟩
  rcases overlapStart_cases w runner hle with ⟨-, hnone⟩ | ⟨v, hv, hb, he⟩
  · exact .inl hnone
  · exact .inr ⟨v, hv, hb, he.symm.trans h⟩

variable {P : Nat → Prop} {cand r : Nat}

/-- What holds of the first place and is kept from each place to the next holds of the address
found. -/
theorem findUnmappedLoop_found
    (hnext : ∀ cand block, cand < ceil → P cand →
    P (if userMmAlignUp block align ≤ cand then (cand + align) % 2 ^ 64
    else userMmAlignUp block align)) (hP : P cand)
    (h : findUnmappedLoop w runner ceil len align n cand = r) (hr : r ≠ 0) :
    P r ∧ (r + len) % 2 ^ 64 ≤ ceil ∧ userVmaOverlapEndNolock w runner r len = 0 := by
  induction n generalizing cand r with
  | zero => exact absurd h.symm hr
  | succ n ih =>
    unfold findUnmappedLoop at h
    dsimp only at h
    split at h
    · exact absurd h.symm hr
    next hroom =>
    split at h
    next hz =>
      subst h
      exact ⟨hP, by omega, hz⟩
    next =>
      split at h
      · exact absurd h.symm hr
      · exact ih (hnext cand _ (by omega) hP) h hr

theorem findTopdownLoop_found (hdown : ∀ v, P (userMmAlignDown v align))
    (hnext : ∀ cand, P cand → P ((cand + 2 ^ 64 - align) % 2 ^ 64)) (hP : P cand)
    (h : findTopdownLoop w runner floor ceil len align n cand = r) (hr : r ≠ 0) :
    P r ∧ floor ≤ r ∧ (r + len) % 2 ^ 64 ≤ ceil ∧ userVmaOverlapStartNolock w runner r len = 0 := by
  induction n generalizing cand r with
  | zero => exact absurd h.symm hr
  | succ n ih =>
    unfold findTopdownLoop at h
    dsimp only at h
    split at h
    · exact absurd h.symm hr
    next hroom =>
    split at h
    next hz =>
      subst h
      exact ⟨hP, by omega, by omega, hz⟩
    next =>
    split at h
    · exact absurd h.symm hr
    split at h
    · exact absurd h.symm hr
    split at h
    · split at h
      · exact absurd h.symm hr
      · exact ih (hnext cand hP) h hr
    · exact ih (hdown _) h hr

/-- **An address found by the upward search** is one at which nothing overlaps. -/
theorem findUnmapped_free (h : userVmaFindUnmapped w (some runner) floor ceil len hint align ≠ 0) :
    userVmaOverlapEndNolock w runner
      (userVmaFindUnmapped w (some runner) floor ceil len hint align) len = 0 := by
  generalize hr : userVmaFindUnmapped w (some runner) floor ceil len hint align = r at h ⊢
  unfold userVmaFindUnmapped at hr
  dsimp only at hr
  split at hr
  · exact absurd hr.symm h
  split at hr
  · exact absurd hr.symm h
  split at hr
  next hhint =>
    rw [← hr]
    exact hhint.2.2.2.2
  next =>
    exact (findUnmappedLoop_found (P := fun _ => True) (fun _ _ _ _ => trivial) trivial hr h).2.2

theorem findUnmappedTopdown_free
    (h : userVmaFindUnmappedTopdown w (some runner) floor ceil len align ≠ 0) :
    userVmaOverlapStartNolock w runner
      (userVmaFindUnmappedTopdown w (some runner) floor ceil len align) len = 0 := by
  generalize hr : userVmaFindUnmappedTopdown w (some runner) floor ceil len align = r at h ⊢
  unfold userVmaFindUnmappedTopdown at hr
  dsimp only at hr
  split at hr
  · exact absurd hr.symm h
  split at hr
  · exact absurd hr.symm h
  split at hr
  · split at hr
    · exact absurd hr.symm h
    · exact (findTopdownLoop_found (P := fun _ => True) (fun _ => trivial)
        (fun _ _ => trivial) trivial hr h).2.2.2
  · exact (findTopdownLoop_found (P := fun _ => True) (fun _ => trivial)
      (fun _ _ => trivial) trivial hr h).2.2.2

end Search

/-! ## Addresses that are mapped -/

/-- Some record of the address space maps `va`. -/
def MapsAt (owns : Nat → Bool) (t : List UserVma) (va : Nat) : Prop :=
  ∃ v ∈ t, v.used = true ∧ owns v.tid = true ∧ v.addr ≤ va ∧ va < v.addr + v.len

theorem mapsAt_iff_view {owns : Nat → Bool} {t : List UserVma} {va : Nat} :
    MapsAt owns t va ↔ ∃ a, (va, a) ∈ view owns t := by
  constructor
  · rintro ⟨v, hv, hu, ho, h1, h2⟩
    exact ⟨v.attrAt va, v, hv, hu, ho, h1, h2, rfl⟩
  · rintro ⟨a, v, hv, hu, ho, h1, h2, -⟩
    exact ⟨v, hv, hu, ho, h1, h2⟩

theorem mapsAt_unmap {owns : Nat → Bool} {t t' : List UserVma} {len : Nat}
    (h : UnmapRel owns addr len t t') (va : Nat) : MapsAt owns t' va ↔ MapsAt owns t va
    ∧ ¬ (addr ≤ va ∧ va < addr + len) := by
  simp only [mapsAt_iff_view, h.view, unmapView, Set.mem_sep_iff, exists_and_right]

variable {prot : Nat} {kind : VmaKind}

section Tables

variable {owns : Nat → Bool} {t : List UserVma} {i : Nat} {u : UserVma}

theorem mapsAt_update (hi : t[i]? = some u) (v : UserVma) (hused : v.used = u.used)
    (htid : v.tid = u.tid) (haddr : v.addr = u.addr) (hlen : v.len = u.len) (va : Nat) :
    MapsAt owns (t.set i v) va ↔ MapsAt owns t va :=
  exists_mem_set_same hi (by rw [hused, htid, haddr, hlen])

theorem mapsAt_fill (hi : t[i]? = some u) (hu : u.used = false) (tid addr len prot : Nat)
    (kind : VmaKind) (va : Nat) :
    MapsAt owns (t.set i ⟨true, tid, addr, len, prot, kind, none, 0⟩) va
      ↔ (owns tid = true ∧ addr ≤ va ∧ va < addr + len) ∨ MapsAt owns t va := by
  refine (exists_mem_set_new hi _ ?_).trans ?_
  · simp [hu]
  · simp [MapsAt]

/-- A table in which nothing is in use maps nothing. -/
theorem mapsAt_unused {va : Nat} : ¬ MapsAt owns (List.replicate n default) va := by
  rintro ⟨v, hv, hu, -⟩
  rw [eq_of_mem_replicate hv] at hu
  cases hu

/-- **Adding to the global store**: it is full, or it maps the new range as well. -/
theorem addNolock_mapsAt (owns : Nat → Bool) (t : List UserVma) (tid addr len prot : Nat)
    (kind : VmaKind) :
    userVmaAddNolock tid addr len prot kind t = (-1, t)
      ∨ ∃ t', userVmaAddNolock tid addr len prot kind t = (0, t') ∧ ∀ va, MapsAt owns t' va
            ↔ (owns tid = true ∧ addr ≤ va ∧ va < addr + len) ∨ MapsAt owns t va := by
  unfold userVmaAddNolock
  split
  next i hi =>
    obtain ⟨hlt, hp, -⟩ := findIdx?_eq_some_iff_getElem.mp hi
    have hget := getElem?_eq_getElem hlt
    refine .inr ⟨_, rfl, fun va => ?_⟩
    rw [getD_of_getElem? hget]
    refine (mapsAt_update hget { t[i] with prot := prot } rfl rfl rfl rfl va).trans ?_
    -- the equal record maps the range already
    simp only [Bool.and_eq_true, beq_iff_eq] at hp
    obtain ⟨⟨⟨⟨hu, rfl⟩, rfl⟩, rfl⟩, -⟩ := hp
    constructor
    · exact .inr
    · rintro (⟨ho, h1, h2⟩ | h)
      · exact ⟨t[i], getElem_mem hlt, hu, ho, h1, h2⟩
      · exact h
  next =>
    split
    next i hi =>
      obtain ⟨u, hget, hu⟩ := freeSlot_some hi
      exact .inr ⟨_, rfl, mapsAt_fill hget hu tid addr len prot kind⟩
    next => exact .inl rfl

/-- Adding to the store of an address space maps at most the new range as well. -/
theorem addToSlots_mapsAt {len : Nat} {va : Nat}
    (h : MapsAt (fun _ => true) (addToSlots addr len prot kind t).2 va) :
    (addr ≤ va ∧ va < addr + len) ∨ MapsAt (fun _ => true) t va := by
  unfold addToSlots at h
  split at h
  next i hi =>
    obtain ⟨hlt, -, -⟩ := findIdx?_eq_some_iff_getElem.mp hi
    have hget := getElem?_eq_getElem hlt
    rw [getD_of_getElem? hget] at h
    exact .inr ((mapsAt_update hget { t[i] with prot := prot } rfl rfl rfl rfl va).mp h)
  next =>
    split at h
    next i hi =>
      obtain ⟨u, hget, hu⟩ := freeSlot_some hi
      rcases (mapsAt_fill hget hu 0 addr len prot kind va).mp h with h | h
      · exact .inl h.2
      · exact .inr h
    next => exact .inr h

theorem addToSlots_noWrap {len : Nat} (prot : Nat) (kind : VmaKind) (hw : NoWrap t)
    (hr : addr + len < 2 ^ 64) :
    NoWrap (addToSlots addr len prot kind t).2 := by
  unfold addToSlots
  split
  next i hi =>
    obtain ⟨hlt, -, -⟩ := findIdx?_eq_some_iff_getElem.mp hi
    rw [getD_of_getElem? (getElem?_eq_getElem hlt)]
    exact hw.set i (hw t[i] (getElem_mem hlt))
  next =>
    split
    next i _ => exact hw.set i fun _ => hr
    next => exact hw

theorem replaceFile_mapsAt (i : Nat) (f : FileId) (off : Nat) (r : FileId → Int) (va : Nat) :
    MapsAt owns (replaceFile i f off ⟨t, r⟩).vmas va ↔ MapsAt owns t va := by
  unfold replaceFile
  dsimp only
  cases hi : t[i]? with
  | none => rw [set_eq_of_length_le (getElem?_eq_none_iff.mp hi)]
  | some u =>
    rw [getD_of_getElem? hi]
    exact mapsAt_update hi { u with file := some f, fileOff := off } rfl rfl rfl rfl va

end Tables

/-! ## The process -/

/-- The thread ids whose records the searches take for those of `mm`. -/
def mmOwns (w : VmaState) (mm : MmId) : Nat → Bool :=
  userVmaTidMatchesRunnerMmNolock w (some ⟨0, 3, some mm⟩)

variable {w w' : VmaState} {mm : MmId} {x leader : Nat}

theorem matches_eq_mmOwns {t : Thread} (h : t.mm = some mm) :
    userVmaTidMatchesRunnerMmNolock w (some t) = mmOwns w mm := by
  funext x
  simp only [mmOwns, userVmaTidMatchesRunnerMmNolock, h]

theorem mmOwns_iff : mmOwns w mm x = true
      ↔ ∃ j u, threadGetByIndex w j = some u ∧ u.ring = 3 ∧ u.mm = some mm ∧ u.recordTid = x := by
  simp only [mmOwns, userVmaTidMatchesRunnerMmNolock, List.any_eq_true, List.mem_range]
  constructor
  · rintro ⟨j, -, hj⟩
    cases hu : threadGetByIndex w j with
    | none => simp [hu] at hj
    | some u =>
      simp only [hu, Bool.and_eq_true, beq_iff_eq] at hj
      exact ⟨j, u, hu, hj.1.1, hj.1.2, hj.2⟩
  · rintro ⟨j, u, hu, hring, hmm, hx⟩
    refine ⟨j, threadGetByIndex_lt hu, ?_⟩
    simp [hu, hring, hmm, hx]

theorem mmOwns_congr (ht : w'.threads = w.threads)
    (hc : w'.threadCount = w.threadCount) (mm : MmId) :
    mmOwns w' mm = mmOwns w mm := by
  funext x
  simp only [mmOwns, userVmaTidMatchesRunnerMmNolock, threadGetByIndex, ht, hc]

/-- A running thread of the process: a user thread in the table that has the address space. -/
structure Live (w : VmaState) (mm : MmId) (t : Thread) : Prop where
  get : threadGet w t.tid = some t
  listed : threadGetByIndex w t.tid = some t
  tid : t.tid ≠ 0
  ring : t.ring = 3
  space : t.mm = some mm

theorem Live.owns {t : Thread} (h : Live w mm t) : mmOwns w mm t.tid = true :=
  mmOwns_iff.mpr ⟨t.tid, t, h.listed, h.ring, h.space, if_neg h.tid⟩

/-- What `SYS_exit` does to the thread table for a thread that is not the leader: the thread gives
up its address space. The VMA tables are not touched. -/
def threadExit (w : VmaState) (t : Thread) : VmaState :=
  { w with threads := w.threads.set t.tid (some { t with mm := none }) }

/-- Every address the store of `mm` maps is mapped by a global record that the searches see. -/
structure Covered (mm : MmId) (w : VmaState) : Prop where
  cover : ∀ va, MapsAt (fun _ => true) ((w.storage mm).getD []) va →
      MapsAt (mmOwns w mm) w.global va
  zero : ¬ MapsAt (mmOwns w mm) w.global 0
  global : NoWrap w.global
  storage : NoWrap ((w.storage mm).getD [])

section Process

variable {mm : MmId} {w : VmaState} {t : Thread}

variable {len addr : Nat}

/-- What the two stores look like after a registration: both have grown by the new range, the global
one by all of it. -/
theorem Covered.extend (h : Covered mm w) (len : Nat) (haddr : addr ≠ 0)
    (howns : mmOwns w' mm = mmOwns w mm) (hglobal : ∀ va, MapsAt (mmOwns w mm) w'.global va
      ↔ (addr ≤ va ∧ va < addr + len) ∨ MapsAt (mmOwns w mm) w.global va)
    (hstore : ∀ va, MapsAt (fun _ => true) ((w'.storage mm).getD []) va →
      (addr ≤ va ∧ va < addr + len) ∨ MapsAt (fun _ => true) ((w.storage mm).getD []) va)
      (hgw : NoWrap w'.global)
    (hsw : NoWrap ((w'.storage mm).getD [])) : Covered mm w' := by
  refine ⟨fun va hva => ?_, ?_, hgw, hsw⟩
  · rw [howns, hglobal]
    rcases hstore va hva with hnew | hold
    · exact .inl hnew
    · exact .inr (h.cover va hold)
  · rw [howns, hglobal]
    rintro (⟨h0, -⟩ | h0)
    · omega
    · exact h.zero h0

theorem addMm_storage (kmallocOk : Bool) (prot : Nat) (kind : VmaKind)
    (hw : NoWrap ((w.storage mm).getD [])) (hr : addr + len < 2 ^ 64) :
    NoWrap (((userVmaAddMm kmallocOk w mm addr len prot kind).2.storage mm).getD [])
      ∧ ∀ va, MapsAt (fun _ => true)
          (((userVmaAddMm kmallocOk w mm addr len prot kind).2.storage mm).getD []) va →
        (addr ≤ va ∧ va < addr + len) ∨ MapsAt (fun _ => true) ((w.storage mm).getD []) va := by
  unfold userVmaAddMm userVmaMmStorage
  cases hst : w.storage mm with
  | some t =>
    simp only [hst, getD_some] at hw
    simp only [VmaState.withStorage, if_true, getD_some]
    exact ⟨addToSlots_noWrap prot kind hw hr, fun va => addToSlots_mapsAt⟩
  | none =>
    cases kmallocOk with
    | false =>
      simp only [Bool.false_eq_true, if_false, hst, getD_none]
      exact ⟨fun v hv => absurd hv not_mem_nil, fun va => .inr⟩
    | true =>
      simp only [VmaState.withStorage, if_true, getD_some, getD_none]
      refine ⟨addToSlots_noWrap prot kind ?_ hr, fun va hva => ?_⟩
      · intro v hv hu
        rw [eq_of_mem_replicate hv] at hu
        cases hu
      · rcases addToSlots_mapsAt hva with hnew | hold
        · exact .inl hnew
        · exact absurd hold mapsAt_unused

theorem addMm_frame (kmallocOk : Bool) (w : VmaState) (mm : MmId) (addr len prot : Nat)
    (kind : VmaKind) {w' : VmaState}
    (hw' : (userVmaAddMm kmallocOk w mm addr len prot kind).2 = w') :
    (w'.threads = w.threads ∧ w'.threadCount = w.threadCount) ∧ w'.global = w.global := by
  subst hw'
  unfold userVmaAddMm
  cases userVmaMmStorage kmallocOk w mm with
  | none | some t => exact ⟨⟨rfl, rfl⟩, rfl⟩

theorem attachFileMm_frame (w : VmaState) (mm : MmId) (addr len : Nat) (f : FileId) (off : Nat)
    {w' : VmaState} (hw' : attachFileMm w mm addr len f off = w') :
    (w'.threads = w.threads ∧ w'.threadCount = w.threadCount) ∧ w'.global = w.global := by
  subst hw'
  unfold attachFileMm
  cases w.storage mm with
  | none => exact ⟨⟨rfl, rfl⟩, rfl⟩
  | some t =>
    dsimp only
    split
    · exact ⟨⟨rfl, rfl⟩, rfl⟩
    · exact ⟨⟨rfl, rfl⟩, rfl⟩

/-- Giving a record a file does not change what it maps. -/
theorem attachFileMm_storage (addr len : Nat) (f : FileId) (off : Nat)
    (hw : NoWrap ((w.storage mm).getD [])) :
    NoWrap (((attachFileMm w mm addr len f off).storage mm).getD [])
      ∧ ∀ va, MapsAt (fun _ => true) (((attachFileMm w mm addr len f off).storage mm).getD []) va ↔
        MapsAt (fun _ => true) ((w.storage mm).getD []) va := by
  unfold attachFileMm
  cases hst : w.storage mm with
  | none => simpa [hst] using hw
  | some t =>
    simp only [hst, getD_some] at hw
    dsimp only
    split
    · simpa [hst] using hw
    next i _ =>
      simp only [VmaState.withStorage, if_true, getD_some]
      exact ⟨replaceFile_noWrap _ hw, replaceFile_mapsAt i f off _⟩

/-- **Registering a mapping** keeps the records covered if the global store had room for it. -/
theorem Covered.add (h : Covered mm w) (ht : Live w mm t) (kmallocOk : Bool) (haddr : addr ≠ 0)
    (hr : addr + len < 2 ^ 64) (hroom : (userVmaAdd kmallocOk w t.tid addr len prot kind).1 = 0) :
    Covered mm (userVmaAdd kmallocOk w t.tid addr len prot kind).2 := by
  have hget : (threadGet w t.tid).bind (·.mm) = some mm := by rw [ht.get]; exact ht.space
  have hgw := (addNolock_keeps t.tid prot kind h.global hr).2
  unfold userVmaAdd at hroom ⊢
  simp only [hget] at hroom ⊢
  rcases addNolock_mapsAt (mmOwns w mm) w.global t.tid addr len prot kind with
    hfull | ⟨g, hg, hmaps⟩
  · rw [hfull] at hroom
    cases hroom
  rw [hg] at hgw ⊢
  obtain ⟨hsw, hstore⟩ :=
    addMm_storage kmallocOk (w := w.withGlobal ⟨g, w.fileRefs⟩) prot kind h.storage hr
  obtain ⟨hthreads, hglobal⟩ :=
    addMm_frame kmallocOk (w.withGlobal ⟨g, w.fileRefs⟩) mm addr len prot kind rfl
  refine h.extend len haddr (mmOwns_congr hthreads.1 hthreads.2 mm) ?_ hstore ?_ hsw
  · intro va
    rw [hglobal, show (w.withGlobal ⟨g, w.fileRefs⟩).global = g from rfl, hmaps, ht.owns]
    simp
  · rw [hglobal]
    exact hgw

theorem Covered.add_file (h : Covered mm w) (ht : Live w mm t) (kmallocOk : Bool) {off : Nat}
    {file : Option FileId} (haddr : addr ≠ 0) (hr : addr + len < 2 ^ 64) :
    Covered mm (userVmaAddFile kmallocOk w t.tid addr len prot kind file off).2 := by
  have hget : (threadGet w t.tid).bind (·.mm) = some mm := by rw [ht.get]; exact ht.space
  have hgw := (addNolock_keeps t.tid prot kind.ofFile h.global hr).2
  unfold userVmaAddFile
  cases file with
  | none => exact h
  | some f =>
    dsimp only
    split
    · exact h
    rcases addNolock_mapsAt (mmOwns w mm) w.global t.tid addr len prot kind.ofFile with
      hfull | ⟨g, hg, hmaps⟩
    · rw [hfull]
      exact h
    rw [hg] at hgw
    simp only [ht.owns, true_and] at hmaps
    simp only [hg, hget]
    split
    · exact h.extend len haddr (mmOwns_congr rfl rfl mm) hmaps (fun _ => .inr) hgw h.storage
    next i _ =>
    generalize hw1 : w.withGlobal (replaceFile i f off ⟨g, w.fileRefs⟩) = w1
    have hst1 : w1.storage = w.storage := by rw [← hw1]; rfl
    obtain ⟨hsw, hstore⟩ :=
      addMm_storage kmallocOk prot kind.ofFile (by rw [hst1]; exact h.storage) hr
    obtain ⟨hthreads, hglobal⟩ := addMm_frame kmallocOk w1 mm addr len prot kind.ofFile rfl
    generalize (userVmaAddMm kmallocOk w1 mm addr len prot kind.ofFile).2 = w2 at *
    obtain ⟨hsw', hstore'⟩ := attachFileMm_storage addr len f off hsw
    obtain ⟨hthreads', hglobal'⟩ := attachFileMm_frame w2 mm addr len f off rfl
    -- the file is attached in both stores after the range has been added
    have hg1 : w1.global = (replaceFile i f off ⟨g, w.fileRefs⟩).vmas := by rw [← hw1]; rfl
    refine h.extend len haddr (mmOwns_congr ?_ ?_ mm) ?_ ?_ ?_ hsw'
    · rw [hthreads'.1, hthreads.1, ← hw1]; rfl
    · rw [hthreads'.2, hthreads.2, ← hw1]; rfl
    · intro va
      rw [hglobal', hglobal, hg1, replaceFile_mapsAt, hmaps]
    · intro va hva
      rw [← hst1]
      exact hstore va ((hstore' va).mp hva)
    · rw [hglobal', hglobal, hg1]
      exact replaceFile_noWrap _ hgw

/-- **Unmapping** takes the same addresses out of both stores. -/
theorem Covered.unmap (h : Covered mm w) (ht : Live w mm t) (hr : addr + len < 2 ^ 64) :
    Covered mm (userVmaUnmapRange w t.tid addr len).2 := by
  have hstorage : ∀ s, w.storage mm = some s → NoWrap s := by
    intro s hs
    have := h.storage
    rwa [hs] at this
  rcases userVmaUnmapRange_cases ht.get ht.space h.global hstorage hr with
    ⟨-, hrun⟩ | ⟨w', hrun, hok, hgw, hsw⟩
  · rw [hrun]
    exact h
  rw [hrun]
  have hmaps := mapsAt_unmap hok.global
  rw [matches_eq_mmOwns ht.space] at hmaps
  have howns : mmOwns w' mm = mmOwns w mm := mmOwns_congr hok.threads.1 hok.threads.2 mm
  have hstore : NoWrap ((w'.storage mm).getD []) ∧ ∀ va, MapsAt (fun _ => true)
        ((w'.storage mm).getD []) va → MapsAt (fun _ => true) ((w.storage mm).getD []) va
        ∧ ¬ (addr ≤ va ∧ va < addr + len) := by
    cases hst : w.storage mm with
    | none =>
      rw [hok.noStorage hst]
      refine ⟨fun v hv => absurd hv not_mem_nil, ?_⟩
      rintro va ⟨v, hv, -⟩
      exact absurd hv not_mem_nil
    | some s =>
      obtain ⟨s', hs', hrel⟩ := hok.storage s hst
      rw [hs']
      exact ⟨hsw s' hs', fun va => (mapsAt_unmap hrel va).mp⟩
  refine ⟨fun va hva => ?_, ?_, hgw, hstore.1⟩
  · obtain ⟨hold, hout⟩ := hstore.2 va hva
    rw [howns, hmaps]
    exact ⟨h.cover va hold, hout⟩
  · rw [howns, hmaps]
    rintro ⟨h0, -⟩
    exact h.zero h0

/-- A thread exits under whose id nothing is registered: no other record changes hands. -/
theorem mmOwns_exit (ht : Live w mm t) (hx : x ≠ t.tid) :
    mmOwns (threadExit w t) mm x = mmOwns w mm x := by
  have hrec : t.recordTid = t.tid := if_neg ht.tid
  have hother : ∀ j, j ≠ t.tid → threadGetByIndex (threadExit w t) j = threadGetByIndex w j := by
    intro j hj
    unfold threadGetByIndex threadExit
    rw [getElem?_set_ne (Ne.symm hj)]
  rw [Bool.eq_iff_iff, mmOwns_iff, mmOwns_iff]
  constructor
  · rintro ⟨j, u, hu, hring, hmm, rfl⟩
    by_cases hj : j = t.tid
    · -- the slot of the thread that has left has no address space
      exfalso
      subst hj
      unfold threadGetByIndex threadExit at hu
      split at hu
      · cases hu
      rcases getElem?_set_cases (Option.join_eq_some_iff.mp hu) with ⟨-, heq⟩ | ⟨hne, -⟩
      · rw [Option.some.inj heq] at hmm
        cases hmm
      · exact hne rfl
    · rw [hother j hj] at hu
      exact ⟨j, u, hu, hring, hmm, rfl⟩
  · rintro ⟨j, u, hu, hring, hmm, rfl⟩
    refine ⟨j, u, ?_, hring, hmm, rfl⟩
    rw [hother j ?_]
    · exact hu
    · rintro rfl
      have hu := mem_unique ht.listed hu
      exact hx (by rw [← hu, hrec])

/-- **The exit of a thread** under whose id nothing is registered. -/
theorem Covered.exit (h : Covered mm w) (ht : Live w mm t)
    (hnone : ∀ v ∈ w.global, v.used = true → v.tid ≠ t.tid) : Covered mm (threadExit w t) := by
  have hmaps : ∀ va, MapsAt (mmOwns (threadExit w t) mm) w.global va ↔
      MapsAt (mmOwns w mm) w.global va := by
    intro va
    apply exists_congr
    intro v
    apply and_congr_right
    intro hv
    apply and_congr_right
    intro hu
    rw [mmOwns_exit ht (hnone v hv hu)]
  refine ⟨fun va hva => ?_, ?_, h.global, h.storage⟩
  · exact (hmaps va).mpr (h.cover va hva)
  · exact fun h0 => h.zero ((hmaps 0).mp h0)

/-! ## The searches are safe while the records are covered -/

/-- `[addr, addr + len)` meets no record in use of the store of `mm`. -/
def FreeIn (w : VmaState) (mm : MmId) (addr len : Nat) : Prop :=
  ∀ v ∈ (w.storage mm).getD [], v.used = true →
    ∀ va, v.addr ≤ va → va < v.addr + v.len → ¬ (addr ≤ va ∧ va < addr + len)

section

variable (h : Covered mm w) (ht : t.mm = some mm) {floor ceil align : Nat}

include h ht

theorem blocks_of_mapsAt {fin va : Nat} (hva : MapsAt (mmOwns w mm) w.global va) (h1 : addr ≤ va)
    (h2 : va < fin) : ∃ v ∈ w.global, v.blocks w t addr fin = true := by
  obtain ⟨v, hv, hu, ho, ha, hb⟩ := hva
  refine ⟨v, hv, ?_⟩
  have hend : v.vend = v.addr + v.len := Nat.mod_eq_of_lt (h.global v hv hu)
  rw [← matches_eq_mmOwns ht] at ho
  simp [UserVma.blocks, hu, ho, hend]
  omega

/-- A range that no global record blocks is free. -/
theorem Covered.freeIn (hlen : len < 2 ^ 64) (hle : addr ≤ (addr + len) % 2 ^ 64)
    (hnone : ∀ v ∈ w.global, v.blocks w t addr ((addr + len) % 2 ^ 64) = false) :
    FreeIn w mm addr len := by
  intro v hv hu va h1 h2 ⟨h3, h4⟩
  have hmaps := h.cover va ⟨v, hv, hu, rfl, h1, h2⟩
  have hfin : (addr + len) % 2 ^ 64 = addr + len := by omega
  obtain ⟨g, hg, hb⟩ := blocks_of_mapsAt h ht hmaps h3 (hfin ▸ h4)
  rw [hnone g hg] at hb
  cases hb

theorem Covered.findUnmapped (hlen : len < 2 ^ 64)
    (hr : userVmaFindUnmapped w (some t) floor ceil len hint align ≠ 0) :
    FreeIn w mm (userVmaFindUnmapped w (some t) floor ceil len hint align) len := by
  obtain ⟨hle, hnone⟩ := overlapEnd_zero (findUnmapped_free hr)
  exact h.freeIn ht hlen hle hnone

theorem Covered.findUnmappedTopdown (hlen : len < 2 ^ 64)
    (hr : userVmaFindUnmappedTopdown w (some t) floor ceil len align ≠ 0) :
    FreeIn w mm (userVmaFindUnmappedTopdown w (some t) floor ceil len align) len := by
  obtain ⟨hle, hnone | ⟨v, hv, hb, h0⟩⟩ := overlapStart_zero (findUnmappedTopdown_free hr)
  · exact h.freeIn ht hlen hle hnone
  -- a record at address `0` that blocks would map address `0`
  exfalso
  apply h.zero
  rw [← matches_eq_mmOwns ht]
  simp only [UserVma.blocks, Bool.and_eq_true, Bool.not_eq_true', Bool.or_eq_false_iff,
    decide_eq_false_iff_not] at hb
  refine ⟨v, hv, hb.1.1.1, hb.1.1.2, by omega, ?_⟩
  have hend : v.vend = v.addr + v.len := Nat.mod_eq_of_lt (h.global v hv hb.1.1.1)
  omega

end

end Process

/-! ## Runs -/

/-- What the threads of the process do. -/
inductive SpaceStep where
  | add (t : Thread) (kmallocOk : Bool) (addr len prot : Nat) (kind : VmaKind)
  | addFile (t : Thread) (kmallocOk : Bool) (addr len prot : Nat) (kind : VmaKind)
      (file : Option FileId) (off : Nat)
  | unmap (t : Thread) (addr len : Nat)
  | exit (t : Thread)
  deriving DecidableEq, Repr

def SpaceStep.run (w : VmaState) : SpaceStep → VmaState
  | .add t kmallocOk addr len prot kind => (userVmaAdd kmallocOk w t.tid addr len prot kind).2
  | .addFile t kmallocOk addr len prot kind file off =>
    (userVmaAddFile kmallocOk w t.tid addr len prot kind file off).2
  | .unmap t addr len => (userVmaUnmapRange w t.tid addr len).2
  | .exit t => threadExit w t

/-- A running thread takes the step; the leader does not exit. -/
def SpaceStep.Enabled (mm : MmId) (leader : Nat) (w : VmaState) : SpaceStep → Prop
  | .add t _ _ _ _ _ => Live w mm t
  | .addFile t _ _ _ _ _ _ _ => Live w mm t
  | .unmap t _ _ => Live w mm t
  | .exit t => Live w mm t ∧ t.tid ≠ leader

/-- The steps after which the searches are safe: a mapping is not registered at address `0`, ranges
do not wrap, the global store has room for what `user_vma_add` registers, and a thread exits only if
no record in use is under its id. -/
def SpaceStep.Safe (w : VmaState) : SpaceStep → Prop
  | .add t kmallocOk addr len prot kind => addr ≠ 0 ∧ addr + len < 2 ^ 64
      ∧ (userVmaAdd kmallocOk w t.tid addr len prot kind).1 = 0
  | .addFile _ _ addr len _ _ _ _ => addr ≠ 0 ∧ addr + len < 2 ^ 64
  | .unmap _ addr len => addr + len < 2 ^ 64
  | .exit t => ∀ v ∈ w.global, v.used = true → v.tid ≠ t.tid

def runSpace (steps : List SpaceStep) (w : VmaState) : VmaState := steps.foldl SpaceStep.run w

def EnabledSteps (mm : MmId) (leader : Nat) : List SpaceStep → VmaState → Prop
  | [], _ => True
  | c :: cs, w => c.Enabled mm leader w ∧ EnabledSteps mm leader cs (c.run w)

def SafeSteps : List SpaceStep → VmaState → Prop
  | [], _ => True
  | c :: cs, w => c.Safe w ∧ SafeSteps cs (c.run w)

/-- A process without mappings: nothing is registered for the address space, and under the ids of
its threads nothing is left in the global store. -/
structure NoMappings (mm : MmId) (w : VmaState) : Prop where
  storage : ∀ v ∈ (w.storage mm).getD [], v.used = false
  global : ∀ v ∈ w.global, v.used = true → mmOwns w mm v.tid = false
  noWrap : NoWrap w.global

theorem NoMappings.covered (h : NoMappings mm w) : Covered mm w := by
  refine ⟨?_, ?_, h.noWrap, ?_⟩
  · rintro va ⟨v, hv, hu, -⟩
    rw [h.storage v hv] at hu
    cases hu
  · rintro ⟨v, hv, hu, ho, -⟩
    rw [h.global v hv hu] at ho
    cases ho
  · intro v hv hu
    rw [h.storage v hv] at hu
    cases hu

theorem spaceStep_covered {c : SpaceStep} (h : Covered mm w) (he : c.Enabled mm leader w)
    (hs : c.Safe w) :
    Covered mm (c.run w) := by
  cases c with
  | add t kmallocOk addr len prot kind => exact h.add he kmallocOk hs.1 hs.2.1 hs.2.2
  | addFile t kmallocOk addr len prot kind file off => exact h.add_file he kmallocOk hs.1 hs.2
  | unmap t addr len => exact h.unmap he hs
  | exit t => exact h.exit he.1 hs

theorem runSpace_covered {steps : List SpaceStep} (h : Covered mm w)
    (he : EnabledSteps mm leader steps w) (hs : SafeSteps steps w) :
    Covered mm (runSpace steps w) := by
  induction steps generalizing w with
  | nil => exact h
  | cons c cs ih => exact ih (spaceStep_covered h he.1 hs.1) he.2 hs.2

/-- **A live mapping is not handed out again**, as long as no thread exits that still has records
under its id. In every run from a process without mappings whose steps meet `SpaceStep.Safe`, an
address that one of the two searches returns to a running thread is the start of a range that meets
no record of the address space. -/
theorem findUnmapped_disjoint (mm : MmId) (leader : Nat) (w : VmaState) (steps : List SpaceStep)
    (hstart : NoMappings mm w) (hrun : EnabledSteps mm leader steps w) (hsafe : SafeSteps steps w)
    (t : Thread) (ht : Live (runSpace steps w) mm t) (floor ceil len hint align : Nat)
    (hlen : len < 2 ^ 64) :
    (userVmaFindUnmapped (runSpace steps w) (some t) floor ceil len hint align ≠ 0 →
        FreeIn (runSpace steps w) mm
          (userVmaFindUnmapped (runSpace steps w) (some t) floor ceil len hint align) len)
      ∧ (userVmaFindUnmappedTopdown (runSpace steps w) (some t) floor ceil len align ≠ 0 →
        FreeIn (runSpace steps w) mm
          (userVmaFindUnmappedTopdown (runSpace steps w) (some t) floor ceil len align) len) := by
  have hcov := runSpace_covered hstart.covered hrun hsafe
  constructor
  · exact hcov.findUnmapped ht.space hlen
  · exact hcov.findUnmappedTopdown ht.space hlen

/-- Threads `2`, `3` and `4` share the address space `7`; there are four slots. -/
def threadGroup : VmaState :=
  { threads := [none, none, some ⟨2, 3, some 7⟩, some ⟨3, 3, some 7⟩, some ⟨4, 3, some 7⟩]
    threadCount := 5
    global := List.replicate 4 default
    storage := fun _ => none
    fileRefs := fun _ => 0 }

theorem threadGroup_noMappings : NoMappings 7 threadGroup := by
  refine ⟨by decide, by decide, ?_⟩
  unfold NoWrap
  decide

/-- Thread `3` registers three pages, thread `4` unmaps the middle one and exits; the search of the
leader finds that page. -/
theorem findUnmapped_disjoint_hole :
    userVmaFindUnmapped (runSpace [.add ⟨3, 3, some 7⟩ true 0x10000000 0x3000 3 .mmap,
        .unmap ⟨4, 3, some 7⟩ 0x10001000 0x1000, .exit ⟨4, 3, some 7⟩] threadGroup)
        (some ⟨2, 3, some 7⟩) 0x10000000 0x20000000 0x1000 0 4096 = 0x10001000
      ∧ FreeIn (runSpace [.add ⟨3, 3, some 7⟩ true 0x10000000 0x3000 3 .mmap,
        .unmap ⟨4, 3, some 7⟩ 0x10001000 0x1000,
        .exit ⟨4, 3, some 7⟩] threadGroup) 7 0x10001000 0x1000 := by
  have hfound : userVmaFindUnmapped (runSpace [.add ⟨3, 3, some 7⟩ true 0x10000000 0x3000 3 .mmap,
      .unmap ⟨4, 3, some 7⟩ 0x10001000 0x1000, .exit ⟨4, 3, some 7⟩] threadGroup)
      (some ⟨2, 3, some 7⟩) 0x10000000 0x20000000 0x1000 0 4096 = 0x10001000 := by decide
  refine ⟨hfound, ?_⟩
  have h :=
      (findUnmapped_disjoint 7 2 threadGroup [.add ⟨3, 3, some 7⟩ true 0x10000000 0x3000 3 .mmap,
      .unmap ⟨4, 3, some 7⟩ 0x10001000 0x1000, .exit ⟨4, 3, some 7⟩]
    threadGroup_noMappings
    ⟨⟨by decide, by decide, by decide, rfl, rfl⟩, ⟨by decide, by decide, by decide, rfl, rfl⟩,
      ⟨⟨by decide, by decide, by decide, rfl, rfl⟩, by decide⟩, trivial⟩
    ⟨⟨by decide, by decide, by decide⟩, show 0x10001000 + 0x1000 < 2 ^ 64 by decide, by
      show ∀ v ∈ _, _
      decide, trivial⟩
    ⟨2, 3, some 7⟩ ⟨by decide, by decide, by decide, rfl, rfl⟩
    0x10000000 0x20000000 0x1000 0 4096 (by decide)).1
  rw [hfound] at h
  exact h (by decide)

/-- Thread `3` registers two pages and exits: the search of the leader returns the first of them.
And a record at address `0` does not count for the downward search, even if no thread exits. -/
theorem findUnmapped_disjoint_fails : NoMappings 7 threadGroup
      ∧ (EnabledSteps 7 2 [.add ⟨3, 3, some 7⟩ true 0x10000000 0x2000 3 .mmap,
        .exit ⟨3, 3, some 7⟩] threadGroup
        ∧ Live (runSpace [.add ⟨3, 3, some 7⟩ true 0x10000000 0x2000 3 .mmap,
            .exit ⟨3, 3, some 7⟩] threadGroup) 7 ⟨2, 3, some 7⟩
        ∧ userVmaFindUnmapped (runSpace [.add ⟨3, 3, some 7⟩ true 0x10000000 0x2000 3 .mmap,
            .exit ⟨3, 3, some 7⟩] threadGroup)
            (some ⟨2, 3, some 7⟩) 0x10000000 0x20000000 0x1000 0 4096 = 0x10000000
        ∧ ¬ FreeIn (runSpace [.add ⟨3, 3, some 7⟩ true 0x10000000 0x2000 3 .mmap,
            .exit ⟨3, 3, some 7⟩] threadGroup) 7 0x10000000 0x1000)
      ∧ (EnabledSteps 7 2 [.add ⟨2, 3, some 7⟩ true 0 0x5000 3 .mmap] threadGroup
        ∧ userVmaFindUnmappedTopdown (runSpace [.add ⟨2, 3, some 7⟩ true 0 0x5000 3 .mmap]
            threadGroup) (some ⟨2, 3, some 7⟩) 0x1000 0x4000 0x1000 4096 = 0x3000
        ∧ ¬ FreeIn (runSpace [.add ⟨2, 3, some 7⟩ true 0 0x5000 3 .mmap] threadGroup) 7
        0x3000 0x1000) := by
  refine ⟨threadGroup_noMappings, ⟨⟨⟨by decide, by decide, by decide, rfl, rfl⟩,
      ⟨⟨by decide, by decide, by decide, rfl, rfl⟩, by decide⟩, trivial⟩,
      ⟨by decide, by decide, by decide, rfl, rfl⟩, by decide, ?_⟩,
    ⟨⟨by decide, by decide, by decide, rfl, rfl⟩, trivial⟩, by decide, ?_⟩
  · intro h
    exact h ⟨true, 0, 0x10000000, 0x2000, 3, .mmap, none, 0⟩ (by decide) rfl 0x10000000
      (by decide) (by decide) ⟨by decide, by decide⟩
  · intro h
    exact h ⟨true, 0, 0, 0x5000, 3, .mmap, none, 0⟩ (by decide) rfl 0x3000
      (by decide) (by decide) ⟨by decide, by decide⟩

end AxonOS.Vma

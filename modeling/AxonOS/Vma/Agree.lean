import AxonOS.Vma.SetProt
import AxonOS.Vma.Stores

/-! # The two stores of an address space

While a process has one thread, every mapping it registers is entered twice: in the global store
under its thread id, and in the store of its address space. `Mirrored` says that the two tables
agree slot by slot. Adding, growing and unmapping treat both tables alike, so they keep it; the
exceptions are `user_vma_set_prot`, which has no counterpart for the store of the address space, and
the record `user_vma_add_file` gives the file to, which the two halves of the function look up
differently.
-/

namespace AxonOS.Vma

open Lib List Option

/-- The record without its owner. -/
def UserVma.forget (v : UserVma) : UserVma := { v with tid := 0 }

/-- A slot of the global store and a slot of the store of the address space say the same. -/
structure Mirror (tid : Nat) (v u : UserVma) : Prop where
  used : v.used = u.used
  same : u.used = true → v.tid = tid ∧ v.forget = u.forget

def Mirrored (tid : Nat) (g m : List UserVma) : Prop := List.Forall₂ (Mirror tid) g m

section Mirror

variable {tid : Nat} {v u : UserVma}

theorem mirror_unused (hv : v.used = false) (hu : u.used = false) : Mirror tid v u :=
  ⟨by rw [hv, hu], fun h => by rw [hu] at h; cases h⟩

/-- A test of the thread's records in the one table and a test of the records in the other. -/
theorem Mirror.test (h : Mirror tid v u) (p : UserVma → Bool) (hp : ∀ x, p x.forget = p x) :
    (v.used && v.tid == tid && p v) = (u.used && p u) := by
  rw [h.used]
  cases hu : u.used with
  | false => rfl
  | true =>
    obtain ⟨htid, hf⟩ := h.same hu
    rw [htid, beq_self_eq_true, ← hp v, hf, hp u]
    rfl

theorem Mirror.update (h : Mirror tid v u) (f : UserVma → UserVma)
    (hused : ∀ x, (f x).used = x.used) (htid : ∀ x, (f x).tid = x.tid)
    (hf : ∀ x, (f x).forget = (f x.forget).forget) : Mirror tid (f v) (f u) := by
  refine ⟨by rw [hused, hused, h.used], fun hu => ?_⟩
  rw [hused] at hu
  obtain ⟨ht, he⟩ := h.same hu
  refine ⟨by rw [htid, ht], ?_⟩
  rw [hf v, he, ← hf u]

end Mirror

section Tables

variable {tid : Nat} {g m : List UserVma} {t : Slots}

section

variable (h : Mirrored tid g m)

include h

theorem Mirrored.length : g.length = m.length := h.length_eq

theorem Mirrored.set {v u : UserVma} (hvu : Mirror tid v u) (i : Nat) :
    Mirrored tid (g.set i v) (m.set i u) := forall₂_set h hvu i

theorem Mirrored.getD (i : Nat) :
    Mirror tid (g.getD i default) (m.getD i default) := forall₂_getD h (mirror_unused rfl rfl) i

theorem Mirrored.freeSlot_eq : freeSlot g = freeSlot m :=
  findIdx?_forall2 h fun _ _ hvu => by rw [hvu.used]

theorem Mirrored.update (i : Nat) (f : UserVma → UserVma) (hused : ∀ x, (f x).used = x.used)
    (htid : ∀ x, (f x).tid = x.tid) (hf : ∀ x, (f x).forget = (f x.forget).forget) :
    Mirrored tid (g.set i (f (g.getD i default))) (m.set i (f (m.getD i default))) :=
  h.set ((h.getD i).update f hused htid hf) i

/-- **Adding** puts a mapping in the same slot of both tables. -/
theorem Mirrored.add (addr len prot : Nat) (kind : VmaKind) :
    Mirrored tid (userVmaAddNolock tid addr len prot kind g).2
    (addToSlots addr len prot kind m).2 := by
  have hfind :
      (g.findIdx? fun v => v.used && v.tid == tid && v.addr == addr && v.len == len
      && v.kind == kind)
      = m.findIdx? fun v => v.used && v.addr == addr && v.len == len && v.kind == kind := by
    refine findIdx?_forall2 h fun v u hvu => ?_
    have := hvu.test (fun x => x.addr == addr && x.len == len && x.kind == kind) fun _ => rfl
    simpa only [Bool.and_assoc] using this
  unfold userVmaAddNolock addToSlots
  rw [hfind, h.freeSlot_eq]
  cases m.findIdx? fun v => v.used && v.addr == addr && v.len == len && v.kind == kind with
  | some i =>
    exact h.update i (fun x => { x with prot := prot }) (fun _ => rfl) (fun _ => rfl) fun _ => rfl
  | none =>
    cases freeSlot m with
    | none => exact h
    | some i =>
      refine h.set ?_ i
      exact ⟨rfl, fun _ => ⟨rfl, rfl⟩⟩

end

/-! ## Unmapping -/

theorem Mirrored.split_step (sp i : Nat) {s : Slots} (h : Mirrored tid s.vmas t.vmas) :
    Flow.Rel (fun s t : Slots => Mirrored tid s.vmas t.vmas)
      (splitStep (fun x => x == tid) sp i s) (splitStep (fun _ => true) sp i t) := by
  have hget := h.getD i
  unfold splitStep
  generalize s.vmas.getD i default = v at hget ⊢
  generalize t.vmas.getD i default = u at hget ⊢
  cases hu : u.used with
  | false =>
    simp only [hget.used, hu, Bool.not_false, Bool.true_or, if_true]
    exact h
  | true =>
    have hst : v.straddles sp = u.straddles sp := by
      have := congrArg (UserVma.straddles sp) (hget.same hu).2
      exact this
    simp only [hget.used, hu, (hget.same hu).1, beq_self_eq_true, hst, h.freeSlot_eq,
      Bool.not_true, Bool.or_false, Bool.false_eq_true, if_false]
    cases hs : u.straddles sp with
    | false => exact h
    | true =>
      cases hfree : freeSlot t.vmas with
      | none => exact ⟨rfl, h⟩
      | some j =>
        refine Mirrored.set (Mirrored.set h ?_ j) ?_ i
        · exact hget.update (UserVma.rightOf sp) (fun _ => rfl) (fun _ => rfl) fun _ => rfl
        · exact hget.update (UserVma.leftOf sp) (fun _ => rfl) (fun _ => rfl) fun _ => rfl

/-- **The split loops** run in lockstep. -/
theorem Mirrored.split (sp : Nat) {s : Slots} (h : Mirrored tid s.vmas t.vmas) :
    (splitOwnedAt (fun x => x == tid) sp s).1 = (splitOwnedAt (fun _ => true) sp t).1
      ∧ Mirrored tid (splitOwnedAt (fun x => x == tid) sp s).2.vmas
          (splitOwnedAt (fun _ => true) sp t).2.vmas := by
  have hloop := forLoop_rel (fun s t : Slots => Mirrored tid s.vmas t.vmas)
    (fun j s t hst => Mirrored.split_step sp j hst) s.vmas.length 0 s t h
  unfold splitOwnedAt
  rw [← h.length]
  cases hs : forLoop (splitStep (fun x => x == tid) sp) s.vmas.length 0 s with
  | next s' =>
    cases ht : forLoop (splitStep (fun _ => true) sp) s.vmas.length 0 t with
    | next t' =>
      rw [hs, ht] at hloop
      exact ⟨rfl, hloop⟩
    | ret r t' =>
      rw [hs, ht] at hloop
      exact hloop.elim
  | ret r s' =>
    cases ht : forLoop (splitStep (fun _ => true) sp) s.vmas.length 0 t with
    | next t' =>
      rw [hs, ht] at hloop
      exact hloop.elim
    | ret r' t' =>
      rw [hs, ht] at hloop
      exact hloop

theorem Mirrored.clear (addr fin : Nat) {s : Slots} (h : Mirrored tid s.vmas t.vmas) :
    Mirrored tid (clearOwnedIn (fun x => x == tid) addr fin s).vmas
      (clearOwnedIn (fun _ => true) addr fin t).vmas := by
  rw [(clearOwnedIn_eq _ addr fin s).1, (clearOwnedIn_eq _ addr fin t).1]
  unfold Mirrored
  rw [List.forall₂_map_left_iff, List.forall₂_map_right_iff]
  refine h.imp fun v u hvu => ?_
  have htest := hvu.test (UserVma.overlaps addr fin) fun _ => rfl
  unfold UserVma.clearIf
  rw [Bool.and_true]
  by_cases hc : (u.used && u.overlaps addr fin) = true
  · rw [if_pos hc, if_pos (htest.trans hc)]
    exact mirror_unused (clear_used v) (clear_used u)
  · rw [if_neg hc, if_neg (by rw [htest]; exact hc)]
    exact hvu

end Tables

/-! ## The state -/

/-- A user process with one thread: no other thread uses its address space. -/
structure SingleThreaded (w : VmaState) (owner : Thread) (mm : MmId) : Prop where
  get : threadGet w owner.tid = some owner
  tid : owner.tid ≠ 0
  ring : owner.ring = 3
  space : owner.mm = some mm
  listed : ∃ j, threadGetByIndex w j = some owner
  alone : ∀ j u, threadGetByIndex w j = some u → u.mm = some mm → u = owner

variable {w : VmaState} {owner : Thread} {mm : MmId} {g m : List UserVma}

theorem threadGetByIndex_lt {j : Nat} {u : Thread} (h : threadGetByIndex w j = some u) :
    j < w.threadCount := by
  by_contra hge
  unfold threadGetByIndex at h
  rw [if_pos (by omega)] at h
  cases h

/-- The records of the process are those under its thread id. -/
theorem SingleThreaded.owns (h : SingleThreaded w owner mm) :
    userVmaTidMatchesRunnerMmNolock w (some owner) = fun x => x == owner.tid := by
  have hrec : owner.recordTid = owner.tid := if_neg h.tid
  funext x
  unfold userVmaTidMatchesRunnerMmNolock
  simp only [h.space]
  rw [Bool.eq_iff_iff, List.any_eq_true, beq_iff_eq]
  constructor
  · rintro ⟨j, -, hj⟩
    cases hu : threadGetByIndex w j with
    | none => rw [hu] at hj; cases hj
    | some u =>
      rw [hu] at hj
      simp only [Bool.and_eq_true, beq_iff_eq] at hj
      rw [h.alone j u hu hj.1.2, hrec] at hj
      exact hj.2.symm
  · rintro rfl
    obtain ⟨j, hj⟩ := h.listed
    refine ⟨j, mem_range.mpr (threadGetByIndex_lt hj), ?_⟩
    rw [hj]
    simp [h.ring, h.space, hrec]

/-- The slots of the address space; before the first mapping they are all free. -/
def storeOf (w : VmaState) (mm : MmId) : List UserVma :=
  (w.storage mm).getD (List.replicate w.global.length default)

/-- What a table says about an address: the protection, the kind and what backs it, taken from the
first record that contains it. -/
def lookup (owns : Nat → Bool) (t : List UserVma) (va : Nat) :
    Option (Nat × VmaKind × Option (FileId × Nat)) :=
  (t.find? fun v => v.used && owns v.tid && decide (v.addr ≤ va) && decide (va < v.vend)).map
    fun v => ((v.attrAt va).prot, (v.attrAt va).kind, (v.attrAt va).backing)

theorem Mirrored.lookup_eq {tid : Nat} (h : Mirrored tid g m) (va : Nat) :
    lookup (fun x => x == tid) g va = lookup (fun _ => true) m va := by
  unfold lookup
  induction h with
  | nil => rfl
  | @cons v u g m hvu _ ih =>
    have htest := hvu.test (fun x => decide (x.addr ≤ va) && decide (va < x.vend)) fun _ => rfl
    simp only [← Bool.and_assoc] at htest
    rw [find?_cons, find?_cons, Bool.and_true, htest]
    cases hu : (u.used && decide (u.addr ≤ va) && decide (va < u.vend)) with
    | false => exact ih
    | true =>
      have hused : u.used = true := by
        simp only [Bool.and_eq_true] at hu
        exact hu.1.1
      have hattr := congrArg (fun x => ((UserVma.attrAt x va).prot, (UserVma.attrAt x va).kind,
        (UserVma.attrAt x va).backing)) (hvu.same hused).2
      exact congrArg some hattr

theorem lookup_unused (owns : Nat → Bool) (n va : Nat) :
    lookup owns (List.replicate n default) va = none := by
  unfold lookup
  rw [map_eq_none_iff, find?_eq_none]
  intro v hv
  rw [eq_of_mem_replicate hv]
  exact Bool.false_ne_true

/-- The stores of the process agree slot by slot, and no record wraps. -/
structure Agree (owner : Thread) (mm : MmId) (w : VmaState) : Prop where
  threads : SingleThreaded w owner mm
  mirrored : Mirrored owner.tid w.global (storeOf w mm)
  noWrap : NoWrap w.global

section Calls

variable {owner : Thread} {mm : MmId} {w : VmaState} {addr len prot off : Nat} {kind : VmaKind}
    {t : List UserVma}

theorem storeOf_withStorage (s : Slots) : storeOf (w.withStorage mm s) mm = s.vmas := by
  unfold storeOf VmaState.withStorage
  dsimp only
  rw [if_pos rfl]
  rfl

theorem storeOf_withGlobal {s : Slots} (hlen : s.vmas.length = w.global.length) :
    storeOf (w.withGlobal s) mm = storeOf w mm := by
  unfold storeOf VmaState.withGlobal
  rw [hlen]

/-- The threads are no concern of the stores. -/
theorem SingleThreaded.of_same {w' : VmaState} (h : SingleThreaded w owner mm)
    (ht : w'.threads = w.threads) (hc : w'.threadCount = w.threadCount) :
    SingleThreaded w' owner mm := by
  have hget : threadGet w' = threadGet w := by
    unfold threadGet
    rw [ht]
  have hidx : threadGetByIndex w' = threadGetByIndex w := by
    unfold threadGetByIndex
    rw [ht, hc]
  exact ⟨by rw [hget]; exact h.get, h.tid, h.ring, h.space, by rw [hidx]; exact h.listed,
    by rw [hidx]; exact h.alone⟩

theorem SingleThreaded.mm_eq (h : SingleThreaded w owner mm) :
    (threadGet w owner.tid).bind (·.mm) = some mm := by
  rw [h.get, bind_some, h.space]

/-- The address space has its store, or there is memory for one. -/
def HasStore (kmallocOk : Bool) (mm : MmId) (w : VmaState) : Prop :=
  kmallocOk = true ∨ (w.storage mm).isSome = true

variable {kmallocOk : Bool}

theorem HasStore.withGlobal (hs : HasStore kmallocOk mm w) (s : Slots) :
    HasStore kmallocOk mm (w.withGlobal s) := hs

theorem userVmaMmStorage_eq (hs : HasStore kmallocOk mm w) :
    userVmaMmStorage kmallocOk w mm = some (storeOf w mm) := by
  unfold userVmaMmStorage storeOf
  unfold HasStore at hs
  cases ht : w.storage mm with
  | some t => rfl
  | none =>
    rw [ht] at hs
    rw [hs.resolve_right (by decide)]
    rfl

theorem userVmaAddMm_eq (hs : HasStore kmallocOk mm w) (addr len prot : Nat) (kind : VmaKind) :
    userVmaAddMm kmallocOk w mm addr len prot kind
          = ((addToSlots addr len prot kind (storeOf w mm)).1,
          w.withStorage mm ⟨(addToSlots addr len prot kind (storeOf w mm)).2, w.fileRefs⟩) := by
  unfold userVmaAddMm
  rw [userVmaMmStorage_eq hs]

theorem addNolock_keeps (tid prot : Nat) (kind : VmaKind) (hw : NoWrap t)
    (hr : addr + len < 2 ^ 64) :
    (userVmaAddNolock tid addr len prot kind t).2.length = t.length
      ∧ NoWrap (userVmaAddNolock tid addr len prot kind t).2 := by
  unfold userVmaAddNolock
  split
  next i hi =>
    refine ⟨length_set, hw.set i ?_⟩
    obtain ⟨hlt, -, -⟩ := findIdx?_eq_some_iff_getElem.mp hi
    rw [getD_of_getElem? (getElem?_eq_getElem hlt)]
    exact hw t[i] (getElem_mem hlt)
  next =>
    split
    next i _ => exact ⟨length_set, hw.set i fun _ => hr⟩
    next => exact ⟨rfl, hw⟩

theorem Agree.add (h : Agree owner mm w) (hs : HasStore kmallocOk mm w) (hr : addr + len < 2 ^ 64) :
    Agree owner mm (userVmaAdd kmallocOk w owner.tid addr len prot kind).2 := by
  obtain ⟨hlen, hw⟩ := addNolock_keeps owner.tid prot kind h.noWrap hr
  have hm := h.mirrored.add addr len prot kind
  unfold userVmaAdd
  rw [h.threads.mm_eq]
  dsimp only
  rw [userVmaAddMm_eq (hs.withGlobal _), storeOf_withGlobal hlen]
  refine ⟨h.threads.of_same rfl rfl, ?_, hw⟩
  rw [storeOf_withStorage]
  exact hm

theorem Agree.grow (h : Agree owner mm w) {oldLen newLen : Nat} (hr : addr + newLen < 2 ^ 64) :
    Agree owner mm (userVmaGrow w (some owner) addr oldLen newLen).2 := by
  have hfind : (w.global.findIdx? fun v => v.used
        && userVmaTidMatchesRunnerMmNolock w (some owner) v.tid && v.addr == addr
        && v.len == oldLen)
      = (storeOf w mm).findIdx? fun v => v.used && v.addr == addr && v.len == oldLen := by
    rw [h.threads.owns]
    refine findIdx?_forall2 h.mirrored fun v u hvu => ?_
    have := hvu.test (fun x => x.addr == addr && x.len == oldLen) fun _ => rfl
    simpa only [Bool.and_assoc] using this
  unfold userVmaGrow
  dsimp only
  split
  · exact h
  rw [hfind]
  cases hi : (storeOf w mm).findIdx? fun v => v.used && v.addr == addr && v.len == oldLen with
  | none => exact h
  | some i =>
    rw [hi] at hfind
    have hw : NoWrap (setLen i newLen w.global) := by
      obtain ⟨hlt, hp, -⟩ := findIdx?_eq_some_iff_getElem.mp hfind
      simp only [Bool.and_eq_true, beq_iff_eq] at hp
      intro u hu
      rcases mem_or_eq_of_mem_set hu with hmem | rfl
      · exact h.noWrap u hmem
      · intro _
        rw [getD_of_getElem? (getElem?_eq_getElem hlt), hp.1.2]
        exact hr
    rw [h.threads.space]
    dsimp only
    cases hst : w.storage mm with
    | none =>
      -- a store that was never allocated has no record to find
      exfalso
      obtain ⟨hlt, hp, -⟩ := findIdx?_eq_some_iff_getElem.mp hi
      have hfree : (storeOf w mm)[i].used = false := by
        have hmem := getElem_mem hlt
        unfold storeOf at hmem ⊢
        simp only [hst, getD_none] at hmem ⊢
        rw [eq_of_mem_replicate hmem]
        rfl
      simp only [hfree, Bool.false_and] at hp
      cases hp
    | some t =>
      have hstore : storeOf w mm = t := by
        unfold storeOf
        rw [hst]
        rfl
      rw [← hstore]
      dsimp only
      rw [hi]
      refine ⟨h.threads.of_same rfl rfl, ?_, hw⟩
      rw [storeOf_withStorage]
      exact h.mirrored.update i (fun x => { x with len := newLen }) (fun _ => rfl)
        (fun _ => rfl) fun _ => rfl

/-- Adding succeeds, and the record is there, or it changes nothing. -/
theorem addNolock_cases (tid addr len prot : Nat) (kind : VmaKind) (t : List UserVma) :
    (∃ t', userVmaAddNolock tid addr len prot kind t = (0, t')
        ∧ ∃ v ∈ t', (v.used && v.tid == tid && v.addr == addr && v.len == len) = true
        ∧ v.prot = prot)
      ∨ userVmaAddNolock tid addr len prot kind t = (-1, t) := by
  unfold userVmaAddNolock
  split
  next i hi =>
    obtain ⟨hlt, hp, -⟩ := findIdx?_eq_some_iff_getElem.mp hi
    refine .inl ⟨_, rfl, _, mem_set hlt _, ?_, rfl⟩
    rw [getD_of_getElem? (getElem?_eq_getElem hlt)]
    simp only [Bool.and_eq_true] at hp ⊢
    exact hp.1
  next =>
    split
    next i hi =>
      obtain ⟨u, hu, -⟩ := freeSlot_some hi
      exact .inl ⟨_, rfl, _, mem_set (lt_of_getElem? hu) _, by simp, rfl⟩
    next => exact .inr rfl

theorem replaceFile_noWrap {i : Nat} {f : FileId} (r : FileId → Int) (hw : NoWrap t) :
    NoWrap (replaceFile i f off ⟨t, r⟩).vmas := by
  apply hw.set
  by_cases hlt : i < t.length
  · rw [getD_of_getElem? (getElem?_eq_getElem hlt)]
    exact hw t[i] (getElem_mem hlt)
  have hdef : t.getD i default = default := by
    rw [getD_eq_getElem?_getD, getElem?_eq_none (by omega)]
    rfl
  rw [hdef]
  intro hused
  cases hused

/-- The records of the thread that contain the address are those with this address and length. -/
def OnlyExact (tid addr len : Nat) (t : List UserVma) : Prop :=
  ∀ v ∈ t, v.holdsAddr tid addr = true → v.addr = addr ∧ v.len = len

instance (tid addr len : Nat) (t : List UserVma) : Decidable (OnlyExact tid addr len t) :=
  inferInstanceAs (Decidable (∀ v ∈ t, _ → _))

theorem OnlyExact.test {tid : Nat} {v : UserVma} (h : OnlyExact tid addr len t) (hw : NoWrap t)
    (h0 : len ≠ 0) (hv : v ∈ t) :
    v.holdsAddr tid addr = (v.used && v.tid == tid && v.addr == addr && v.len == len) := by
  rw [Bool.eq_iff_iff, holdsAddr_iff]
  simp only [Bool.and_eq_true, beq_iff_eq]
  constructor
  · rintro ⟨hused, htid, hle, hlt⟩
    obtain ⟨haddr, hlen⟩ := h v hv (holdsAddr_iff.mpr ⟨hused, htid, hle, hlt⟩)
    exact ⟨⟨⟨hused, htid⟩, haddr⟩, hlen⟩
  · rintro ⟨⟨⟨hused, htid⟩, haddr⟩, hlen⟩
    have hwrap := hw v hv hused
    refine ⟨hused, htid, haddr.le, ?_⟩
    rw [UserVma.vend, Nat.mod_eq_of_lt hwrap]
    omega

theorem OnlyExact.add {tid : Nat} (prot : Nat) (kind : VmaKind) (h : OnlyExact tid addr len t) :
    OnlyExact tid addr len (userVmaAddNolock tid addr len prot kind t).2 := by
  unfold userVmaAddNolock
  split
  next i hi =>
    obtain ⟨hlt, hp, -⟩ := findIdx?_eq_some_iff_getElem.mp hi
    intro v hv hholds
    rcases mem_or_eq_of_mem_set hv with hmem | rfl
    · exact h v hmem hholds
    · rw [getD_of_getElem? (getElem?_eq_getElem hlt)]
      simp only [Bool.and_eq_true, beq_iff_eq] at hp
      exact ⟨hp.1.1.2, hp.1.2⟩
  next =>
    split
    · intro v hv hholds
      rcases mem_or_eq_of_mem_set hv with hmem | rfl
      · exact h v hmem hholds
      · exact ⟨rfl, rfl⟩
    · exact h

/-- **`user_vma_add_file`**, when the records that contain the address are like the one that is
added. -/
theorem Agree.add_file (h : Agree owner mm w) (hs : HasStore kmallocOk mm w) {file : Option FileId}
    (hr : addr + len < 2 ^ 64) (hex : OnlyExact owner.tid addr len w.global) :
    Agree owner mm (userVmaAddFile kmallocOk w owner.tid addr len prot kind file off).2 := by
  obtain ⟨hlen, hw⟩ := addNolock_keeps owner.tid prot kind.ofFile h.noWrap hr
  have hm := h.mirrored.add addr len prot kind.ofFile
  unfold userVmaAddFile
  cases file with
  | none => exact h
  | some f =>
    dsimp only
    by_cases h0 : len = 0
    · rw [if_pos h0]
      exact h
    rw [if_neg h0]
    -- both halves of the function find the same record
    have hfound : userVmaFindContainingNolock owner.tid addr
          (userVmaAddNolock owner.tid addr len prot kind.ofFile w.global).2
        = (userVmaAddNolock owner.tid addr len prot kind.ofFile w.global).2.findIdx? fun v =>
            v.used && v.tid == owner.tid && v.addr == addr && v.len == len :=
      findIdx?_forall2 (forall₂_same.mpr fun _ hv => (hex.add prot kind.ofFile).test hw h0 hv)
        fun _ _ h => h
    rcases addNolock_cases owner.tid addr len prot kind.ofFile w.global with
      ⟨t', he, v, hv, hp, -⟩ | he
    · rw [he] at hlen hw hm hfound ⊢
      cases hi : t'.findIdx? fun v =>
          v.used && v.tid == owner.tid && v.addr == addr && v.len == len with
      | none =>
        have hno := findIdx?_eq_none_iff.mp hi v hv
        rw [hp] at hno
        cases hno
      | some i =>
        rw [hi] at hfound
        simp only [hfound, h.threads.mm_eq]
        have hlen' : (replaceFile i f off ⟨t', w.fileRefs⟩).vmas.length = w.global.length := by
          rw [← hlen]
          exact length_set
        -- the second half of the function finds the same slot
        have hsame : ((addToSlots addr len prot kind.ofFile (storeOf w mm)).2.findIdx? fun v =>
            v.used && v.addr == addr && v.len == len) = some i := by
          rw [← hi]
          refine (findIdx?_forall2 hm fun v u hvu => ?_).symm
          have := hvu.test (fun x => x.addr == addr && x.len == len) fun _ => rfl
          simpa only [Bool.and_assoc] using this
        rw [userVmaAddMm_eq (hs.withGlobal _), storeOf_withGlobal hlen']
        unfold attachFileMm
        rw [show ∀ s : Slots, ((w.withGlobal (replaceFile i f off ⟨t', w.fileRefs⟩)).withStorage
            mm s).storage mm = some s.vmas from fun s => if_pos rfl]
        dsimp only
        rw [hsame]
        refine ⟨h.threads.of_same rfl rfl, ?_, replaceFile_noWrap w.fileRefs hw⟩
        rw [storeOf_withStorage]
        exact hm.update i (fun x => { x with file := some f, fileOff := off }) (fun _ => rfl)
          (fun _ => rfl) fun _ => rfl
    · rw [he]
      exact h

/-- Every record of the thread is outside the range, or within it and with this protection
already. -/
def Settled (tid addr len prot : Nat) (t : List UserVma) : Prop :=
  ∀ v ∈ t, v.used = true → v.tid = tid →
    v.vend ≤ addr ∨ addr + len ≤ v.addr ∨ addr ≤ v.addr ∧ v.vend ≤ addr + len ∧ v.prot = prot

instance (tid addr len prot : Nat) (t : List UserVma) : Decidable (Settled tid addr len prot t) :=
  inferInstanceAs (Decidable (∀ v ∈ t, _ → _ → _))

theorem splitAt_same {tid sp : Nat} {s : Slots} (hno : NoStraddle tid sp s.vmas) :
    userVmaSplitAtNolock tid sp s = (0, s) := by
  unfold userVmaSplitAtNolock
  cases hfind : userVmaFindContainingNolock tid sp s.vmas with
  | none => rfl
  | some i =>
    obtain ⟨v, hi, hholds, -⟩ := findContaining_some hfind
    have haddr := hno v (mem_of_getElem? hi) hholds
    dsimp only
    rw [getD_of_getElem? hi, if_pos (.inl haddr.symm)]

/-- **`user_vma_set_prot`**, when there is nothing to change. -/
theorem userVmaSetProt_settled {tid : Nat} (hr : addr + len < 2 ^ 64)
    (hset : Settled tid addr len prot w.global) : (userVmaSetProt w tid addr len prot).2 = w := by
  have hlo : NoStraddle tid addr w.global := by
    intro v hv hholds
    obtain ⟨hused, htid, hle, hlt⟩ := holdsAddr_iff.mp hholds
    rcases hset v hv hused htid with hend | hbegin | ⟨hge, -⟩ <;> omega
  have hhi : NoStraddle tid (addr + len) w.global := by
    intro v hv hholds
    obtain ⟨hused, htid, hle, hlt⟩ := holdsAddr_iff.mp hholds
    rcases hset v hv hused htid with hend | hbegin | ⟨-, hend, -⟩ <;> omega
  have hmap : w.global.map (UserVma.setProtIn tid addr (addr + len) prot) = w.global := by
    refine (map_congr_left fun v hv => ?_).trans (map_id w.global)
    unfold UserVma.setProtIn
    split
    next hin =>
      simp only [Bool.and_eq_true, beq_iff_eq, Bool.not_eq_true', Bool.or_eq_false_iff,
        decide_eq_false_iff_not] at hin
      rcases hset v hv hin.1.1 hin.1.2 with hend | hbegin | ⟨-, -, hprot⟩
      · exact absurd hend hin.2.1
      · exact absurd hbegin hin.2.2
      · rw [← hprot]
        rfl
    next => rfl
  unfold userVmaSetProt
  simp only [Nat.mod_eq_of_lt hr, splitAt_same (s := ⟨w.global, w.fileRefs⟩) hlo,
    splitAt_same (s := ⟨w.global, w.fileRefs⟩) hhi, hmap]
  rfl

/-- Nothing is split in a table without records. -/
theorem split_unused (owns : Nat → Bool) (sp n : Nat) (r : FileId → Int) :
    splitOwnedAt owns sp ⟨List.replicate n default, r⟩ = (0, ⟨List.replicate n default, r⟩) := by
  have hloop := forLoop_rule (splitStep owns sp)
    (fun _ s => s = (⟨List.replicate n default, r⟩ : Slots)) (fun _ _ => False)
    (List.replicate n (default : UserVma)).length 0 ⟨List.replicate n default, r⟩
    (by
      rintro i s - - rfl
      have hfree : (List.replicate n (default : UserVma)).getD i default = default := by
        rw [getD_eq_getElem?_getD, getElem?_replicate]
        split <;> rfl
      unfold splitStep
      rw [hfree]
      rfl)
    rfl
  unfold splitOwnedAt
  cases hf : forLoop (splitStep owns sp) (List.replicate n (default : UserVma)).length 0
      ⟨List.replicate n default, r⟩ with
  | next s =>
    rw [hf] at hloop
    rw [show s = _ from hloop]
  | ret k s =>
    rw [hf] at hloop
    exact hloop.elim

theorem clear_unused (owns : Nat → Bool) (addr fin n : Nat) (r : FileId → Int) :
    (clearOwnedIn owns addr fin ⟨List.replicate n default, r⟩).vmas = List.replicate n default := by
  rw [(clearOwnedIn_eq owns addr fin _).1, map_replicate]
  rfl

theorem Agree.unmap (h : Agree owner mm w) (hr : addr + len < 2 ^ 64) :
    Agree owner mm (userVmaUnmapRange w owner.tid addr len).2 := by
  have howns := h.threads.owns
  have hmirror := h.mirrored
  obtain ⟨otid, oring, omm⟩ := owner
  obtain rfl : omm = some mm := h.threads.space
  unfold userVmaUnmapRange
  simp only [Nat.mod_eq_of_lt hr, h.threads.get]
  by_cases hcap : userVmaUnmapCapacityNolock w (some ⟨otid, oring, some mm⟩) addr (addr + len) = 0
  · rw [if_neg (not_not.mpr hcap)]
    obtain ⟨hg, hs⟩ := (capacity_zero_iff w rfl howns.symm addr (addr + len)).mp hcap
    obtain ⟨g1, g2, hg1, hg2, -, hgw, hgl, -⟩ := unmap_slots (fun x => x == otid) addr len
      (s := ⟨w.global, w.fileRefs⟩) h.noWrap hg
    -- the same splits in the store of the address space
    obtain ⟨m1, m2, hm1, hm2, hm⟩ : ∃ m1 m2, splitOwnedAt (fun _ => true) addr
          ⟨storeOf w mm, g2.refs⟩ = (0, m1)
          ∧ splitOwnedAt (fun _ => true) (addr + len) m1 = (0, m2)
          ∧ Mirrored otid g2.vmas m2.vmas := by
      obtain ⟨hrc1, hmir1⟩ := Mirrored.split addr (s := ⟨w.global, w.fileRefs⟩)
        (t := ⟨storeOf w mm, g2.refs⟩) hmirror
      rw [hg1] at hrc1 hmir1
      obtain ⟨hrc2, hmir2⟩ := Mirrored.split (addr + len) hmir1
      rw [hg2] at hrc2 hmir2
      refine ⟨(splitOwnedAt (fun _ => true) addr ⟨storeOf w mm, g2.refs⟩).2,
        (splitOwnedAt (fun _ => true) (addr + len)
          (splitOwnedAt (fun _ => true) addr ⟨storeOf w mm, g2.refs⟩).2).2, ?_, ?_, hmir2⟩
      · exact Prod.ext hrc1.symm rfl
      · exact Prod.ext hrc2.symm rfl
    cases ht : w.storage mm with
    | none =>
      have hstore : storeOf w mm = List.replicate w.global.length default := by
        unfold storeOf
        rw [ht]
        rfl
      rw [hstore, split_unused] at hm1
      obtain rfl : _ = m1 := congrArg Prod.snd hm1
      rw [split_unused] at hm2
      obtain rfl : _ = m2 := congrArg Prod.snd hm2
      obtain ⟨hsplit, hclear⟩ := unmapRun_global howns ht hg1 hg2
      have hmir := Mirrored.clear addr (addr + len) hm
      rw [clear_unused, ← hstore] at hmir
      simp only [hsplit]
      rw [hclear]
      refine ⟨h.threads.of_same rfl rfl, ?_, clear_noWrap hgw⟩
      rw [storeOf_withGlobal (by rw [(clearOwnedIn_eq _ _ _ g2).1, length_map, hgl])]
      exact hmir
    | some t =>
      have hstore : storeOf w mm = t := by
        unfold storeOf
        rw [ht]
        rfl
      rw [hstore] at hm1
      obtain ⟨hsplit, hclear⟩ := unmapRun_both howns ht hg1 hg2 hm1 hm2
      simp only [hsplit]
      rw [hclear]
      refine ⟨h.threads.of_same rfl rfl, ?_, clear_noWrap hgw⟩
      rw [storeOf_withStorage]
      exact Mirrored.clear addr (addr + len) hm
  · rw [if_pos hcap]
    exact h

end Calls

/-! ## Runs -/

/-- The calls of a process that change its mappings, with what `kmalloc` says when they ask for a
store. -/
inductive StoreCall where
  | add (kmallocOk : Bool) (addr len prot : Nat) (kind : VmaKind)
  | addFile (kmallocOk : Bool) (addr len prot : Nat) (kind : VmaKind)
      (file : Option FileId) (off : Nat)
  | unmap (addr len : Nat)
  | setProt (addr len prot : Nat)
  | grow (addr oldLen newLen : Nat)
  deriving DecidableEq, Repr

def StoreCall.run (owner : Thread) (w : VmaState) : StoreCall → VmaState
  | .add kmallocOk addr len prot kind => (userVmaAdd kmallocOk w owner.tid addr len prot kind).2
  | .addFile kmallocOk addr len prot kind file off =>
    (userVmaAddFile kmallocOk w owner.tid addr len prot kind file off).2
  | .unmap addr len => (userVmaUnmapRange w owner.tid addr len).2
  | .setProt addr len prot => (userVmaSetProt w owner.tid addr len prot).2
  | .grow addr oldLen newLen => (userVmaGrow w (some owner) addr oldLen newLen).2

/-- The calls that treat both stores alike: ranges do not wrap, there is memory for the store when
it is needed, no older record but an equal one contains the address a file is mapped at, and a
change of protection finds nothing to change. -/
def StoreCall.Mirrors (owner : Thread) (mm : MmId) (w : VmaState) : StoreCall → Prop
  | .add kmallocOk addr len _ _ => addr + len < 2 ^ 64 ∧ HasStore kmallocOk mm w
  | .addFile kmallocOk addr len _ _ _ _ =>
    addr + len < 2 ^ 64 ∧ HasStore kmallocOk mm w ∧ OnlyExact owner.tid addr len w.global
  | .unmap addr len => addr + len < 2 ^ 64
  | .setProt addr len prot => addr + len < 2 ^ 64 ∧ Settled owner.tid addr len prot w.global
  | .grow addr _ newLen => addr + newLen < 2 ^ 64

def runStores (owner : Thread) (calls : List StoreCall) (w : VmaState) : VmaState :=
  calls.foldl (StoreCall.run owner) w

def CallsMirror (owner : Thread) (mm : MmId) : List StoreCall → VmaState → Prop
  | [], _ => True
  | c :: cs, w => c.Mirrors owner mm w ∧ CallsMirror owner mm cs (c.run owner w)

/-- A process before its first mapping. -/
structure EmptyStores (owner : Thread) (mm : MmId) (w : VmaState) : Prop where
  threads : SingleThreaded w owner mm
  global : ∀ v ∈ w.global, v.used = false
  store : ∀ t, w.storage mm = some t → t.length = w.global.length ∧ ∀ v ∈ t, v.used = false

theorem mirrored_unused (tid : Nat) (hlen : g.length = m.length) (hg : ∀ v ∈ g, v.used = false)
    (hm : ∀ v ∈ m, v.used = false) : Mirrored tid g m := by
  induction g generalizing m with
  | nil =>
    rw [length_eq_zero_iff.mp hlen.symm]
    exact List.Forall₂.nil
  | cons v g ih =>
    cases m with
    | nil => cases hlen
    | cons u m =>
      refine List.Forall₂.cons (mirror_unused (hg v mem_cons_self)
        (hm u mem_cons_self)) (ih (Nat.succ.inj hlen) ?_ ?_)
      · exact fun x hx => hg x (mem_cons_of_mem _ hx)
      · exact fun x hx => hm x (mem_cons_of_mem _ hx)

theorem EmptyStores.agree (h : EmptyStores owner mm w) : Agree owner mm w := by
  refine ⟨h.threads, ?_, ?_⟩
  · unfold storeOf
    cases ht : w.storage mm with
    | none =>
      refine mirrored_unused _ (length_replicate).symm h.global ?_
      intro v hv
      rw [eq_of_mem_replicate hv]
      rfl
    | some t =>
      obtain ⟨hlen, hun⟩ := h.store t ht
      exact mirrored_unused _ hlen.symm h.global hun
  · intro v hv hused
    rw [h.global v hv] at hused
    cases hused

theorem storeCall_agree {c : StoreCall} (h : Agree owner mm w) (hc : c.Mirrors owner mm w) :
    Agree owner mm (c.run owner w) := by
  cases c with
  | add kmallocOk addr len prot kind => exact h.add hc.2 hc.1
  | addFile kmallocOk addr len prot kind file off => exact h.add_file hc.2.1 hc.1 hc.2.2
  | unmap addr len => exact h.unmap hc
  | grow addr oldLen newLen => exact h.grow hc
  | setProt addr len prot =>
    dsimp only [StoreCall.run]
    rw [userVmaSetProt_settled hc.1 hc.2]
    exact h

theorem runStores_agree {calls : List StoreCall} (h : Agree owner mm w)
    (hok : CallsMirror owner mm calls w) :
    Agree owner mm (runStores owner calls w) := by
  induction calls generalizing w with
  | nil => exact h
  | cons c cs ih => exact ih (storeCall_agree h hok.1) hok.2

/-- The map read from the global store is the one read from the store of the address space. -/
theorem Agree.lookup_eq (h : Agree owner mm w) (va : Nat) :
      lookup (fun x => x == owner.tid) w.global va
      = lookup (fun _ => true) ((w.storage mm).getD []) va := by
  rw [h.mirrored.lookup_eq va]
  unfold storeOf
  cases w.storage mm with
  | none => exact lookup_unused _ _ va
  | some t => rfl

/-- A child that has no store yet gets the mappings of the parent, if there is memory for its
store. -/
theorem Agree.clone {dst : MmId} (h : Agree owner mm w) (hdst : w.storage dst = none) :
    (userVmaCloneMm true w dst mm).1 = 0
      ∧ ∀ va, lookup (fun _ => true) (((userVmaCloneMm true w dst mm).2.storage dst).getD []) va
        = lookup (fun x => x == owner.tid) w.global va := by
  have hlook := h.lookup_eq
  unfold userVmaCloneMm
  rw [userVmaMmStorage_eq (.inl rfl)]
  cases ht : w.storage mm with
  | none =>
    rw [ht] at hlook
    refine ⟨rfl, fun va => ?_⟩
    rw [hdst, hlook va]
  | some t =>
    rw [ht] at hlook
    refine ⟨rfl, fun va => ?_⟩
    rw [hlook va, show ∀ s : Slots, (w.withStorage dst s).storage dst = some s.vmas from
      fun s => if_pos rfl]

/-- Without memory the clone fails, or there was nothing to copy. -/
theorem clone_noMemory {dst : MmId} (hdst : w.storage dst = none)
    (hok : (userVmaCloneMm false w dst mm).1 = 0) :
    userVmaCloneMm false w dst mm = userVmaCloneMm true w dst mm := by
  unfold userVmaCloneMm userVmaMmStorage at *
  cases ht : w.storage mm with
  | none => rfl
  | some t => simp [ht, hdst] at hok

/-- **The stores agree after every call, as long as the calls treat both alike.** In every run from
empty stores whose calls meet `StoreCall.Mirrors`, both stores give every address the same
protection, kind and backing; and a child forked then gets exactly these mappings when the clone
succeeds, as it does if there is memory. -/
theorem stores_agree (owner : Thread) (mm dst : MmId) (w : VmaState) (calls : List StoreCall)
    (kmallocOk : Bool) (hstart : EmptyStores owner mm w) (hok : CallsMirror owner mm calls w)
    (hdst : (runStores owner calls w).storage dst = none) :
    (∀ va, lookup (fun x => x == owner.tid) (runStores owner calls w).global va
        = lookup (fun _ => true) (((runStores owner calls w).storage mm).getD []) va)
      ∧ (kmallocOk = true → (userVmaCloneMm kmallocOk (runStores owner calls w) dst mm).1 = 0)
      ∧ ((userVmaCloneMm kmallocOk (runStores owner calls w) dst mm).1 = 0 → ∀ va,
          lookup (fun _ => true)
          (((userVmaCloneMm kmallocOk (runStores owner calls w) dst mm).2.storage dst).getD []) va
        = lookup (fun x => x == owner.tid) (runStores owner calls w).global va) := by
  have h := runStores_agree hstart.agree hok
  obtain ⟨hzero, hcopy⟩ := h.clone hdst
  refine ⟨h.lookup_eq, ?_, ?_⟩
  · rintro rfl
    exact hzero
  · intro hclone
    cases kmallocOk with
    | true => exact hcopy
    | false =>
      rw [clone_noMemory hdst hclone]
      exact hcopy

/-- A process of thread `1` in the address space `7`, with four slots. -/
def newProcess : VmaState :=
  { threads := [none, some ⟨1, 3, some 7⟩]
    threadCount := 2
    global := List.replicate 4 default
    storage := fun _ => none
    fileRefs := fun _ => 0 }

theorem newProcess_empty : EmptyStores ⟨1, 3, some 7⟩ 7 newProcess := by
  refine ⟨⟨by decide, by decide, rfl, rfl, ⟨1, rfl⟩, ?_⟩, ?_, ?_⟩
  · intro j u hj _
    have hlt := threadGetByIndex_lt hj
    have : j = 0 ∨ j = 1 := by
      change j < 2 at hlt
      omega
    rcases this with rfl | rfl
    · cases hj
    · injection hj with hj
      exact hj.symm
  · intro v hv
    rw [eq_of_mem_replicate hv]
    rfl
  · intro t ht
    cases ht

/-- A file is mapped, grown, given the protection it has and partly unmapped; the second mapping
finds the store that the first one has made. -/
theorem stores_agree_file : lookup (fun _ => true) (((runStores ⟨1, 3, some 7⟩
          [.addFile true 0x1000 0x2000 5 .elfLoad (some 9) 0x400, .add false 0x8000 0x1000 3 .mmap,
            .grow 0x1000 0x2000 0x3000, .setProt 0x1000 0x3000 5,
            .unmap 0x2000 0x1000] newProcess).storage 7).getD []) 0x3000
              = some (5, .elfLoad, some (9, 0x2400))
      ∧ lookup (fun x => x == 1) (runStores ⟨1, 3, some 7⟩
          [.addFile true 0x1000 0x2000 5 .elfLoad (some 9) 0x400, .add false 0x8000 0x1000 3 .mmap,
            .grow 0x1000 0x2000 0x3000, .setProt 0x1000 0x3000 5,
            .unmap 0x2000 0x1000] newProcess).global 0x3000
              = some (5, .elfLoad, some (9, 0x2400)) := by
  have h := (stores_agree ⟨1, 3, some 7⟩ 7 8 newProcess
    [.addFile true 0x1000 0x2000 5 .elfLoad (some 9) 0x400, .add false 0x8000 0x1000 3 .mmap,
      .grow 0x1000 0x2000 0x3000, .setProt 0x1000 0x3000 5,
      .unmap 0x2000 0x1000] true newProcess_empty
    ⟨⟨by decide, .inl rfl, by decide⟩, ⟨by decide, .inr (by decide)⟩,
      show 0x1000 + 0x3000 < 2 ^ 64 by decide, ⟨by decide, by decide⟩,
      show 0x2000 + 0x1000 < 2 ^ 64 by decide, trivial⟩ (by decide)).1 0x3000
  suffices hread : _ from ⟨hread, h.trans hread⟩
  decide

/-- After `mprotect` to read-only, the store of the address space still says writable; and a file
mapped inside an older mapping goes to the older record in the global store only. -/
theorem stores_agree_fails : EmptyStores ⟨1, 3, some 7⟩ 7 newProcess
      ∧ (lookup (fun x => x == 1) (runStores ⟨1, 3, some 7⟩
            [.add true 0x1000 0x2000 3 .mmap, .setProt 0x1000 0x2000 1] newProcess).global 0x1000
          = some (1, .mmap, none) ∧ lookup (fun _ => true) (((runStores ⟨1, 3, some 7⟩
            [.add true 0x1000 0x2000 3 .mmap, .setProt 0x1000 0x2000 1] newProcess).storage 7).getD
            []) 0x1000 = some (3, .mmap, none))
            ∧ (lookup (fun x => x == 1)
            (runStores ⟨1, 3, some 7⟩ [.add true 0x1000 0x3000 3 .mmap,
            .addFile true 0x2000 0x1000 5 .mmapLazy (some 9) 0] newProcess).global 0x2000
              = some (3, .mmap, some (9, 0x1000))
        ∧ lookup (fun _ => true) (((runStores ⟨1, 3, some 7⟩
            [.add true 0x1000 0x3000 3 .mmap, .addFile true 0x2000 0x1000 5 .mmapLazy (some 9) 0]
            newProcess).storage 7).getD []) 0x2000 = some (3, .mmap, none)) := by
  exact ⟨newProcess_empty, ⟨by decide, by decide⟩, by decide, by decide⟩

end AxonOS.Vma

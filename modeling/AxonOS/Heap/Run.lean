import AxonOS.Heap.Realloc

/-! # Runs of the heap

A run is a sequence of calls by callers that follow the interface: they free and resize only
pointers they hold, and write only to the bytes they asked for. Along with the heap goes the list
of the pointers that are held, each with the size of its request. After every run the heap is well
formed (`HeapOk`), and the payloads that are held are disjoint parts of it.
-/

namespace AxonOS.Heap

open Lib List Option

/-! ## Calls -/

/-- What a caller does. -/
inductive Call where
  | kmalloc (req caller : Nat)
  | kfree (p : Nat)
  | krealloc (p req caller : Nat)
  | store (a v : Nat)
  deriving DecidableEq, Repr

/-- The pointers that are held, with the size of the request. -/
abbrev Live := List (Nat × Nat)

def Live.without (p : Nat) (live : Live) : Live := live.filter fun a => a.1 ≠ p

/-- A byte store of a caller. -/
def HeapState.store (h : HeapState) (a v : Nat) : HeapState :=
  { h with mem := fun y => if y = a then v else h.mem y }

/-- One call; `none` if it does not return. -/
def Call.step : Call → HeapState × Live → Option (HeapState × Live)
  | .kmalloc req caller, s =>
    (kmallocNolock req caller s.1).map fun r =>
      (r.2, if r.1 = 0 then s.2 else (r.1, req) :: s.2)
  | .kfree p, s => some (kfreeNolock p s.1, s.2.without p)
  | .krealloc p req caller, s =>
    (kreallocNolock p req caller s.1).map fun r =>
      (r.2, if r.1 ≠ 0 then (r.1, req) :: s.2.without p else if req = 0 then s.2.without p else s.2)
  | .store a v, s => some (s.1.store a v, s.2)

/-- The request can be rounded up without wrapping. -/
def ReqOk (req : Nat) : Prop := req + 8 + 15 < 2 ^ 64

instance (req : Nat) : Decidable (ReqOk req) := inferInstanceAs (Decidable (_ < _))

/-- What a caller may do: null or held pointers, and its own bytes. -/
def Call.Ok (live : Live) : Call → Prop
  | .kmalloc req _ => ReqOk req
  | .kfree p => p = 0 ∨ ∃ r, (p, r) ∈ live
  | .krealloc p req _ => (p = 0 ∨ ∃ r, (p, r) ∈ live) ∧ ReqOk req
  | .store a _ => ∃ p r, (p, r) ∈ live ∧ p ≤ a ∧ a < p + r

variable {p : Nat} {live : Live}

theorem exists_mem_iff : (∃ a ∈ live, a.1 = p) ↔ ∃ r, (p, r) ∈ live :=
  ⟨fun ⟨a, ha, hp⟩ => ⟨a.2, hp ▸ ha⟩, fun ⟨_, hr⟩ => ⟨_, hr, rfl⟩⟩

theorem exists_own_iff {a : Nat} :
    (∃ b ∈ live, b.1 ≤ a ∧ a < b.1 + b.2) ↔ ∃ p r, (p, r) ∈ live ∧ p ≤ a ∧ a < p + r :=
  ⟨fun ⟨b, hb⟩ => ⟨b.1, b.2, hb⟩, fun ⟨p, r, h⟩ => ⟨(p, r), h⟩⟩

instance (live : Live) : (c : Call) → Decidable (c.Ok live)
  | .kmalloc req _ => inferInstanceAs (Decidable (ReqOk req))
  | .kfree _ => decidable_of_iff _ (or_congr_right exists_mem_iff)
  | .krealloc _ _ _ => decidable_of_iff _ (and_congr_left' (or_congr_right exists_mem_iff))
  | .store _ _ => decidable_of_iff _ exists_own_iff

def runCalls : List Call → HeapState × Live → Option (HeapState × Live)
  | [], s => some s
  | c :: cs, s => (c.step s).bind (runCalls cs)

def RunOk : List Call → HeapState × Live → Prop
  | [], _ => True
  | c :: cs, s => c.Ok s.2 ∧ ∀ s', c.step s = some s' → RunOk cs s'

instance decidableRunOk : (cs : List Call) → (s : HeapState × Live) → Decidable (RunOk cs s)
  | [], _ => isTrue trivial
  | c :: cs, s =>
    have := decidableRunOk cs
    inferInstanceAs (Decidable (c.Ok s.2 ∧ ∀ s' ∈ c.step s, RunOk cs s'))

/-! ## The heap between two calls -/

/-- The representation invariant, with the blocks `bs` and the free list `fl`. -/
structure HeapOk (h : HeapState) (live : Live) (bs fl : List Nat) : Prop where
  /-- the blocks start at the base, `prev` and `next` are inverse to each other -/
  blocks : DList (h.get .next) (h.get .prev) h.head bs
  first : h.head = h.base
  inverse : ∀ b ∈ bs, (h.get .next b ≠ 0 → h.get .prev (h.get .next b) = b)
    ∧ (h.get .prev b ≠ 0 → h.get .next (h.get .prev b) = b)
  /-- every block ends where the next one starts, the last one at the end of the region -/
  tiled : ∀ b ∈ bs, h.get .next b ≠ 0 → h.get .next b = b + HDR + h.get .size b
  last : ∀ b ∈ bs, h.get .next b = 0 → b + HDR + h.get .size b = h.base + h.capacity
  noAdj : ∀ b ∈ bs, h.get .next b ≠ 0 → ¬ (h.get .free b = 1 ∧ h.get .free (h.get .next b) = 1)
  /-- the free list holds exactly the free blocks, each once -/
  freeList : DList (h.get .freeNext) (h.get .freePrev) h.freeHead fl
  freeNodup : fl.Nodup
  freeExact : ∀ b, b ∈ fl ↔ b ∈ bs ∧ h.get .free b = 1
  flag : ∀ b ∈ bs, h.get .free b = 0 ∨ h.get .free b = 1
  guarded : ∀ b ∈ bs, h.get .free b = 0 → h.get .reqSize b + 8 ≤ h.get .size b
    ∧ loadLE h.mem (b + HDR + h.get .reqSize b) 8 = HEAP_CANARY_QWORD
  /-- the pointers that are held are the payloads of the allocated blocks -/
  held : ∀ p r, (p, r) ∈ live ↔ ∃ b ∈ bs, p = b + HDR ∧ h.get .free b = 0 ∧ h.get .reqSize b = r
  disjoint : live.Pairwise fun a b => a.1 + a.2 ≤ b.1 ∨ b.1 + b.2 ≤ a.1
  inside : ∀ a ∈ live, h.base ≤ a.1 ∧ a.1 + a.2 ≤ h.base + h.capacity

/-- The list of held pointers agrees with the headers. -/
structure Tracks (h : HeapState) (bs : List Nat) (live : Live) : Prop where
  nodup : (live.map Prod.fst).Nodup
  held : ∀ p r, (p, r) ∈ live ↔ ∃ x, p = x + HDR ∧ Held h bs x r

section Tracks

variable {bs bs' fl : List Nat} {h h' : HeapState} {live : Live} {x r : Nat}

theorem heapOk_of_inv (hinv : HeapInv [] [] h bs fl) (ht : Tracks h bs live) :
    HeapOk h live bs fl := by
  have hs := hinv.shape
  have hheld : ∀ p r, (p, r) ∈ live → ∃ x, p = x + HDR ∧ x ∈ bs ∧ x + HDR + r ≤ h.fin x := by
    intro p r hpr
    obtain ⟨x, hp, hx, hfx, hrx⟩ := (ht.held p r).mp hpr
    have hg := (hinv.guard x hx not_mem_nil hfx).1
    refine ⟨x, hp, hx, ?_⟩
    unfold HeapState.fin
    omega
  refine ⟨by rw [hs.head]; exact hs.blocks, hs.head, fun b hb => ⟨fun hn => (hs.next_mem hb hn).2.1,
    fun hp => (hs.prev_mem hb hp).2⟩, fun b hb hn => (hs.next_mem hb hn).2.2, ?_, ?_,
    hinv.freeList, dlist_nodup hinv.freeList, ?_, ?_,
    fun b hb hfb => ⟨(hinv.guard b hb not_mem_nil hfb).1, (hinv.guard b hb not_mem_nil hfb).2.1⟩,
    ?_, ?_, ?_⟩
  · intro b hb hn
    have ht := (hs.tile b hb).2
    split at ht
    next he => exact he
    next =>
      have hfin : h.fin b = 0 := ht.symm.trans hn
      unfold HeapState.fin HDR at hfin
      omega
  · rintro b hb hn ⟨h1, h2⟩
    rcases hinv.noAdj b hb hn h1 h2 with h3 | h3 <;> cases h3
  · exact fun b => ⟨fun hb => ⟨(hinv.listed b hb).1, (hinv.listed b hb).2.2⟩,
      fun hb => hinv.complete b hb.1 not_mem_nil hb.2⟩
  · intro b hb
    rcases hinv.flags b hb with ⟨h1, -⟩ | ⟨h1, -⟩
    · exact .inr h1
    · exact .inl h1
  · intro p r
    rw [ht.held]
    exact ⟨fun ⟨x, hp, hx, hfx, hrx⟩ => ⟨x, hx, hp, hfx, hrx⟩,
      fun ⟨x, hx, hp, hfx, hrx⟩ => ⟨x, hp, hx, hfx, hrx⟩⟩
  · -- different pointers belong to different blocks, whose extents do not overlap
    refine (pairwise_map.mp ht.nodup).imp_of_mem ?_
    rintro ⟨p, r⟩ ⟨q, s⟩ hp hq hne
    obtain ⟨x, rfl, hx, hxr⟩ := hheld p r hp
    obtain ⟨y, rfl, hy, hys⟩ := hheld q s hq
    rcases hs.ext hx hy with h3 | h3 | h3
    · exact absurd (by rw [h3]) hne
    · left; omega
    · right; omega
  · rintro ⟨p, r⟩ hp
    obtain ⟨x, rfl, hx, hxr⟩ := hheld p r hp
    have h1 := hs.base_le x hx
    have h2 := (hs.tile x hx).1
    unfold HeapState.lim at h2
    omega

theorem Tracks.find (ht : Tracks h bs live) (hp : (p, r) ∈ live) :
    ∃ x, p = x + HDR ∧ Held h bs x r := (ht.held p r).mp hp

theorem mem_without {q : Nat} : (q, r) ∈ live.without p ↔ (q, r) ∈ live ∧ q ≠ p := by
  unfold Live.without
  simp

theorem Tracks.without_absent (ht : Tracks h bs live) (hp : ∀ x ∈ bs, p ≠ x + HDR) :
    live.without p = live := by
  refine filter_eq_self.mpr fun a ha => ?_
  obtain ⟨x, hx, hxb, -⟩ := ht.find ha
  have := hp x hxb
  simp only [decide_eq_true_eq, ne_eq]
  omega

theorem Tracks.remove (ht : Tracks h bs live) (hgone : ∀ r, ¬ Held h' bs' x r)
    (hothers : ∀ z, z ≠ x → ∀ r, Held h' bs' z r ↔ Held h bs z r) :
    Tracks h' bs' (live.without (x + HDR)) := by
  refine ⟨ht.nodup.sublist (List.Sublist.map _ filter_sublist), fun p r => ?_⟩
  rw [mem_without, ht.held]
  constructor
  · rintro ⟨⟨z, rfl, hz⟩, hne⟩
    exact ⟨z, rfl, (hothers z (fun e => hne (by rw [e])) r).mpr hz⟩
  · rintro ⟨z, rfl, hz⟩
    have hzx : z ≠ x := by
      rintro rfl
      exact hgone r hz
    exact ⟨⟨z, rfl, (hothers z hzx r).mp hz⟩, by omega⟩

theorem held_erase {z : Nat} (hz : z ≠ x) (r : Nat) : Held h (bs.erase x) z r ↔ Held h bs z r := by
  unfold Held
  rw [mem_erase_of_ne hz]

theorem Tracks.erase (ht : Tracks h bs live) (hnd : bs.Nodup) :
    Tracks h (bs.erase x) (live.without (x + HDR)) :=
  ht.remove (fun _ hh => hnd.not_mem_erase hh.1) fun _ hz => held_erase hz

theorem Tracks.add {y req : Nat} (ht : Tracks h bs live) (hfree : ∀ r, ¬ Held h bs y r)
    (hheld : Held h' bs' y req) (hothers : ∀ z, z ≠ y → ∀ r, Held h' bs' z r ↔ Held h bs z r) :
    Tracks h' bs' ((y + HDR, req) :: live) := by
  refine ⟨?_, fun p r => ?_⟩
  · rw [map_cons, nodup_cons]
    refine ⟨fun hin => ?_, ht.nodup⟩
    obtain ⟨⟨p, r⟩, hp, he⟩ := mem_map.mp hin
    obtain ⟨z, rfl, hz⟩ := ht.find hp
    have hzy : z = y := by
      omega
    exact hfree r (hzy ▸ hz)
  · rw [mem_cons, Prod.mk.injEq]
    constructor
    · rintro (⟨rfl, rfl⟩ | hp)
      · exact ⟨y, rfl, hheld⟩
      · obtain ⟨z, rfl, hz⟩ := ht.find hp
        have hzy : z ≠ y := by
          rintro rfl
          exact hfree r hz
        exact ⟨z, rfl, (hothers z hzy r).mpr hz⟩
    · rintro ⟨z, rfl, hz⟩
      by_cases hzy : z = y
      · subst hzy
        exact .inl ⟨rfl, hz.2.2.symm.trans hheld.2.2⟩
      · exact .inr ((ht.held _ _).mpr ⟨z, rfl, (hothers z hzy r).mp hz⟩)

theorem Tracks.same (ht : Tracks h bs live) (hm : SameHeap h h') : Tracks h' bs live := by
  refine ⟨ht.nodup, fun p r => ?_⟩
  rw [ht.held]
  simp only [Held, hm.get]

end Tracks

/-! ## The first block -/

section Boot

variable {kernelEnd start size : Nat} {mem : Mem}

theorem heapInit_tags (hh : heapInit kernelEnd start size mem = h) :
    h.get .size h.base = (h.capacity + 2 ^ 64 - HDR) % 2 ^ 64 ∧ h.get .next h.base = 0
    ∧ h.get .prev h.base = 0 ∧ h.get .free h.base = 1 ∧ h.get .magic h.base = HEAP_MAGIC_FREE
    ∧ h.get .freeNext h.base = 0 ∧ h.get .freePrev h.base = 0 ∧ h.head = h.base
    ∧ h.freeHead = h.base := by
  subst hh
  refine ⟨?_, ?_, ?_, ?_, ?_, ?_, ?_, rfl, rfl⟩
  all_goals simp [heapInit, get_put_field, get_put_self, Field.width, HEAP_MAGIC_FREE]

/-- **`heap_init`** leaves one free block that fills the region. -/
theorem heapInv_init (hh : heapInit kernelEnd start size mem = h) (hbase : 0 < h.base)
    (hcap : HDR < h.capacity) (hlim : h.lim < 2 ^ 64) : HeapInv [] [] h [h.base] [h.base] := by
  obtain ⟨t1, t2, t3, t4, t5, t6, t7, t8, t9⟩ := heapInit_tags hh
  have hlim' := hlim
  unfold HeapState.lim at hlim'
  have hfin : h.fin h.base = h.lim := by
    unfold HeapState.fin HeapState.lim
    omega
  have honly : ∀ {P : Nat → Prop}, P h.base → ∀ b ∈ [h.base], P b := by
    intro P hP b hb
    rw [mem_singleton.mp hb]
    exact hP
  refine ⟨⟨hbase, hlim, t8, ⟨h.base, rfl, by omega, t3, rfl, t2.symm⟩, honly ⟨?_, ?_⟩⟩,
    honly (.inl ⟨t4, t5⟩), ?_, honly ⟨mem_cons_self, not_mem_nil, t4⟩,
    fun b hb _ _ => hb, honly fun hn => absurd t2 hn, honly fun _ hf => ?_⟩
  · rw [hfin]
  · rw [if_pos hfin, t2]
  · rw [t9]
    exact ⟨h.base, rfl, by omega, t7, rfl, t6.symm⟩
  · rw [t4] at hf
    cases hf

end Boot

/-! ## One call -/

section Step

variable {bs fl : List Nat} {h : HeapState} {live : Live} {c : Call}

theorem not_held_of_listed {x : Nat} (hinv : HeapInv [] [] h bs fl) (hx : x ∈ fl) (r : Nat) :
    ¬ Held h bs x r := fun hh => hinv.not_listed hh.2.1 hx

theorem tracks_none (hinv : HeapInv [] [] h bs fl) (hall : ∀ b ∈ bs, b ∈ fl) : Tracks h bs [] := by
  refine ⟨nodup_nil, fun p r => ⟨fun hp => absurd hp not_mem_nil, ?_⟩⟩
  rintro ⟨x, -, hx⟩
  exact absurd hx (not_held_of_listed hinv (hall x hx.1) r)

/-- The outcome of a permitted call. -/
def StepOk (c : Call) (s : HeapState × Live) : Prop :=
  ∃ h' live' bs' fl', c.step s = some (h', live') ∧ HeapInv [] [] h' bs' fl' ∧ Tracks h' bs' live'

/-- The call does not grow a block in place to more than it asks for. -/
def Call.Tight (h : HeapState) : Call → Prop
  | .krealloc p req _ => p ≠ 0 → req ≠ 0 → GrowsTight (p - HDR) req h
  | _ => True

instance (h : HeapState) : (c : Call) → Decidable (c.Tight h)
  | .krealloc p req _ => inferInstanceAs (Decidable (p ≠ 0 → req ≠ 0 → GrowsTight (p - HDR) req h))
  | .kmalloc _ _ | .kfree _ | .store _ _ => isTrue trivial

/-- The outcome of a permitted call on the blocks `bs`, and of `heap_used_now`. -/
def StepCounted (c : Call) (s : HeapState × Live) (bs : List Nat) : Prop :=
  ∃ h' live' bs' fl', c.step s = some (h', live') ∧ HeapInv [] [] h' bs' fl' ∧ Tracks h' bs' live'
    ∧ (Accounted s.1 bs → (Accounted h' bs' ↔ c.Tight s.1))

theorem kmalloc_step {req : Nat} (caller : Nat) (hinv : HeapInv [] [] h bs fl)
    (ht : Tracks h bs live) (hreq : ReqOk req) : StepCounted (.kmalloc req caller)
    (h, live) bs := by
  rcases kmalloc_spec caller hinv hreq with he | ⟨y, h', bs', fl', hy, he, ha, hacc⟩
  · exact ⟨h, live, bs,
      fl, by simp only [Call.step, he]; rfl, hinv, ht, fun h0 => iff_of_true h0 trivial⟩
  · refine ⟨h', (y + HDR, req) :: live, bs', fl', ?_, ha.inv,
      ht.add (not_held_of_listed hinv hy) ha.held fun z hz r => ha.keeps.held_iff hz r,
      fun h0 => iff_of_true (hacc h0) trivial⟩
    simp only [Call.step, he, map_some]
    rw [if_neg (by unfold HDR; omega)]

theorem kfree_step (hinv : HeapInv [] [] h bs fl) (ht : Tracks h bs live)
    (hp : p = 0 ∨ ∃ r, (p, r) ∈ live) :
    ∃ bs' fl', HeapInv [] [] (kfreeNolock p h) bs' fl'
      ∧ Tracks (kfreeNolock p h) bs' (live.without p)
      ∧ (Accounted h bs → Accounted (kfreeNolock p h) bs') := by
  rcases hp with rfl | ⟨r, hr⟩
  · refine ⟨bs, fl, hinv, ?_, id⟩
    rw [ht.without_absent fun x _ => by unfold HDR; omega]
    exact ht
  · obtain ⟨x, rfl, hx, hfx, -⟩ := ht.find hr
    obtain ⟨bs', fl', hf, hacc⟩ := kfree_spec hinv hx hfx
    exact ⟨bs', fl', hf.inv, ht.remove (fun r hh => hf.gone ⟨hh.1, hh.2.1⟩)
      fun z hz r => hf.keeps.held_iff hz r, hacc⟩

theorem krealloc_step {req : Nat} (caller : Nat) (hinv : HeapInv [] [] h bs fl)
    (ht : Tracks h bs live) (hp : p = 0 ∨ ∃ r, (p, r) ∈ live) (hreq : ReqOk req) :
    StepCounted (.krealloc p req caller) (h, live) bs := by
  by_cases hp0 : p = 0
  · -- `krealloc(NULL, n)` is `kmalloc(n)`
    subst hp0
    have hlive : live.without 0 = live := ht.without_absent fun x _ => by unfold HDR; omega
    obtain ⟨h', live', bs', fl', he, h1, h2, h3⟩ := kmalloc_step caller hinv ht hreq
    refine ⟨h', live', bs', fl', ?_, h1, h2, fun h0 => iff_of_true ((h3 h0).mpr trivial)
      fun hp => absurd rfl hp⟩
    simp only [Call.step, kreallocNolock, if_true, hlive, ite_self, ite_not] at he ⊢
    exact he
  by_cases hr0 : req = 0
  · -- `krealloc(p, 0)` is `kfree(p)`
    subst hr0
    obtain ⟨bs', fl', h1, h2, h3⟩ := kfree_step hinv ht hp
    refine ⟨_, _, bs', fl', ?_, h1, h2, fun h0 => iff_of_true (h3 h0) fun _ hr => absurd rfl hr⟩
    simp only [Call.step, kreallocNolock, if_neg hp0, if_true]
    rfl
  obtain ⟨r, hr⟩ := hp.resolve_left hp0
  obtain ⟨x, rfl, hx, hfx, hrx⟩ := ht.find hr
  have hne : ∀ y : Nat, y + HDR ≠ 0 := fun y => by unfold HDR; omega
  have hnd := dlist_nodup hinv.shape.blocks
  have htight : Call.Tight h (.krealloc (x + HDR) req caller) ↔ GrowsTight x req h := by
    exact ⟨fun h1 => h1 hp0 hr0, fun h1 _ _ => h1⟩
  rcases krealloc_spec caller hinv hx hfx hreq hr0 with ⟨h', he, hm, hacc⟩ |
    ⟨h', bs', fl', he, ha, hacc⟩ | ⟨y, h', bs', fl', hy, he, hm, hacc⟩
  · refine ⟨h', live, bs, fl, ?_, hinv.of_same hm, ht.same hm,
      fun h0 => (hacc h0).trans htight.symm⟩
    simp only [Call.step, he, map_some, ne_eq, not_true_eq_false, if_false, if_neg hr0]
  · refine ⟨h', (x + HDR, req) :: live.without (x + HDR), bs', fl', ?_, ha.inv, ?_,
      fun h0 => (hacc h0).trans htight.symm⟩
    · simp only [Call.step, he, map_some, ne_eq, hne x, not_false_eq_true, if_true]
    · -- first the block is given up, in a heap without it, then it is given back
      refine (ht.erase hnd).add (fun r hh => hnd.not_mem_erase hh.1) ha.held fun z hz r => ?_
      rw [ha.keeps.held_iff hz r, held_erase hz]
  · refine ⟨h', (y + HDR, req) :: live.without (x + HDR), bs', fl', ?_, hm.inv, ?_,
      fun h0 => (hacc h0).trans htight.symm⟩
    · simp only [Call.step, he, map_some, ne_eq, hne y, not_false_eq_true, if_true]
    refine (ht.erase hnd).add (fun r hh => not_held_of_listed hinv hy r
      ⟨mem_of_mem_erase hh.1, hh.2.1, hh.2.2⟩) hm.held fun z hz r => ?_
    by_cases hzx : z = x
    · subst hzx
      exact ⟨fun hh => absurd hh (hm.gone r), fun hh => absurd hh.1 hnd.not_mem_erase⟩
    · rw [hm.others z hzx hz r, held_erase hzx]

theorem store_step {a : Nat} (v : Nat) (hinv : HeapInv [] [] h bs fl) (ht : Tracks h bs live)
    (ha : ∃ p r, (p, r) ∈ live ∧ p ≤ a ∧ a < p + r) : StepCounted (.store a v) (h, live) bs := by
  obtain ⟨p, r, hp, h1, h2⟩ := ha
  obtain ⟨x, rfl, hx⟩ := ht.find hp
  have hout : ∀ i, i < x + HDR ∨ x + HDR + r ≤ i → (h.store a v).mem i = h.mem i := fun i hi =>
    if_neg (by omega)
  have he : Edited x r h bs fl (h.store a v) := write_spec hinv hx hout
  refine ⟨h.store a v, live, bs, fl, rfl, he.inv, ⟨ht.nodup, fun q s => ?_⟩,
    fun h0 => iff_of_true (he.accounted h0) trivial⟩
  rw [ht.held]
  refine exists_congr fun z => and_congr_right fun _ => ?_
  by_cases hz : z = x
  · subst hz
    constructor
    · rintro ⟨-, -, rfl⟩
      rw [hx.2.2]
      exact he.held
    · rintro ⟨-, -, rfl⟩
      rw [he.held.2.2]
      exact hx
  · exact (he.keeps.held_iff hz s).symm

/-- **Every permitted call returns and keeps the invariant**, and the counter if it is tight. -/
theorem call_counted (hinv : HeapInv [] [] h bs fl) (ht : Tracks h bs live) (hok : c.Ok live) :
    StepCounted c (h, live) bs := by
  cases c with
  | kmalloc req caller => exact kmalloc_step caller hinv ht hok
  | kfree p =>
    obtain ⟨bs', fl', h1, h2, h3⟩ := kfree_step hinv ht hok
    exact ⟨_, _, bs', fl', rfl, h1, h2, fun h0 => iff_of_true (h3 h0) trivial⟩
  | krealloc p req caller => exact krealloc_step caller hinv ht hok.1 hok.2
  | store a v => exact store_step v hinv ht hok

theorem call_step (hinv : HeapInv [] [] h bs fl) (ht : Tracks h bs live) (hok : c.Ok live) :
    StepOk c (h, live) := by
  obtain ⟨h', live', bs', fl', he, h1, h2, -⟩ := call_counted hinv ht hok
  exact ⟨h', live', bs', fl', he, h1, h2⟩

theorem runCalls_inv {cs : List Call} (hinv : HeapInv [] [] h bs fl) (ht : Tracks h bs live)
    (hs : RunOk cs (h, live)) :
    ∃ h' live' bs' fl', runCalls cs (h, live) = some (h', live')
      ∧ HeapInv [] [] h' bs' fl' ∧ Tracks h' bs'
      live' := by
  induction cs generalizing h live bs fl with
  | nil => exact ⟨h, live, bs, fl, rfl, hinv, ht⟩
  | cons c cs ih =>
    obtain ⟨hok, hrest⟩ := hs
    obtain ⟨h1, live1, bs1, fl1, he, hinv1, ht1⟩ := call_step hinv ht hok
    obtain ⟨h2, live2, bs2, fl2, he2, hinv2, ht2⟩ := ih hinv1 ht1 (hrest _ he)
    exact ⟨h2, live2, bs2, fl2, by rw [runCalls, he]; exact he2, hinv2, ht2⟩

end Step

/-! ## Whole runs -/

/-- **From `heap_init` on a region larger than one header, every run of calls returns and leaves
a well-formed heap.** -/
theorem heap_invariant (kernelEnd start size : Nat) (mem : Mem) (cs : List Call)
    (hbase : 0 < (heapInit kernelEnd start size mem).base)
    (hcap : HDR < (heapInit kernelEnd start size mem).capacity)
      (hlim : (heapInit kernelEnd start size mem).base
      + (heapInit kernelEnd start size mem).capacity < 2 ^ 64)
    (hok : RunOk cs (heapInit kernelEnd start size mem, [])) :
    ∃ h live bs fl, runCalls cs (heapInit kernelEnd start size mem, []) = some (h, live)
      ∧ HeapOk h live bs fl := by
  have hinv := heapInv_init rfl hbase hcap hlim
  obtain ⟨h, live, bs, fl, he, hinv', ht'⟩ :=
    runCalls_inv hinv (tracks_none hinv fun _ hb => hb) hok
  exact ⟨h, live, bs, fl, he, heapOk_of_inv hinv' ht'⟩

/-- A heap of one page at 1 MiB. -/
def smallHeap : HeapState := heapInit 0 0x100000 4096 fun _ => 0

/-- Two blocks; the first is resized and has to move, its owner writes to it, the second is
freed. -/
def smallRun : List Call :=
  [.kmalloc 24 7, .kmalloc 50 7, .krealloc 0x100040 100 7, .store 0x100120 5, .kfree 0x1000a0]

theorem smallRun_ok : RunOk smallRun (smallHeap, []) := by
  decide +kernel

theorem heap_invariant_smallRun : RunOk smallRun (smallHeap, [])
      ∧ ∃ h live bs fl, runCalls smallRun (smallHeap, []) = some (h, live) ∧ HeapOk h live bs fl :=
  ⟨smallRun_ok, heap_invariant 0 0x100000 4096 (fun _ => 0) smallRun (by decide) (by decide)
    (by decide) smallRun_ok⟩

end AxonOS.Heap

import AxonOS.Frame.Alloc
import AxonOS.Lib.SlotTable

/-! # The slot lists of the frame table

`SlotInv` is the shape of the metadata table between two calls: the free list holds exactly
the slots with count zero, the chain of a hash value holds exactly the live slots whose
address has that hash value, and no two live slots have the same address. Since a chain
visits no node twice, every slot is on exactly one list, once. The three changes the
interface makes to the table keep it: a new count for a live slot, a free slot made live, and
a live slot made free.
-/

namespace AxonOS.Frame

open Lib Arch List

/-- The links of the table. -/
def FrameState.next (st : FrameState) (i : Nat) : Option Nat := (st.slot i).link

/-- Slot `i` describes a frame in use. -/
def FrameState.Live (st : FrameState) (i : Nat) : Prop :=
  i < st.frames.length ∧ (st.slot i).refs ≠ 0

/-! ## Reading back a changed slot -/

section SetSlot

variable (st : FrameState) (i : Nat) (m : FrameMeta) {q : FrameState}

@[simp] theorem setSlot_length : (st.setSlot i m).frames.length = st.frames.length := by
  simp [FrameState.setSlot]

theorem slot_setSlot_self {i : Nat} (h : i < q.frames.length) (m : FrameMeta) :
    (q.setSlot i m).slot i = m := by
  simp [FrameState.setSlot, FrameState.slot, h]

theorem slot_setSlot_ne {i k : Nat} (h : k ≠ i) (m : FrameMeta) :
    (q.setSlot i m).slot k = q.slot k := by
  unfold FrameState.slot FrameState.setSlot
  rw [getD_eq_getElem?_getD, getD_eq_getElem?_getD, getElem?_set_ne h.symm]

end SetSlot

/-! ## The invariant -/

structure SlotInv (st : FrameState) : Prop where
  free : ∃ l, Chain st.next st.freeHead l ∧ ∀ s, s ∈ l ↔ s < st.frames.length ∧ (st.slot s).refs = 0
  chains : ∀ hash, st.hash = some hash → ∀ h, ∃ l, Chain st.next (hash h) l
    ∧ ∀ s, s ∈ l ↔ st.Live s ∧ frameHashPa (st.slot s).pa = h
  inj : ∀ s t, st.Live s → st.Live t → (st.slot s).pa = (st.slot t).pa → s = t
  page : ∀ s, st.Live s → pgAddr (st.slot s).pa = (st.slot s).pa

theorem slots_length_le {l : List Nat} {n : Nat} (hnd : l.Nodup) (h : ∀ s ∈ l, s < n) :
    l.length ≤ n := by
  have hsub : l ⊆ List.range n := fun s hs => mem_range.mpr (h s hs)
  have := (hnd.subperm hsub).length_le
  rwa [length_range] at this

/-- The slot whose frame has the page address `pa`, if there is one. -/
def SlotOf (st : FrameState) (pa : Nat) : Option Nat → Prop
  | some s => st.Live s ∧ (st.slot s).pa = pgAddr pa
  | none => ∀ s, st.Live s → (st.slot s).pa ≠ pgAddr pa

variable {st st' : FrameState} {s page : Nat} {raw : Option Nat} {hash : Nat → Option Nat}
    {b a : List Nat}

theorem slotMatches_iff {pa i : Nat} :
    slotMatches st pa i = true ↔ (st.slot i).refs ≠ 0 ∧ (st.slot i).pa = pa := by
  simp [slotMatches]

/-- **The lookup ends and finds the live slot of the address**, with the hash table and
without it. -/
theorem frameSlotLocked_spec (hinv : SlotInv st) (pa : Nat) :
    ∃ r, frameSlotLocked st pa = some r ∧ SlotOf st pa r := by
  unfold frameSlotLocked
  cases hh : st.hash with
  | none =>
    refine ⟨_, rfl, ?_⟩
    cases hf : (List.range st.frames.length).find? (slotMatches st (pgAddr pa)) with
    | none =>
      intro s hs heq
      have hno := find?_eq_none.mp hf s (mem_range.mpr hs.1)
      exact hno (slotMatches_iff.mpr ⟨hs.2, heq⟩)
    | some s =>
      obtain ⟨h1, h2⟩ := slotMatches_iff.mp (find?_some hf)
      exact ⟨⟨mem_range.mp (mem_of_find?_eq_some hf), h1⟩, h2⟩
  | some hash =>
    obtain ⟨l, hc, hmem⟩ := hinv.chains hash hh (frameHashPa (pgAddr pa))
    have hlen : l.length ≤ st.frames.length :=
      slots_length_le (chain_nodup hc) fun s hs => ((hmem s).mp hs).1.1
    refine ⟨_, chainFind_eq _ hc hlen, ?_⟩
    cases hf : l.find? (slotMatches st (pgAddr pa)) with
    | none =>
      intro s hs heq
      have hin : s ∈ l := (hmem s).mpr ⟨hs, by rw [heq]⟩
      exact find?_eq_none.mp hf s hin (slotMatches_iff.mpr ⟨hs.2, heq⟩)
    | some s =>
      obtain ⟨-, h2⟩ := slotMatches_iff.mp (find?_some hf)
      exact ⟨((hmem s).mp (mem_of_find?_eq_some hf)).1, h2⟩

theorem frameSlotLocked_live (hinv : SlotInv st) {pa : Nat} (hs : st.Live s)
    (hpa : (st.slot s).pa = pgAddr pa) :
    frameSlotLocked st pa = some (some s) := by
  obtain ⟨r, hr, hslot⟩ := frameSlotLocked_spec hinv pa
  cases r with
  | none => exact absurd hpa (hslot s hs)
  | some t => rw [hr, hinv.inj t s hslot.1 hs (hslot.2.trans hpa.symm)]

/-! ## A new count for a live slot -/

theorem setRefs_slot (hs : s < st.frames.length) (r k : Nat) :
    (st.setSlot s { st.slot s with refs := r }).slot k
      = if k = s then { st.slot s with refs := r } else st.slot k := by
  by_cases hk : k = s
  · subst hk; rw [if_pos rfl]; exact slot_setSlot_self hs _
  · rw [if_neg hk]; exact slot_setSlot_ne hk _

theorem setRefs_live {r : Nat} (hs : st.Live s) (hr : r ≠ 0) (k : Nat) :
    (st.setSlot s { st.slot s with refs := r }).Live k ↔ st.Live k := by
  unfold FrameState.Live
  rw [setSlot_length, setRefs_slot hs.1]
  by_cases hk : k = s
  · subst hk
    rw [if_pos rfl]
    exact ⟨fun _ => hs, fun h => ⟨h.1, hr⟩⟩
  · rw [if_neg hk]

theorem setRefs_same (hs : s < st.frames.length) (r k : Nat) :
    ∃ n, (st.setSlot s { st.slot s with refs := r }).slot k = { st.slot k with refs := n } := by
  rw [setRefs_slot hs]
  by_cases hk : k = s
  · subst hk; rw [if_pos rfl]; exact ⟨r, rfl⟩
  · rw [if_neg hk]; exact ⟨_, rfl⟩

theorem setRefs_pa (hs : s < st.frames.length) (r k : Nat) :
    ((st.setSlot s { st.slot s with refs := r }).slot k).pa = (st.slot k).pa := by
  obtain ⟨n, hn⟩ := setRefs_same hs r k
  rw [hn]

theorem setRefs_next (hs : s < st.frames.length) (r : Nat) :
    (st.setSlot s { st.slot s with refs := r }).next = st.next := by
  funext k
  obtain ⟨n, hn⟩ := setRefs_same hs r k
  unfold FrameState.next
  rw [hn]

theorem slotInv_setRefs (hinv : SlotInv st) {r : Nat} (hs : st.Live s) (hr : r ≠ 0) :
    SlotInv (st.setSlot s { st.slot s with refs := r }) := by
  have hnext := setRefs_next hs.1 r
  have hpa := setRefs_pa hs.1 r
  have hlive := setRefs_live hs hr
  refine ⟨?_, ?_, ?_, ?_⟩
  · obtain ⟨l, hc, hmem⟩ := hinv.free
    refine ⟨l, by rw [hnext]; exact hc, fun k => ?_⟩
    rw [hmem k, setSlot_length, setRefs_slot hs.1]
    by_cases hk : k = s
    · subst hk
      rw [if_pos rfl]
      exact ⟨fun h => absurd h.2 hs.2, fun h => absurd h.2 hr⟩
    · rw [if_neg hk]
  · intro hash hh h
    obtain ⟨l, hc, hmem⟩ := hinv.chains hash hh h
    refine ⟨l, by rw [hnext]; exact hc, fun k => ?_⟩
    rw [hmem k, hlive k, hpa k]
  · intro a b ha hb hab
    rw [hpa a, hpa b] at hab
    exact hinv.inj a b ((hlive a).mp ha) ((hlive b).mp hb) hab
  · intro a ha
    rw [hpa a]
    exact hinv.page a ((hlive a).mp ha)

/-! ## A free slot made live -/

/-- What a new frame does to the table: the head of the free list becomes the head of the
chain of the frame's address. -/
structure Tracked (page : Nat) (raw : Option Nat) (s : Nat) (st st' : FrameState) : Prop where
  head : st.freeHead = some s
  freeHead : st'.freeHead = st.next s
  length : st'.frames.length = st.frames.length
  self : ∃ link, st'.slot s = ⟨page, raw, 1, link⟩
  others : ∀ k, k ≠ s → st'.slot k = st.slot k
  noHash : st.hash = none → st'.hash = none
  hash : ∀ hash, st.hash = some hash → st'.hash = some (setBucket hash (frameHashPa page) (some s))
    ∧ st'.next s = hash (frameHashPa page)
  pmm : st'.pmm = st.pmm
  mem : st'.mem = st.mem

theorem SlotInv.head_free (hinv : SlotInv st) (hhead : st.freeHead = some s) :
    s < st.frames.length ∧ (st.slot s).refs = 0 := by
  obtain ⟨l, hc, hmem⟩ := hinv.free
  rw [hhead] at hc
  obtain ⟨t, rfl, -⟩ := chain_some hc
  exact (hmem s).mp mem_cons_self

theorem frameTrack_cases (st : FrameState) (hinv : SlotInv st) (page : Nat) (raw : Option Nat) :
    frameTrack page raw st = (none, st)
    ∨ ∃ s st', frameTrack page raw st = (some s, st') ∧ Tracked page raw s st st' := by
  unfold frameTrack frameTakeFreeLocked
  cases hf : st.freeHead with
  | none => exact .inl rfl
  | some s =>
    have hs := (hinv.head_free hf).1
    set st1 : FrameState := { st.setSlot s { st.slot s with link := none } with
      freeHead := (st.slot s).link }
    set st2 := st1.setSlot s { st1.slot s with pa := page, raw := raw, refs := 1 } with hst2
    have hlen1 : st1.frames.length = st.frames.length := setSlot_length st s _
    have hlen2 : st2.frames.length = st.frames.length := (setSlot_length st1 s _).trans hlen1
    have hself1 : st1.slot s = { st.slot s with link := none } := slot_setSlot_self hs _
    have hself2 : st2.slot s = ⟨page, raw, 1, none⟩ := by
      rw [slot_setSlot_self (by rw [hlen1]; exact hs), hself1]
    have hne2 : ∀ k, k ≠ s → st2.slot k = st.slot k := fun k hk =>
      (slot_setSlot_ne hk _).trans (slot_setSlot_ne hk _)
    refine .inr ⟨s, frameHashInsertLocked s st2, rfl, ?_⟩
    unfold frameHashInsertLocked
    cases hh : st.hash with
    | none =>
      have hh2 : st2.hash = none := hh
      rw [hh2]
      exact ⟨hf, rfl, hlen2, ⟨none, hself2⟩, hne2, fun _ => hh2,
        fun hash h => (by rw [hh] at h; cases h), rfl, rfl⟩
    | some hash =>
      have hh2 : st2.hash = some hash := hh
      rw [hh2]
      rw [hself2]
      have hself3 : (st2.setSlot s ⟨page, raw, 1, hash (frameHashPa page)⟩).slot s
          = ⟨page, raw, 1, hash (frameHashPa page)⟩ :=
        slot_setSlot_self (by rw [hlen2]; exact hs) _
      refine ⟨hf, rfl, (setSlot_length st2 s _).trans hlen2, ⟨_, hself3⟩, ?_,
        fun h => (by rw [hh] at h; cases h), ?_, rfl, rfl⟩
      · intro k hk
        exact (slot_setSlot_ne hk _).trans (hne2 k hk)
      · intro hash' h'
        obtain rfl := Option.mem_unique hh h'
        exact ⟨rfl, congrArg FrameMeta.link hself3⟩

section

variable (h : Tracked page raw s st st') (hinv : SlotInv st)

include h hinv

theorem Tracked.live_iff (k : Nat) : st'.Live k ↔ st.Live k ∨ k = s := by
  obtain ⟨link, hself⟩ := h.self
  have hfree := hinv.head_free h.head
  unfold FrameState.Live
  rw [h.length]
  by_cases hk : k = s
  · subst hk
    rw [hself]
    exact ⟨fun _ => .inr rfl, fun _ => ⟨hfree.1, Nat.one_ne_zero⟩⟩
  · rw [h.others k hk]
    exact ⟨.inl, fun h => h.resolve_right hk⟩

theorem Tracked.slotInv (hpage : pgAddr page = page)
    (hnew : ∀ k, st.Live k → (st.slot k).pa ≠ page) : SlotInv st' := by
  obtain ⟨link, hself⟩ := h.self
  have hne : ∀ {k}, st.Live k → k ≠ s := by
    rintro k hk rfl
    exact hk.2 (hinv.head_free h.head).2
  have hkept : ∀ {k}, st.Live k → st'.slot k = st.slot k := fun hk => h.others _ (hne hk)
  have hnext : ∀ k, k ≠ s → st'.next k = st.next k := fun k hk => by
    unfold FrameState.next; rw [h.others k hk]
  have hlive := h.live_iff hinv
  refine ⟨?_, ?_, ?_, ?_⟩
  · -- the free list loses its head
    obtain ⟨l, hc, hmem⟩ := hinv.free
    rw [h.head] at hc
    obtain ⟨t, rfl, ht⟩ := chain_some hc
    have hnd := nodup_cons.mp (chain_nodup hc)
    have hts : ∀ k ∈ t, k ≠ s := fun k hk e => hnd.1 (e ▸ hk)
    refine ⟨t, ?_, fun k => ?_⟩
    · rw [h.freeHead]
      exact chain_congr (fun k hk => hnext k (hts k hk)) ht
    rw [h.length]
    by_cases hk : k = s
    · subst hk
      rw [hself]
      exact ⟨fun hin => absurd rfl (hts k hin), fun hz => absurd hz.2 Nat.one_ne_zero⟩
    · rw [h.others k hk, ← hmem k, mem_cons]
      exact ⟨.inr, fun hin => hin.resolve_left hk⟩
  · intro hash' hh' v
    cases hh : st.hash with
    | none => rw [h.noHash hh] at hh'; cases hh'
    | some hash =>
      obtain ⟨hbucket, hlink⟩ := h.hash hash hh
      obtain rfl := Option.mem_unique hbucket hh'
      obtain ⟨l, hc, hmem⟩ := hinv.chains hash hh v
      have hls : ∀ k ∈ l, k ≠ s := fun k hk => hne ((hmem k).mp hk).1
      have hold : ∀ k, k ≠ s → (k ∈ l ↔ st'.Live k ∧ frameHashPa (st'.slot k).pa = v) := by
        intro k hk
        rw [hmem k, hlive k, h.others k hk]
        exact ⟨fun hx => ⟨.inl hx.1, hx.2⟩, fun hx => ⟨hx.1.resolve_right hk, hx.2⟩⟩
      by_cases hv : v = frameHashPa page
      · -- the chain of the new frame gets it as its head
        refine ⟨s :: l, ?_, fun k => ?_⟩
        · rw [show setBucket hash (frameHashPa page) (some s) v = some s from if_pos hv]
          exact chain_push hc (by rw [hlink, hv]) fun k hk => hnext k (hls k hk)
        by_cases hk : k = s
        · subst hk
          rw [hself]
          exact ⟨fun _ => ⟨(hlive k).mpr (.inr rfl), hv.symm⟩, fun _ => by simp⟩
        · rw [mem_cons, ← hold k hk]
          exact ⟨fun hin => hin.resolve_left hk, .inr⟩
      · refine ⟨l, ?_, fun k => ?_⟩
        · rw [show setBucket hash (frameHashPa page) (some s) v = hash v from if_neg hv]
          exact chain_congr (fun k hk => hnext k (hls k hk)) hc
        · by_cases hk : k = s
          · subst hk
            rw [hself]
            exact ⟨fun hin => absurd rfl (hls k hin), fun hx => absurd hx.2.symm hv⟩
          · exact hold k hk
  · intro a b ha hb hab
    rcases (hlive a).mp ha with ha' | rfl
    · rcases (hlive b).mp hb with hb' | rfl
      · rw [hkept ha', hkept hb'] at hab
        exact hinv.inj a b ha' hb' hab
      · rw [hkept ha', hself] at hab
        exact absurd hab (hnew a ha')
    · rcases (hlive b).mp hb with hb' | rfl
      · rw [hkept hb', hself] at hab
        exact absurd hab.symm (hnew b hb')
      · rfl
  · intro a ha
    rcases (hlive a).mp ha with ha' | rfl
    · rw [hkept ha']
      exact hinv.page a ha'
    · rw [hself]
      exact hpage

end

/-! ## A live slot made free -/

/-- The walk stops at the slot, with the place of the link to it: the last node before it, or
the place it started from. -/
theorem hashRemoveWalk_eq {slot h : Nat} {fuel : Nat} (pp : Option Nat) {cur : Option Nat}
    (hc : Chain st.next cur (a ++ slot :: b)) (hnot : slot ∉ a) (hfuel : a.length < fuel) :
    hashRemoveWalk slot h hash st fuel pp cur
      = some (unlinkAt slot h hash st (a.getLast?.or pp)) := by
  induction a generalizing fuel pp cur with
  | nil =>
    obtain ⟨rfl, -⟩ := hc
    cases fuel with
    | zero => omega
    | succ n => rw [hashRemoveWalk, if_pos rfl]; rfl
  | cons x t ih =>
    obtain ⟨rfl, hc⟩ := hc
    cases fuel with
    | zero => omega
    | succ n =>
      have hx : x ≠ slot := by rintro rfl; simp at hnot
      have hlt : t.length < n := by simpa using hfuel
      have hrest := ih (some x) hc (fun hin => hnot (by simp [hin])) hlt
      rw [hashRemoveWalk, if_neg hx]
      refine hrest.trans ?_
      rw [getLast?_cons]
      cases t.getLast? <;> rfl

/-- What a released frame does to the table: its slot leaves the chain of its address and
becomes the head of the free list; only links on that chain change besides. -/
structure Untracked (s : Nat) (st st' : FrameState) : Prop where
  length : st'.frames.length = st.frames.length
  self : st'.slot s = ⟨0, none, 0, st.freeHead⟩
  freeHead : st'.freeHead = some s
  others : ∀ k, k ≠ s → ∃ link, st'.slot k = { st.slot k with link := link }
  links : ∀ k, k ≠ s → (st.hash = none ∨ ¬ st.Live k
    ∨ frameHashPa (st.slot k).pa ≠ frameHashPa (st.slot s).pa) → st'.next k = st.next k
  noHash : st.hash = none → st'.hash = none
  hash : ∀ hash, st.hash = some hash → ∃ hash', st'.hash = some hash'
    ∧ (∀ v, v ≠ frameHashPa (st.slot s).pa → hash' v = hash v)
    ∧ ∃ a b, Chain st.next (hash (frameHashPa (st.slot s).pa)) (a ++ s :: b)
      ∧ Chain st'.next (hash' (frameHashPa (st.slot s).pa)) (a ++ b)
  pmm : st'.pmm = st.pmm
  mem : st'.mem = st.mem

/-- Unlinking the slot from the place before it takes it out of its chain. -/
theorem unlinkAt_spec (st : FrameState) {v : Nat} (hin : ∀ k ∈ a, k < st.frames.length)
    (hs : s < st.frames.length) (hh : st.hash = some hash)
    (hc : Chain st.next (hash v) (a ++ s :: b)) :
    let st' := unlinkAt s v hash st a.getLast?
    st'.frames.length = st.frames.length ∧ st'.freeHead = st.freeHead ∧ st'.pmm = st.pmm
    ∧ st'.mem = st.mem
    ∧ (∀ k, ∃ link, st'.slot k = { st.slot k with link := link })
    ∧ (∀ k, k ≠ s → k ∉ a → st'.next k = st.next k)
    ∧ ∃ hash', st'.hash = some hash' ∧ (∀ u, u ≠ v → hash' u = hash u)
    ∧ Chain st'.next (hash' v) (a ++ b) := by
  rcases eq_nil_or_concat' a with rfl | ⟨a', p, rfl⟩
  · -- the slot is the head: the bucket takes its link
    have hself : (unlinkAt s v hash st none).slot s = { st.slot s with link := none } :=
      slot_setSlot_self hs _
    have hne : ∀ k, k ≠ s → (unlinkAt s v hash st none).slot k = st.slot k := fun k hk =>
      slot_setSlot_ne hk _
    refine ⟨setSlot_length { st with hash := some (setBucket hash v (st.slot s).link) } s _, rfl,
      rfl, rfl, ?_, ?_, setBucket hash v (st.slot s).link, rfl, fun u hu => if_neg hu, ?_⟩
    · intro k
      by_cases hk : k = s
      · subst hk; exact ⟨none, hself⟩
      · exact ⟨(st.slot k).link, hne k hk⟩
    · intro k hk _
      exact congrArg FrameMeta.link (hne k hk)
    · exact chain_remove hc (fun _ => if_pos rfl) (fun h => absurd rfl h) nofun
        fun k hk _ => congrArg FrameMeta.link (hne k hk)
  · -- the node `p` before the slot takes its link
    rw [getLast?_concat]
    have hp : p < st.frames.length := hin p (by simp)
    have hps : p ≠ s := by
      rintro rfl
      simpa [nodup_append] using chain_nodup hc
    set st1 := st.setSlot p { st.slot p with link := (st.slot s).link } with hst1
    have hst : unlinkAt s v hash st (some p) = st1.setSlot s { st1.slot s with link := none } := rfl
    have hlen1 : st1.frames.length = st.frames.length := setSlot_length st p _
    have h1s : st1.slot s = st.slot s := slot_setSlot_ne hps.symm _
    have hself : (unlinkAt s v hash st (some p)).slot s = { st.slot s with link := none } := by
      rw [hst, slot_setSlot_self (by rw [hlen1]; exact hs), h1s]
    have hpred : (unlinkAt s v hash st (some p)).slot p
        = { st.slot p with link := (st.slot s).link } := by
      rw [hst, slot_setSlot_ne hps, slot_setSlot_self hp]
    have hne : ∀ k, k ≠ s → k ≠ p → (unlinkAt s v hash st (some p)).slot k = st.slot k := by
      intro k hk hkp
      rw [hst, slot_setSlot_ne hk, slot_setSlot_ne hkp]
    refine ⟨(setSlot_length st1 s _).trans hlen1, rfl, rfl, rfl, ?_, ?_, hash, hh,
      fun _ _ => rfl, ?_⟩
    · intro k
      by_cases hk : k = s
      · subst hk; exact ⟨none, hself⟩
      · by_cases hkp : k = p
        · subst hkp; exact ⟨_, hpred⟩
        · exact ⟨(st.slot k).link, hne k hk hkp⟩
    · intro k hk hka
      exact congrArg FrameMeta.link (hne k hk (fun e => hka (by simp [e])))
    · rw [append_assoc] at hc ⊢
      refine chain_unlink hc ?_ fun k hkp hks => ?_
      · unfold FrameState.next
        rw [hpred]
      · exact congrArg FrameMeta.link (hne k hks hkp)

/-- **Releasing the last reference unlinks the slot and pushes it on the free list.** -/
theorem release_untracks (hinv : SlotInv st) (hs : st.Live s) (r : Nat) :
    ∃ st2, frameHashRemoveLocked s (st.setSlot s { st.slot s with refs := r }) = some st2
      ∧ Untracked s st (frameReturnFreeLocked s st2) := by
  set st1 := st.setSlot s { st.slot s with refs := r }
  have hself1 : st1.slot s = { st.slot s with refs := r } := slot_setSlot_self hs.1 _
  have hne1 : ∀ k, k ≠ s → st1.slot k = st.slot k := fun k hk => slot_setSlot_ne hk _
  have hlen1 : st1.frames.length = st.frames.length := setSlot_length st s _
  have hnext1 : st1.next = st.next := setRefs_next hs.1 r
  have hreturn : ∀ st2 : FrameState, st2.frames.length = st.frames.length →
        frameReturnFreeLocked s st2
        = { st2.setSlot s ⟨0, none, 0, st2.freeHead⟩ with freeHead := some s } := by
    intro st2 hlen2
    unfold frameReturnFreeLocked
    rw [if_neg (by have := hs.1; omega)]
  unfold frameHashRemoveLocked
  cases hh : st.hash with
  | none =>
    have hh1 : st1.hash = none := hh
    rw [hh1]
    refine ⟨st1, rfl, ?_⟩
    rw [hreturn st1 hlen1]
    have hne : ∀ k, k ≠ s → (st1.setSlot s ⟨0, none, 0, st1.freeHead⟩).slot k = st.slot k :=
      fun k hk => (slot_setSlot_ne hk _).trans (hne1 k hk)
    exact ⟨(setSlot_length st1 s _).trans hlen1, slot_setSlot_self (by rw [hlen1]; exact hs.1) _,
      rfl, fun k hk => ⟨(st.slot k).link, hne k hk⟩,
      fun k hk _ => congrArg FrameMeta.link (hne k hk), fun _ => hh1,
      fun hash h => (by rw [hh] at h; cases h), rfl, rfl⟩
  | some hash =>
    have hh1 : st1.hash = some hash := hh
    rw [hh1]
    set v := frameHashPa (st.slot s).pa
    have hv1 : frameHashPa (st1.slot s).pa = v := by rw [hself1]
    rw [hv1]
    obtain ⟨l, hc, hmem⟩ := hinv.chains hash hh v
    obtain ⟨a, b, rfl⟩ := append_of_mem ((hmem s).mpr ⟨hs, rfl⟩)
    have hnd := chain_nodup hc
    have hnot : s ∉ a ++ b := (nodup_cons.mp (nodup_middle.mp hnd)).1
    have hlive : ∀ k ∈ a ++ s :: b, st.Live k ∧ frameHashPa (st.slot k).pa = v := fun k hk =>
      (hmem k).mp hk
    have hfuel : a.length < st1.frames.length := by
      have := slots_length_le hnd fun k hk => (hlive k hk).1.1
      simp at this
      omega
    have hc1 : Chain st1.next (hash v) (a ++ s :: b) := by rw [hnext1]; exact hc
    refine ⟨_, hashRemoveWalk_eq none hc1 (fun hin => hnot (mem_append_left b hin)) hfuel, ?_⟩
    rw [Option.or_none]
    obtain ⟨hlen2, hhead2, hpmm2, hmem2, hslots2, hlinks2, hash', hhash2, hbucket2, hchain2⟩ :=
      unlinkAt_spec st1 (fun k hk => by
        rw [hlen1]; exact (hlive k (by simp [hk])).1.1) (by rw [hlen1]; exact hs.1) hh1 hc1
    set st2 := unlinkAt s v hash st1 a.getLast?
    rw [hreturn st2 (hlen2.trans hlen1)]
    set st3 : FrameState :=
      { st2.setSlot s ⟨0, none, 0, st2.freeHead⟩ with freeHead := some s }
    have hne3 : ∀ k, k ≠ s → st3.slot k = st2.slot k := fun k hk => slot_setSlot_ne hk _
    have hnext3 : ∀ k, k ≠ s → st3.next k = st2.next k := fun k hk =>
      congrArg FrameMeta.link (hne3 k hk)
    refine ⟨(setSlot_length st2 s _).trans (hlen2.trans hlen1), ?_, rfl, ?_, ?_,
      fun h => (by rw [hh] at h; cases h), ?_, hpmm2, hmem2⟩
    · have hslot3 : st3.slot s = ⟨0, none, 0, st2.freeHead⟩ :=
        slot_setSlot_self (by rw [hlen2, hlen1]; exact hs.1) _
      rw [hslot3, hhead2]
      rfl
    · intro k hk
      obtain ⟨link, hl⟩ := hslots2 k
      exact ⟨link, by rw [hne3 k hk, hl, hne1 k hk]⟩
    · intro k hk hcase
      rw [hnext3 k hk, hlinks2 k hk, hnext1]
      intro hka
      obtain ⟨h1, h2⟩ := hlive k (by simp [hka])
      rcases hcase with h | h | h
      · rw [hh] at h; cases h
      · exact h h1
      · exact h h2
    · intro hash0 h0
      obtain rfl := Option.mem_unique hh h0
      refine ⟨hash', hhash2, hbucket2, a, b, hc, ?_⟩
      exact chain_congr (fun k hk => hnext3 k (ne_of_mem_of_not_mem hk hnot)) hchain2

theorem Untracked.live_iff (h : Untracked s st st') (k : Nat) : st'.Live k ↔ st.Live k ∧ k ≠ s := by
  unfold FrameState.Live
  rw [h.length]
  by_cases hk : k = s
  · subst hk
    rw [h.self]
    exact ⟨fun hx => absurd rfl hx.2, fun hx => absurd rfl hx.2⟩
  · obtain ⟨link, hl⟩ := h.others k hk
    rw [hl]
    exact ⟨fun hx => ⟨hx, hk⟩, fun hx => hx.1⟩

theorem Untracked.pa (h : Untracked s st st') {k : Nat} (hk : k ≠ s) :
    (st'.slot k).pa = (st.slot k).pa := by
  obtain ⟨link, hl⟩ := h.others k hk
  rw [hl]

theorem Untracked.slotInv (h : Untracked s st st') (hinv : SlotInv st) (hs : st.Live s) :
    SlotInv st' := by
  refine ⟨?_, ?_, ?_, ?_⟩
  · -- the slot is pushed on the free list
    obtain ⟨l, hc, hmem⟩ := hinv.free
    have hls : ∀ k ∈ l, k ≠ s := by
      rintro k hk rfl
      exact hs.2 ((hmem k).mp hk).2
    refine ⟨s :: l, ?_, fun k => ?_⟩
    · rw [h.freeHead]
      refine chain_push hc (congrArg FrameMeta.link h.self) fun k hk => ?_
      exact h.links k (hls k hk) (.inr (.inl fun hlive => hlive.2 ((hmem k).mp hk).2))
    rw [h.length]
    by_cases hk : k = s
    · subst hk
      rw [h.self]
      exact ⟨fun _ => ⟨hs.1, rfl⟩, fun _ => by simp⟩
    · obtain ⟨link, hl⟩ := h.others k hk
      rw [hl, mem_cons, hmem k]
      exact ⟨fun hin => hin.resolve_left hk, .inr⟩
  · intro hash' hh' v
    cases hh : st.hash with
    | none => rw [h.noHash hh] at hh'; cases hh'
    | some hash =>
      obtain ⟨hash2, hhash2, hbucket, a, b, hold, hnew⟩ := h.hash hash hh
      obtain rfl := Option.mem_unique hhash2 hh'
      obtain ⟨l, hc, hmem⟩ := hinv.chains hash hh v
      have hiff : ∀ k, k ≠ s → (k ∈ l ↔ st'.Live k ∧ frameHashPa (st'.slot k).pa = v) := by
        intro k hk
        rw [hmem k, h.live_iff k, h.pa hk]
        exact ⟨fun hx => ⟨⟨hx.1, hk⟩, hx.2⟩, fun hx => ⟨hx.1.1, hx.2⟩⟩
      have hdead : ¬ st'.Live s := fun hx => ((h.live_iff s).mp hx).2 rfl
      by_cases hv : v = frameHashPa (st.slot s).pa
      · -- the slot's own chain loses it
        rw [hv] at hc ⊢
        obtain rfl := chain_unique hc hold
        have hnot := (nodup_cons.mp (nodup_middle.mp (chain_nodup hc))).1
        refine ⟨a ++ b, hnew, fun k => ?_⟩
        by_cases hk : k = s
        · subst hk
          exact iff_of_false hnot fun hx => hdead hx.1
        · rw [← hv, ← hiff k hk]
          simp [hk]
      · refine ⟨l, ?_, fun k => ?_⟩
        · rw [hbucket v hv]
          refine chain_congr (fun k hk => ?_) hc
          have hkv := ((hmem k).mp hk).2
          have hks : k ≠ s := by rintro rfl; exact hv hkv.symm
          exact h.links k hks (.inr (.inr (by rw [hkv]; exact hv)))
        · by_cases hk : k = s
          · subst hk
            exact ⟨fun hin => absurd ((hmem k).mp hin).2.symm hv, fun hx => absurd hx.1 hdead⟩
          · exact hiff k hk
  · intro x y hx hy hxy
    obtain ⟨hx1, hx2⟩ := (h.live_iff x).mp hx
    obtain ⟨hy1, hy2⟩ := (h.live_iff y).mp hy
    rw [h.pa hx2, h.pa hy2] at hxy
    exact hinv.inj x y hx1 hy1 hxy
  · intro x hx
    obtain ⟨hx1, hx2⟩ := (h.live_iff x).mp hx
    rw [h.pa hx2]
    exact hinv.page x hx1

end AxonOS.Frame

import AxonOS.PageCache.Cache
import AxonOS.Lib.Run

/-! # Coherence of shared mappings

While a caller holds the frame of a page, its entry is in the cache: its counter is at least 2, and
only entries with counter 1 are evicted or dropped. So the next `pagecache_get` finds it, if it
looks into the right bucket. It does if and only if the entries that `pagecache_invalidate` keeps
belong into the same bucket under the new generation, that is, if the generation changes by a
multiple of 512.
-/

namespace AxonOS.PageCache

open Lib List Function Ent

def ents (t : Nat → List Ent) : List Ent := bucketEntries PAGECACHE_BUCKETS t

def Ent.key (e : Ent) : Word × Word := (e.backingId, e.pageIndex)

/-! ## The invariant -/

def Hashed (t : Nat → List Ent) : Prop := ∀ b < PAGECACHE_BUCKETS, ∀ e ∈ t b, e.hash = b

/-- The table and the counters are consistent with the live generations and the mappings. -/
structure Consistent (t : Nat → List Ent) (refs : Nat → Nat) (generation : Word → Word)
    (held : List Hold) :
    Prop where
  hashed : Hashed t
  live : ∀ e ∈ ents t, e.generation = generation e.backingId
  named : ∀ e ∈ ents t, e.backingId ≠ 0
  keys : ((ents t).map Ent.key).Nodup
  frames : ((ents t).map Ent.pa).Nodup
  counted : ∀ e ∈ ents t, held.countP (fun h => h.pa = e.pa) + 1 ≤ refs e.pa
  held : ∀ h ∈ held, ∃ e ∈ ents t, e.key = (h.backingId, h.pageIndex) ∧ e.pa = h.pa

def State.Consistent (s : State) : Prop :=
  PageCache.Consistent s.cache.bucket s.cache.refs s.generation s.held

/-- **Coherence**: every entry is in its bucket, no page has two entries under the live generation
of its file, and every answer for a page that was held was the frame held. -/
structure Coherent (s : State) : Prop where
  hashed : Hashed s.cache.bucket
  unique : ∀ backingId pageIndex,
    ((ents s.cache.bucket).filter (Ent.has backingId (s.generation backingId) pageIndex)).length ≤ 1
  answers : ∀ a ∈ s.answers, a.result = some a.held

/-- The frame from `frame_alloc_zero` is free, no counter overflows, and generations increase. -/
def Valid (s : State) : Op → Prop
  | .get _ _ env =>
    (∀ pa, env.page = some pa → s.cache.refs pa = 0) ∧ ∀ e ∈ ents s.cache.bucket,
      s.cache.refs e.pa + 1 < 2 ^ 32
  | .release _ => True
  | .invalidate backingId newGeneration => s.generation backingId < newGeneration

/-- An entry of the file stays: its frame is mapped, or it is one of shared memory. -/
def Keeps (s : State) (backingId : Word) : Prop :=
  ∃ e ∈ ents s.cache.bucket, e.backingId = backingId ∧ (e.dsm = true ∨ s.cache.refs e.pa ≠ 1)

/-- A file whose entries stay in the cache changes its generation by a multiple of the number of
buckets. -/
def SameBuckets (s : State) : Op → Prop
  | .invalidate backingId newGeneration =>
    Keeps s backingId →
      newGeneration.toNat % PAGECACHE_BUCKETS = (s.generation backingId).toNat % PAGECACHE_BUCKETS
  | _ => True

/-! ## Hashing -/

/-- The hash reads nine bits of each part. -/
theorem pcHash_eq (backingId generation pageIndex : Word) : pcHash backingId generation pageIndex
      = (backingId.setWidth 9 ^^^ (generation.setWidth 9 * 0x15#9)
          ^^^ (pageIndex.setWidth 9 * 0x1B9#9)).toNat := by
  have hmask : BitVec.ofNat 64 (PAGECACHE_BUCKETS - 1) = BitVec.ofNat 64 (2 ^ 9 - 1) := rfl
  unfold pcHash
  rw [hmask, BitVec.toNat_and, BitVec.toNat_ofNat, Nat.mod_eq_of_lt (by decide),
    Nat.and_two_pow_sub_one_eq_mod, ← BitVec.toNat_setWidth, BitVec.setWidth_xor,
    BitVec.setWidth_xor, BitVec.setWidth_mul _ _ (by decide), BitVec.setWidth_mul _ _ (by decide)]
  rfl

theorem pcHash_lt (backingId generation pageIndex : Word) :
    pcHash backingId generation pageIndex < PAGECACHE_BUCKETS := by
  rw [pcHash_eq]
  exact BitVec.isLt _

theorem mul_right_cancel_odd {a b : BitVec 9} (h : a * 0x15#9 = b * 0x15#9) : a = b := by
  have hinv : 0x15#9 * 317#9 = 1#9 := by decide
  calc a = a * (0x15#9 * 317#9) := by rw [hinv, BitVec.mul_one]
    _ = b * (0x15#9 * 317#9) := by rw [← BitVec.mul_assoc, h, BitVec.mul_assoc]
    _ = b := by rw [hinv, BitVec.mul_one]

/-- **Two generations have the same buckets if and only if they differ by a multiple of 512**: the
multiplier is odd. -/
theorem pcHash_generation_iff (backingId g g' pageIndex : Word) :
    pcHash backingId g' pageIndex = pcHash backingId g pageIndex
      ↔ g'.toNat % PAGECACHE_BUCKETS = g.toNat % PAGECACHE_BUCKETS := by
  have hwidth : g'.setWidth 9 = g.setWidth 9 ↔ g'.toNat % PAGECACHE_BUCKETS
      = g.toNat % PAGECACHE_BUCKETS := by
    rw [← BitVec.toNat_inj, BitVec.toNat_setWidth]
    rfl
  rw [← hwidth, pcHash_eq, pcHash_eq, BitVec.toNat_inj, BitVec.xor_left_inj, BitVec.xor_right_inj]
  exact ⟨mul_right_cancel_odd, fun h => by rw [h]⟩

/-! ## Lookups -/

variable {c : Cache} {t t' : Nat → List Ent} {refs : Nat → Nat} {generation : Word → Word}
  {held : List Hold} {e : Ent}

theorem mem_ents : e ∈ ents t ↔ ∃ b < PAGECACHE_BUCKETS, e ∈ t b := mem_bucketEntries

variable {g backingId pageIndex newGeneration : Word} {j pa b : Nat} {refs' : Nat → Nat}
  {p : Nat × Nat × Ent} {c' : Cache}

theorem has_iff : e.has backingId g pageIndex = true
      ↔ e.backingId = backingId ∧ e.generation = g ∧ e.pageIndex = pageIndex := by
  unfold Ent.has
  rw [Bool.and_eq_true, Bool.and_eq_true, decide_eq_true_eq, decide_eq_true_eq,
    decide_eq_true_eq, and_assoc]

theorem pcFindLocked_some (h : pcFindLocked c backingId g pageIndex = some j) :
    ∃ e, (c.bucket (pcHash backingId g pageIndex))[j]? = some e ∧ e ∈ ents c.bucket
      ∧ e.backingId = backingId ∧ e.generation = g ∧ e.pageIndex = pageIndex := by
  obtain ⟨hj, hhas, _⟩ := findIdx?_eq_some_iff_getElem.mp h
  refine ⟨_, getElem?_eq_getElem hj, ?_, has_iff.mp hhas⟩
  exact mem_ents.mpr ⟨_, pcHash_lt _ _ _, getElem_mem hj⟩

/-- Entries that are in their buckets are found. -/
theorem pcFindLocked_none (hhashed : Hashed c.bucket)
    (h : pcFindLocked c backingId g pageIndex = none) :
    ∀ e ∈ ents c.bucket, e.backingId = backingId → e.generation = g → e.pageIndex ≠ pageIndex := by
  intro e he hid hgen hpage
  obtain ⟨b, hb, hmem⟩ := mem_ents.mp he
  have hbucket : pcHash backingId g pageIndex = b := by
    rw [← hhashed b hb e hmem, ← hid, ← hgen, ← hpage]
    rfl
  have hnot := findIdx?_eq_none_iff.mp h e (hbucket ▸ hmem)
  rw [has_iff.mpr ⟨hid, hgen, hpage⟩] at hnot
  cases hnot

/-! ## Counters -/

theorem frameRelease_of_ne (refs : Nat → Nat) {q : Nat} (h : q ≠ pa) :
    frameRelease refs pa q = refs q := by
  unfold frameRelease
  split
  · rfl
  · exact update_of_ne h _ _

theorem frameRelease_self (refs : Nat → Nat) (pa : Nat) :
    frameRelease refs pa pa = refs pa - 1 := by
  unfold frameRelease
  split
  · omega
  · exact update_self _ _ _

theorem frameRetain_eq (hpos : refs pa ≠ 0) (hover : refs pa + 1 < 2 ^ 32) :
    frameRetain refs pa = some (update refs pa (refs pa + 1)) := by
  unfold frameRetain
  rw [if_neg hpos, Nat.mod_eq_of_lt hover]

/-! ## What keeps the cache consistent -/

section

variable (h : Consistent t refs generation held)

include h

theorem Consistent.withRefs (hrefs : ∀ e ∈ ents t, refs e.pa ≤ refs' e.pa) :
    Consistent t refs' generation held :=
  { h with counted := fun e he => (h.counted e he).trans (hrefs e he) }

theorem Consistent.ne_of_free (hpa : refs pa = 0) : ∀ e ∈ ents t, e.pa ≠ pa := by
  rintro e he rfl
  have := h.counted e he
  omega

/-- A frame without an entry goes back. -/
theorem Consistent.giveBack (hne : ∀ e ∈ ents t, e.pa ≠ pa) :
    Consistent t (frameRelease refs pa) generation held :=
  h.withRefs fun e he => by rw [frameRelease_of_ne _ (hne e he)]

end

/-- An entry apart from the time of its last use. -/
def Ent.core (e : Ent) : Ent := { e with lastUsed := 0 }

theorem core_fields {e e' : Ent} (h : e.core = e'.core) :
    e.backingId = e'.backingId ∧ e.generation = e'.generation ∧ e.pageIndex = e'.pageIndex
    ∧ e.pa = e'.pa := by
  obtain ⟨hid, hgen, hpage, hpa, _, _⟩ := Ent.mk.inj h
  exact ⟨hid, hgen, hpage, hpa⟩

theorem map_core_set {l : List Ent} (tick : Word) (hj : l[j]? = some e) :
    (l.set j { e with lastUsed := tick }).map core = l.map core := by
  obtain ⟨hlt, rfl⟩ := List.getElem?_eq_some_iff.mp hj
  refine ext_getElem (by simp) fun i hi _ => ?_
  rw [getElem_map, getElem_map, getElem_set]
  split
  next hij =>
    subst hij
    rfl
  · rfl

theorem Consistent.touch (h : Consistent t refs generation held)
    (hcore : ∀ b, (t' b).map core = (t b).map core) : Consistent t' refs generation held := by
  have hents : (ents t').map core = (ents t).map core := by
    unfold ents
    rw [← bucketEntries_map, ← bucketEntries_map]
    exact bucketEntries_congr fun b _ => hcore b
  have hback : ∀ {l l' : List Ent}, l'.map core = l.map core → ∀ e ∈ l', ∃ e0 ∈ l,
      e0.core = e.core := by
    intro l l' hl e he
    exact mem_map.mp (hl ▸ mem_map_of_mem he)
  have hmap : ∀ {β : Type} (f : Ent → β), (∀ e, f e.core = f e) →
      (ents t').map f = (ents t).map f := by
    intro β f hf
    have hcomp : f = f ∘ core := funext fun e => (hf e).symm
    rw [hcomp, ← map_map, hents, map_map]
  refine ⟨fun b hb e he => ?_, fun e he => ?_, fun e he => ?_, ?_, ?_, fun e he => ?_,
    fun hold hh => ?_⟩
  · obtain ⟨e0, he0, hsame⟩ := hback (hcore b) e he
    obtain ⟨hid, hgen, hpage, _⟩ := core_fields hsame
    have hhash := h.hashed b hb e0 he0
    unfold Ent.hash at hhash ⊢
    rw [← hid, ← hgen, ← hpage]
    exact hhash
  · obtain ⟨e0, he0, hsame⟩ := hback hents e he
    obtain ⟨hid, hgen, _, _⟩ := core_fields hsame
    rw [← hgen, ← hid]
    exact h.live e0 he0
  · obtain ⟨e0, he0, hsame⟩ := hback hents e he
    rw [← (core_fields hsame).1]
    exact h.named e0 he0
  · rw [hmap Ent.key fun _ => rfl]
    exact h.keys
  · rw [hmap Ent.pa fun _ => rfl]
    exact h.frames
  · obtain ⟨e0, he0, hsame⟩ := hback hents e he
    obtain ⟨_, _, _, hpa⟩ := core_fields hsame
    rw [← hpa]
    exact h.counted e0 he0
  · obtain ⟨e, he, hkey, hpa⟩ := h.held hold hh
    obtain ⟨e', he', hsame⟩ := hback hents.symm e he
    obtain ⟨hid, _, hpage, hpa'⟩ := core_fields hsame
    refine ⟨e', he', ?_, hpa'.trans hpa⟩
    rw [← hkey]
    exact Prod.ext hid hpage

/-- The frame of an entry is held once more. -/
theorem Consistent.hold (h : Consistent t refs generation held) (he : e ∈ ents t) :
    Consistent t (update refs e.pa (refs e.pa + 1)) generation
    (⟨e.backingId, e.pageIndex, e.pa⟩ :: held) := by
  refine { h with counted := fun e' he' => ?_, held := fun hold hh => ?_ }
  · have hcount := h.counted e' he'
    rw [countP_cons]
    by_cases hpa : e.pa = e'.pa
    · rw [← hpa] at hcount ⊢
      rw [update_self, if_pos (by simp)]
      omega
    · rw [update_of_ne (Ne.symm hpa), if_neg (by simpa using hpa)]
      exact hcount
  · rcases mem_cons.mp hh with rfl | hmem
    · exact ⟨e, he, rfl, rfl⟩
    · exact h.held hold hmem

theorem mem_insert (t : Nat → List Ent) (e : Ent) : e ∈ ents (update t e.hash (e :: t e.hash)) := by
  refine mem_ents.mpr ⟨e.hash, pcHash_lt _ _ _, ?_⟩
  rw [update_self]
  exact mem_cons_self

theorem mem_of_eraseIdx {b' : Nat} (h : e ∈ update t b ((t b).eraseIdx j) b') : e ∈ t b' := by
  by_cases hbb : b' = b
  · subst hbb
    rw [update_self] at h
    exact mem_of_mem_eraseIdx h
  · rwa [update_of_ne hbb] at h

section

variable (h : Consistent t refs generation held)

include h

/-- The frame of a hold has a counter of at least 2. -/
theorem Consistent.shared {hold : Hold} (he : e ∈ ents t) (hh : hold ∈ held)
    (hpa : e.pa = hold.pa) :
    1 < refs e.pa := by
  have hcount := h.counted e he
  have hpos : 0 < held.countP (fun h => h.pa = e.pa) :=
    countP_pos_iff.mpr ⟨hold, hh, decide_eq_true hpa.symm⟩
  omega

/-- A new entry, for a page without one, with a frame that is in no other. -/
theorem Consistent.insert (hgen : e.generation = generation e.backingId) (hid : e.backingId ≠ 0)
    (hkey : ∀ e' ∈ ents t, e'.key ≠ e.key) (hpa : ∀ e' ∈ ents t, e'.pa ≠ e.pa)
    (hrefs : refs e.pa ≠ 0) :
    Consistent (update t e.hash (e :: t e.hash)) refs generation held := by
  have hperm : (ents (update t e.hash (e :: t e.hash))).Perm (e :: ents t) :=
    bucketEntries_perm (pcHash_lt _ _ _) (List.Perm.refl _)
  have hmem : ∀ e', e' ∈ ents (update t e.hash (e :: t e.hash)) ↔ e' = e ∨ e' ∈ ents t :=
    fun e' => hperm.mem_iff.trans mem_cons
  refine ⟨fun b hb e' he' => ?_, fun e' he' => ?_, fun e' he' => ?_, ?_, ?_, fun e' he' => ?_,
    fun hold hh => ?_⟩
  · by_cases hbe : b = e.hash
    · subst hbe
      rw [update_self] at he'
      rcases mem_cons.mp he' with rfl | hold
      · rfl
      · exact h.hashed _ hb e' hold
    · rw [update_of_ne hbe] at he'
      exact h.hashed b hb e' he'
  · rcases (hmem e').mp he' with rfl | hold
    · exact hgen
    · exact h.live e' hold
  · rcases (hmem e').mp he' with rfl | hold
    · exact hid
    · exact h.named e' hold
  · rw [(hperm.map Ent.key).nodup_iff, map_cons, nodup_cons]
    refine ⟨fun hin => ?_, h.keys⟩
    obtain ⟨e', he', hsame⟩ := mem_map.mp hin
    exact hkey e' he' hsame
  · rw [(hperm.map Ent.pa).nodup_iff, map_cons, nodup_cons]
    refine ⟨fun hin => ?_, h.frames⟩
    obtain ⟨e', he', hsame⟩ := mem_map.mp hin
    exact hpa e' he' hsame
  · rcases (hmem e').mp he' with rfl | hold
    · -- nobody holds the frame: a hold has an entry with its frame
      have hnone : held.countP (fun h => h.pa = e'.pa) = 0 := by
        rw [countP_eq_zero]
        intro hold hh hsame
        obtain ⟨e0, he0, _, hpa0⟩ := h.held hold hh
        exact hpa e0 he0 (hpa0.trans (of_decide_eq_true hsame))
      omega
    · exact h.counted e' hold
  · obtain ⟨e', he', hk, hp⟩ := h.held hold hh
    exact ⟨e', (hmem e').mpr (.inr he'), hk, hp⟩

/-- An entry is taken away whose frame nobody else holds. -/
theorem Consistent.remove (hb : b < PAGECACHE_BUCKETS) (hj : (t b)[j]? = some e)
    (hrefs : refs e.pa = 1) :
    Consistent (update t b ((t b).eraseIdx j)) (frameRelease refs e.pa) generation held := by
  obtain ⟨hlt, rfl⟩ := List.getElem?_eq_some_iff.mp hj
  have hchain : (t b).Perm ((t b)[j] :: (t b).eraseIdx j) := (getElem_cons_eraseIdx_perm hlt).symm
  have hperm : (ents t).Perm ((t b)[j] :: ents (update t b ((t b).eraseIdx j))) := by
    have hback : update (update t b ((t b).eraseIdx j)) b (t b) = t := by
      rw [update_idem, update_eq_self]
    have := bucketEntries_perm (t := update t b ((t b).eraseIdx j)) hb (l := t b)
      (by rw [update_self]; exact hchain)
    rwa [hback] at this
  have hsub : ∀ e' ∈ ents (update t b ((t b).eraseIdx j)), e' ∈ ents t :=
    fun e' he' => hperm.mem_iff.mpr (mem_cons_of_mem _ he')
  have hkeys := (hperm.map Ent.key).nodup_iff.mp h.keys
  have hframes := (hperm.map Ent.pa).nodup_iff.mp h.frames
  rw [map_cons, nodup_cons] at hkeys hframes
  refine ⟨fun b' hb' e' he' => h.hashed b' hb' e' (mem_of_eraseIdx he'),
    fun e' he' => h.live e' (hsub e' he'), fun e' he' => h.named e' (hsub e' he'), hkeys.2,
    hframes.2, fun e' he' => ?_, fun hold hh => ?_⟩
  · have hne : e'.pa ≠ (t b)[j].pa := fun hsame => hframes.1 (mem_map.mpr ⟨e', he', hsame⟩)
    rw [frameRelease_of_ne refs hne]
    exact h.counted e' (hsub e' he')
  · obtain ⟨e', he', hk, hp⟩ := h.held hold hh
    refine ⟨e', ?_, hk, hp⟩
    rcases mem_cons.mp (hperm.mem_iff.mp he') with rfl | hrest
    · have hcount := h.shared he' hh hp
      omega
    · exact hrest

theorem Consistent.release {i : Nat} {hold : Hold} (hi : held[i]? = some hold) :
    Consistent t (frameRelease refs hold.pa) generation (held.eraseIdx i) := by
  obtain ⟨hlt, rfl⟩ := List.getElem?_eq_some_iff.mp hi
  have hperm : held.Perm (held[i] :: held.eraseIdx i) := (getElem_cons_eraseIdx_perm hlt).symm
  refine { h with
    counted := fun e he => ?_, held := fun hold hh => h.held hold (mem_of_mem_eraseIdx hh) }
  have hcount := h.counted e he
  rw [hperm.countP_eq, countP_cons] at hcount
  by_cases hpa : held[i].pa = e.pa
  · rw [if_pos (decide_eq_true hpa)] at hcount
    rw [← hpa, frameRelease_self]
    rw [← hpa] at hcount
    omega
  · rw [frameRelease_of_ne refs (Ne.symm hpa)]
    omega

end

/-! ## Eviction -/

theorem mem_places :
    p ∈ places c ↔ p.1 < PAGECACHE_BUCKETS ∧ (c.bucket p.1)[p.2.1]? = some p.2.2 := by
  unfold places
  rw [mem_flatMap]
  constructor
  · rintro ⟨i, hi, hp⟩
    obtain ⟨q, hq, rfl⟩ := mem_map.mp hp
    exact ⟨mem_range.mp hi, mem_zipIdx_iff_getElem?.mp hq⟩
  · rintro ⟨hi, hj⟩
    refine ⟨p.1, mem_range.mpr hi, mem_map.mpr ⟨(p.2.2, p.2.1), ?_, rfl⟩⟩
    exact mem_zipIdx_iff_getElem?.mpr hj

/-- The entry that the loops choose is one of those they have seen, and only the cache holds its
frame. -/
theorem foldl_consider {ps : List (Nat × Nat × Ent)} {best : Option (Nat × Nat × Ent) × Word}
    (h : (ps.foldl (consider c) best).1 = some p) : best.1 = some p
    ∨ (p ∈ ps ∧ c.refs p.2.2.pa = 1) := by
  induction ps generalizing best with
  | nil => exact .inl h
  | cons q ps ih =>
    rcases ih h with hbest | ⟨hmem, hrefs⟩
    · unfold consider at hbest
      dsimp only at hbest
      split at hbest
      · exact .inl hbest
      split at hbest
      next hq =>
        rw [Bool.and_eq_true, decide_eq_true_eq] at hq
        cases hbest
        exact .inr ⟨mem_cons_self, hq.1⟩
      · exact .inl hbest
    · exact .inr ⟨mem_cons_of_mem _ hmem, hrefs⟩

theorem pcEvictOneLocked_some (h : pcEvictOneLocked c = some c') :
    ∃ b < PAGECACHE_BUCKETS, ∃ j e, (c.bucket b)[j]? = some e ∧ c.refs e.pa = 1 ∧ c' = { c with
          bucket := update c.bucket b ((c.bucket b).eraseIdx j)
          count := c.count - 1
          refs := frameRelease c.refs e.pa } := by
  unfold pcEvictOneLocked at h
  split at h
  · cases h
  next b j e hbest =>
    rcases foldl_consider hbest with hnone | ⟨hmem, hrefs⟩
    · cases hnone
    · obtain ⟨hb, hj⟩ := mem_places.mp hmem
      exact ⟨b, hb, j, e, hj, hrefs, (Option.some.inj h).symm⟩

/-- The cache has lost entries; frames that were in none are as they were. -/
structure Shrinks (c c' : Cache) : Prop where
  ents : ∀ e ∈ ents c'.bucket, e ∈ ents c.bucket
  refs : ∀ pa, (∀ e ∈ PageCache.ents c.bucket, e.pa ≠ pa) → c'.refs pa = c.refs pa

theorem Shrinks.refl (c : Cache) : Shrinks c c := ⟨fun _ he => he, fun _ _ => rfl⟩

theorem Shrinks.trans {c1 c2 c3 : Cache} (h : Shrinks c1 c2) (h' : Shrinks c2 c3) :
    Shrinks c1 c3 := by
  refine ⟨fun e he => h.ents e (h'.ents e he), fun pa hpa => ?_⟩
  rw [h'.refs pa fun e he => hpa e (h.ents e he), h.refs pa hpa]

theorem evict_shrinks (h : pcEvictOneLocked c = some c') : Shrinks c c' := by
  obtain ⟨b, hb, j, e, hj, _, rfl⟩ := pcEvictOneLocked_some h
  obtain ⟨hlt, rfl⟩ := List.getElem?_eq_some_iff.mp hj
  refine ⟨fun e' he' => ?_, fun pa hpa => ?_⟩
  · obtain ⟨b', hb', hmem⟩ := mem_ents.mp he'
    exact mem_ents.mpr ⟨b', hb', mem_of_eraseIdx hmem⟩
  · exact frameRelease_of_ne _ (Ne.symm (hpa _ (mem_ents.mpr ⟨b, hb, getElem_mem hlt⟩)))

theorem evictLoop_spec (fuel : Nat) (hc : Consistent c.bucket c.refs generation held) :
    Consistent (evictLoop fuel c).bucket (evictLoop fuel c).refs generation held
      ∧ Shrinks c (evictLoop fuel c) := by
  induction fuel generalizing c with
  | zero => exact ⟨hc, Shrinks.refl c⟩
  | succ fuel ih =>
    unfold evictLoop
    split
    · split
      · exact ⟨hc, Shrinks.refl c⟩
      next c' heq =>
        have hshrinks := evict_shrinks heq
        obtain ⟨b, hb, j, e, hj, hrefs, rfl⟩ := pcEvictOneLocked_some heq
        have hc' := hc.remove hb hj hrefs
        exact ⟨(ih hc').1, hshrinks.trans (ih hc').2⟩
    · exact ⟨hc, Shrinks.refl c⟩

/-! ## `pagecache_get` -/

/-- The mappings after an answer. -/
def holdsAfter (f : File) (pageIndex : Word) (held : List Hold) : Option Nat → List Hold
  | none => held
  | some pa => ⟨f.backingId, pageIndex, pa⟩ :: held

/-- An entry is found and used: its frame is held once more. -/
theorem useHit_spec (hc : Consistent c.bucket c.refs generation held) (hb : b < PAGECACHE_BUCKETS)
    (hj : (c.bucket b)[j]? = some e) (hover : c.refs e.pa + 1 < 2 ^ 32) :
    ∃ c', useHit c b j = (c', some e.pa)
      ∧ Consistent c'.bucket c'.refs generation (⟨e.backingId, e.pageIndex, e.pa⟩ :: held) := by
  obtain ⟨hlt, hget⟩ := List.getElem?_eq_some_iff.mp hj
  have hmem : e ∈ ents c.bucket := mem_ents.mpr ⟨b, hb, hget ▸ getElem_mem hlt⟩
  have hpos : c.refs e.pa ≠ 0 := by
    have := hc.counted e hmem
    omega
  unfold useHit
  rw [hj]
  dsimp only
  rw [frameRetain_eq hpos hover]
  refine ⟨_, rfl, (hc.hold hmem).touch fun b' => ?_⟩
  dsimp only
  by_cases hbb : b' = b
  · subst hbb
    rw [update_self]
    exact map_core_set _ hj
  · rw [update_of_ne hbb]

theorem insertEnt_spec (hc : Consistent c.bucket c.refs generation held) (f : File)
    (hid : f.backingId ≠ 0) (hkey : ∀ e ∈ ents c.bucket, e.key ≠ (f.backingId, pageIndex))
    (hpa : ∀ e ∈ ents c.bucket, e.pa ≠ pa) (hrefs : c.refs pa = 1) :
    ∃ c', insertEnt c f (generation f.backingId) pageIndex pa = (c', some pa)
      ∧ Consistent c'.bucket c'.refs generation (⟨f.backingId, pageIndex, pa⟩ :: held) := by
  have hins :=
    hc.insert (e := ⟨f.backingId, generation f.backingId, pageIndex, pa, c.tick + 1, f.shm⟩) rfl hid
    hkey hpa (by dsimp only; omega)
  have hmem :=
    mem_insert c.bucket ⟨f.backingId, generation f.backingId, pageIndex, pa, c.tick + 1, f.shm⟩
  unfold insertEnt
  dsimp only
  rw [frameRetain_eq (by omega) (by omega)]
  exact ⟨_, rfl, hins.hold hmem⟩

/-- A page that is not in the cache: without a result nothing is held, and otherwise the new frame
is. -/
theorem fillPage_spec (hc : Consistent c.bucket c.refs generation held) (f : File)
    (pageIndex : Word) (env : Env) (hid : f.backingId ≠ 0)
    (hmiss : pcFindLocked c f.backingId (generation f.backingId) pageIndex = none)
    (hfree : ∀ pa, env.page = some pa → c.refs pa = 0) :
    ∃ c' r, fillPage c f (generation f.backingId) pageIndex env = (c', r)
      ∧ Consistent c'.bucket c'.refs generation (holdsAfter f pageIndex held r) := by
  unfold fillPage
  cases hpage : env.page with
  | none => exact ⟨c, none, rfl, hc⟩
  | some pa =>
    have hzero := hfree pa hpage
    have hne := hc.ne_of_free hzero
    have halloc : Consistent c.bucket (update c.refs pa 1) generation held :=
      hc.withRefs fun e he => by rw [update_of_ne (hne e he)]
    have hkey : ∀ e ∈ ents c.bucket, e.key ≠ (f.backingId, pageIndex) := by
      intro e he hsame
      obtain ⟨hsameId, hsamePage⟩ := Prod.mk.inj hsame
      exact pcFindLocked_none hc.hashed hmiss e he hsameId (hsameId ▸ hc.live e he) hsamePage
    have hmiss' : pcFindLocked { c with refs := update c.refs pa 1 } f.backingId
        (generation f.backingId) pageIndex = none := hmiss
    obtain ⟨hroom, hshrinks⟩ := evictLoop_spec (c := { c with refs := update c.refs pa 1 })
      (c.count - PAGECACHE_MAX + 1).toNat halloc
    have hne' := fun e he => hne e (hshrinks.ents e he)
    dsimp only
    rw [hmiss']
    dsimp only
    split
    · exact ⟨_, none, rfl, halloc.giveBack hne⟩
    split
    · have hrefs : (makeRoom { c with refs := update c.refs pa 1 }).refs pa = 1 :=
        (hshrinks.refs pa hne).trans (update_self _ _ _)
      obtain ⟨c', hins, hc'⟩ :=
        insertEnt_spec hroom f hid (fun e he => hkey e (hshrinks.ents e he)) hne' hrefs
      exact ⟨c', some pa, hins, hc'⟩
    · exact ⟨_, none, rfl, hroom.giveBack hne'⟩

/-- **What `pagecache_get` answers**: for a page that is held, the frame that is held. -/
theorem pagecacheGet_spec (hc : Consistent c.bucket c.refs generation held) (f : File)
    (fileOff : Word) (env : Env) (hfree : ∀ pa, env.page = some pa → c.refs pa = 0)
    (hover : ∀ e ∈ ents c.bucket, c.refs e.pa + 1 < 2 ^ 32) :
    ∃ c' r, pagecacheGet c f (generation f.backingId) fileOff env = (c', r)
      ∧ Consistent c'.bucket c'.refs generation (holdsAfter f (pageOf fileOff) held r)
      ∧ ∀ h ∈ held, h.on f.backingId (pageOf fileOff) = true → r = some h.pa := by
  -- a page that is held has an entry
  have hentry : ∀ h ∈ held, h.on f.backingId (pageOf fileOff) = true →
      ∃ e ∈ ents c.bucket, e.key = (f.backingId, pageOf fileOff) ∧ e.pa = h.pa := by
    intro h hh hon
    unfold Hold.on at hon
    rw [Bool.and_eq_true, decide_eq_true_eq, decide_eq_true_eq] at hon
    obtain ⟨e, he, hkey, hpa⟩ := hc.held h hh
    exact ⟨e, he, by rw [hkey, hon.1, hon.2], hpa⟩
  unfold pagecacheGet
  by_cases hid : f.backingId = 0
  · rw [if_pos hid]
    refine ⟨c, none, rfl, hc, fun h hh hon => ?_⟩
    obtain ⟨e, he, hkey, _⟩ := hentry h hh hon
    exact absurd ((congrArg Prod.fst hkey).trans hid) (hc.named e he)
  · rw [if_neg hid]
    dsimp only
    cases hfind : pcFindLocked c f.backingId (generation f.backingId) (pageOf fileOff) with
    | some j =>
      obtain ⟨e, hj, he, heid, _, hepage⟩ := pcFindLocked_some hfind
      obtain ⟨c', heq, hc'⟩ := useHit_spec hc (pcHash_lt _ _ _) hj (hover e he)
      refine ⟨c', some e.pa, heq, ?_, fun h hh hon => ?_⟩
      · rw [heid, hepage] at hc'
        exact hc'
      · obtain ⟨e', he', hkey, hpa⟩ := hentry h hh hon
        have hsame : e = e' :=
          inj_on_of_nodup_map hc.keys he he' ((Prod.ext heid hepage).trans hkey.symm)
        rw [hsame, hpa]
    | none =>
      obtain ⟨c', r, heq, hc'⟩ := fillPage_spec hc f (pageOf fileOff) env hid hfind hfree
      refine ⟨c', r, heq, hc', fun h hh hon => ?_⟩
      obtain ⟨e, he, hkey, _⟩ := hentry h hh hon
      obtain ⟨hsameId, hsamePage⟩ := Prod.mk.inj hkey
      exact absurd hsamePage
        (pcFindLocked_none hc.hashed hfind e he hsameId (hsameId ▸ hc.live e he))

/-! ## `pagecache_invalidate` -/

/-- The entry stays when the file changes. -/
def Ent.stays (backingId : Word) (refs : Nat → Nat) (e : Ent) : Bool :=
  e.backingId ≠ backingId || e.dsm || refs e.pa ≠ 1

/-- The entry with the new generation of its file. -/
def Ent.restamp (backingId newGeneration : Word) (e : Ent) : Ent :=
  if e.backingId = backingId then { e with generation := newGeneration } else e

def leftOf (backingId newGeneration : Word) (refs : Nat → Nat) (es : List Ent) : List Ent :=
  (es.filter (Ent.stays backingId refs)).map (Ent.restamp backingId newGeneration)

theorem invalidateChain_cons (hnew : newGeneration ≠ 0) (e : Ent) (es : List Ent) (refs : Nat → Nat)
    (count : Int) : invalidateChain backingId newGeneration (e :: es) refs count
      = if e.stays backingId refs = true then
          let r := invalidateChain backingId newGeneration es refs count
          (e.restamp backingId newGeneration :: r.1, r.2)
        else invalidateChain backingId newGeneration es (frameRelease refs e.pa) (count - 1) := by
  rw [invalidateChain]
  unfold stays restamp
  rw [if_neg hnew]
  by_cases hid : e.backingId = backingId
  · cases hdsm : e.dsm with
    | true => simp [hid]
    | false =>
      by_cases hone : refs e.pa = 1
      · simp [hid, hone]
      · simp [hid, hone]
  · simp [hid]

/-- A chain with distinct frames; the counters of other frames do not change. -/
theorem invalidateChain_spec (backingId : Word) (hnew : newGeneration ≠ 0) {refs0 : Nat → Nat}
    (es : List Ent) (refs : Nat → Nat) (count : Int) (hframes : (es.map Ent.pa).Nodup)
    (hrefs : ∀ e ∈ es, refs e.pa = refs0 e.pa) :
    (invalidateChain backingId newGeneration es refs count).1
        = leftOf backingId newGeneration refs0 es
      ∧ ∀ pa, (∀ e ∈ es, e.stays backingId refs0 = false → e.pa ≠ pa) →
          (invalidateChain backingId newGeneration es refs count).2.1 pa = refs pa := by
  induction es generalizing refs count with
  | nil => exact ⟨rfl, fun _ _ => rfl⟩
  | cons e es ih =>
    rw [map_cons, nodup_cons] at hframes
    obtain ⟨hfresh, hframes⟩ := hframes
    have hrest : ∀ e' ∈ es, refs e'.pa = refs0 e'.pa :=
      fun e' he' => hrefs e' (mem_cons_of_mem _ he')
    have hstays : e.stays backingId refs = e.stays backingId refs0 := by
      unfold stays
      rw [hrefs e mem_cons_self]
    rw [invalidateChain_cons hnew, hstays]
    unfold leftOf
    cases hkeep : e.stays backingId refs0 with
    | true =>
      obtain ⟨hleft, hsame⟩ := ih refs count hframes hrest
      rw [filter_cons_of_pos hkeep, map_cons]
      refine ⟨by dsimp only; rw [hleft]; rfl, fun pa hpa => ?_⟩
      exact hsame pa fun e' he' => hpa e' (mem_cons_of_mem _ he')
    | false =>
      -- the frame that is released is not that of an entry further on
      have hne : ∀ e' ∈ es, e'.pa ≠ e.pa :=
        fun e' he' hsame => hfresh (mem_map.mpr ⟨e', he', hsame⟩)
      obtain ⟨hleft, hsame⟩ := ih (frameRelease refs e.pa) (count - 1) hframes
        fun e' he' => (frameRelease_of_ne refs (hne e' he')).trans (hrest e' he')
      rw [if_neg (by decide), filter_cons_of_neg (by rw [hkeep]; decide)]
      refine ⟨hleft, fun pa hpa => ?_⟩
      rw [hsame pa fun e' he' => hpa e' (mem_cons_of_mem _ he')]
      exact frameRelease_of_ne refs (Ne.symm (hpa e mem_cons_self hkeep))

/-- The outer loop, over the first `n` buckets. -/
theorem foldl_invalidateBucket (backingId : Word) (hnew : newGeneration ≠ 0) (c : Cache) (n : Nat)
    (hframes : ((bucketEntries n c.bucket).map Ent.pa).Nodup) :
    (∀ b, ((List.range n).foldl (invalidateBucket backingId newGeneration) c).bucket b
        = if b < n then leftOf backingId newGeneration c.refs (c.bucket b) else c.bucket b)
      ∧ ∀ pa, (∀ e ∈ bucketEntries n c.bucket, e.stays backingId c.refs = false → e.pa ≠ pa) →
          ((List.range n).foldl (invalidateBucket backingId newGeneration) c).refs pa
          = c.refs pa := by
  induction n with
  | zero => exact ⟨fun b => rfl, fun _ _ => rfl⟩
  | succ n ih =>
    rw [bucketEntries_succ, map_append, nodup_append'] at hframes
    obtain ⟨hfirst, hlast, hdisjoint⟩ := hframes
    obtain ⟨hbucket, hrefs⟩ := ih hfirst
    rw [range_succ, foldl_append, foldl_cons, foldl_nil]
    generalize (List.range n).foldl (invalidateBucket backingId newGeneration) c
      = c1 at hbucket hrefs ⊢
    have hchain : c1.bucket n = c.bucket n := by
      rw [hbucket, if_neg (Nat.lt_irrefl n)]
    have hagree : ∀ e ∈ c.bucket n, c1.refs e.pa = c.refs e.pa := by
      intro e he
      refine hrefs e.pa fun e' he' _ hsame => ?_
      exact hdisjoint (mem_map_of_mem he') (hsame ▸ mem_map_of_mem he)
    obtain ⟨hleft, hsame⟩ :=
      invalidateChain_spec backingId hnew (c.bucket n) c1.refs c1.count hlast hagree
    unfold invalidateBucket
    rw [hchain]
    dsimp only
    refine ⟨fun b => ?_, fun pa hpa => ?_⟩
    · by_cases hb : b = n
      · subst hb
        rw [update_self, if_pos (Nat.lt_succ_self b), hleft]
      · rw [update_of_ne hb, hbucket]
        by_cases hlt : b < n
        · rw [if_pos hlt, if_pos (by omega)]
        · rw [if_neg hlt, if_neg (by omega)]
    · rw [bucketEntries_succ] at hpa
      rw [hsame pa fun e he => hpa e (mem_append_right _ he),
        hrefs pa fun e he => hpa e (mem_append_left _ he)]

/-- **What an invalidation leaves**: the entries that stay, with the new generation, in their old
places. -/
theorem pagecacheInvalidate_spec (hid : backingId ≠ 0) (hnew : newGeneration ≠ 0) (c : Cache)
    (hframes : ((ents c.bucket).map Ent.pa).Nodup) :
    (∀ b < PAGECACHE_BUCKETS, (pagecacheInvalidate c backingId newGeneration).bucket b
        = leftOf backingId newGeneration c.refs (c.bucket b))
      ∧ ∀ pa, (∀ e ∈ ents c.bucket, e.stays backingId c.refs = false → e.pa ≠ pa) →
          (pagecacheInvalidate c backingId newGeneration).refs pa = c.refs pa := by
  obtain ⟨hbucket, hrefs⟩ := foldl_invalidateBucket backingId hnew c PAGECACHE_BUCKETS hframes
  unfold pagecacheInvalidate
  rw [if_neg hid]
  exact ⟨fun b hb => (hbucket b).trans (if_pos hb), hrefs⟩

variable {es : List Ent}

theorem ents_leftOf (refs : Nat → Nat)
    (ht : ∀ b < PAGECACHE_BUCKETS, t' b = leftOf backingId g refs (t b)) :
    ents t' = leftOf backingId g refs (ents t) := by
  unfold ents leftOf
  rw [← bucketEntries_filter, ← bucketEntries_map]
  exact bucketEntries_congr fun b hb => ht b hb

theorem mem_leftOf : e ∈ leftOf backingId g refs es
      ↔ ∃ e0 ∈ es, e0.stays backingId refs = true ∧ e0.restamp backingId g = e := by
  unfold leftOf
  rw [mem_map]
  constructor
  · rintro ⟨e0, he0, rfl⟩
    exact ⟨e0, (mem_filter.mp he0).1, (mem_filter.mp he0).2, rfl⟩
  · rintro ⟨e0, he0, hstays, rfl⟩
    exact ⟨e0, mem_filter.mpr ⟨he0, hstays⟩, rfl⟩

theorem restamp_fields (backingId g : Word) (e : Ent) :
    (e.restamp backingId g).backingId = e.backingId
      ∧ (e.restamp backingId g).pageIndex = e.pageIndex
      ∧ (e.restamp backingId g).pa = e.pa := by
  unfold restamp
  split <;> exact ⟨rfl, rfl, rfl⟩

/-- What a restamping does not change is without repetitions as before. -/
theorem nodup_leftOf {β : Type} (f : Ent → β) (hf : ∀ e, f (restamp backingId g e) = f e)
    (h : (es.map f).Nodup) :
    ((leftOf backingId g refs es).map f).Nodup := by
  have hcomp : f ∘ restamp backingId g = f := funext hf
  unfold leftOf
  rw [map_map, hcomp]
  exact h.sublist (filter_sublist.map f)

section

variable (h : Consistent t refs generation held)
    (ht : ∀ b < PAGECACHE_BUCKETS, t' b = leftOf backingId g refs (t b))

include h ht

/-- The entries that stay are in their buckets if and only if the generations have the same
buckets. -/
theorem hashed_leftOf_iff :
    Hashed t' ↔ ((∃ e ∈ ents t, e.backingId = backingId ∧ (e.dsm = true ∨ refs e.pa ≠ 1)) →
      g.toNat % PAGECACHE_BUCKETS = (generation backingId).toNat % PAGECACHE_BUCKETS) := by
  have hstays : ∀ e : Ent, e.backingId = backingId →
      (e.stays backingId refs = true ↔ e.dsm = true ∨ refs e.pa ≠ 1) := by
    intro e hid
    unfold stays
    simp [hid]
  -- the bucket of an entry of the file before and after
  have hhash : ∀ b < PAGECACHE_BUCKETS, ∀ e ∈ t b, e.backingId = backingId →
        ((e.restamp backingId g).hash = b
        ↔ g.toNat % PAGECACHE_BUCKETS = (generation backingId).toNat % PAGECACHE_BUCKETS) := by
    intro b hb e he hid
    have hlive := h.live e (mem_ents.mpr ⟨b, hb, he⟩)
    have hold := h.hashed b hb e he
    unfold Ent.hash at hold
    rw [← hold, hlive, ← pcHash_generation_iff backingId (generation backingId) g e.pageIndex]
    unfold restamp Ent.hash
    rw [if_pos hid]
    rw [hid]
  constructor
  · rintro hhashed ⟨e, he, hid, hkeep⟩
    obtain ⟨b, hb, hmem⟩ := mem_ents.mp he
    have hin : e.restamp backingId g ∈ t' b := by
      rw [ht b hb]
      exact mem_leftOf.mpr ⟨e, hmem, (hstays e hid).mpr hkeep, rfl⟩
    exact (hhash b hb e hmem hid).mp (hhashed b hb _ hin)
  · intro hsame b hb e' he'
    rw [ht b hb] at he'
    obtain ⟨e, he, hkeep, rfl⟩ := mem_leftOf.mp he'
    by_cases hid : e.backingId = backingId
    · exact (hhash b hb e he hid).mpr
        (hsame ⟨e, mem_ents.mpr ⟨b, hb, he⟩, hid, (hstays e hid).mp hkeep⟩)
    · unfold restamp
      rw [if_neg hid]
      exact h.hashed b hb e he

/-- The file changes, and all entries that stay are in their buckets. -/
theorem Consistent.invalidate
    (hrefs : ∀ pa, (∀ e ∈ ents t, e.stays backingId refs = false → e.pa ≠ pa) → refs' pa = refs pa)
    (hhashed : Hashed t') : Consistent t' refs' (update generation backingId g) held := by
  have hents := ents_leftOf refs ht
  -- entries that stay do not share their frames with entries that are dropped
  have hkept : ∀ e ∈ ents t, e.stays backingId refs = true → refs' e.pa = refs e.pa := by
    intro e he hstays
    refine hrefs e.pa fun e' he' hdrop hsame => ?_
    have heq := inj_on_of_nodup_map h.frames he' he hsame
    rw [heq, hstays] at hdrop
    cases hdrop
  refine ⟨hhashed, fun e' he' => ?_, fun e' he' => ?_, ?_, ?_, fun e' he' => ?_, fun hold hh => ?_⟩
  · rw [hents] at he'
    obtain ⟨e, he, _, rfl⟩ := mem_leftOf.mp he'
    by_cases hid : e.backingId = backingId
    · unfold restamp
      rw [if_pos hid]
      rw [hid, update_self]
    · unfold restamp
      rw [if_neg hid, update_of_ne hid]
      exact h.live e he
  · rw [hents] at he'
    obtain ⟨e, he, _, rfl⟩ := mem_leftOf.mp he'
    rw [(restamp_fields backingId g e).1]
    exact h.named e he
  · rw [hents]
    refine nodup_leftOf Ent.key (fun e => ?_) h.keys
    obtain ⟨hid, hpage, _⟩ := restamp_fields backingId g e
    exact Prod.ext hid hpage
  · rw [hents]
    exact nodup_leftOf Ent.pa (fun e => (restamp_fields backingId g e).2.2) h.frames
  · rw [hents] at he'
    obtain ⟨e, he, hstays, rfl⟩ := mem_leftOf.mp he'
    rw [(restamp_fields backingId g e).2.2, hkept e he hstays]
    exact h.counted e he
  · obtain ⟨e, he, hkey, hpa⟩ := h.held hold hh
    have hcount := h.shared he hh hpa
    have hstays : e.stays backingId refs = true := by
      have hne : refs e.pa ≠ 1 := by omega
      unfold stays
      simp [hne]
    obtain ⟨hid, hpage, hframe⟩ := restamp_fields backingId g e
    refine ⟨e.restamp backingId g, ?_, ?_, hframe.trans hpa⟩
    · rw [hents]
      exact mem_leftOf.mpr ⟨e, he, hstays, rfl⟩
    · rw [← hkey]
      exact Prod.ext hid hpage

end

/-! ## Runs -/

variable {s : State}

theorem unique_of_keys (h : ((ents t).map Ent.key).Nodup) :
    ((ents t).filter (Ent.has backingId g pageIndex)).length ≤ 1 := by
  have hnodup := h.sublist ((filter_sublist (p := Ent.has backingId g pageIndex)).map Ent.key)
  have hhas := fun e (he : e ∈ (ents t).filter (Ent.has backingId g pageIndex)) =>
    has_iff.mp (mem_filter.mp he).2
  generalize (ents t).filter (Ent.has backingId g pageIndex) = l at hnodup hhas
  have hsame : l.map Ent.key = List.replicate l.length (backingId, pageIndex) := by
    refine eq_replicate_iff.mpr ⟨length_map _, fun k hk => ?_⟩
    obtain ⟨e, he, rfl⟩ := mem_map.mp hk
    obtain ⟨hid, _, hpage⟩ := hhas e he
    exact Prod.ext hid hpage
  rw [hsame] at hnodup
  exact nodup_replicate.mp hnodup

theorem State.Consistent.coherent (h : s.Consistent)
    (ha : ∀ a ∈ s.answers, a.result = some a.held) :
    Coherent s :=
  ⟨h.hashed, fun _ _ => unique_of_keys h.keys, ha⟩

theorem step_get (hs : s.Consistent) (hco : Coherent s) (f : File) (fileOff : Word) (env : Env)
    (hvalid : Valid s (.get f fileOff env)) :
    (s.step (.get f fileOff env)).Consistent ∧ Coherent (s.step (.get f fileOff env)) := by
  obtain ⟨c, r, heq, hc, hanswer⟩ := pagecacheGet_spec hs f fileOff env hvalid.1 hvalid.2
  have hcons : (s.step (.get f fileOff env)).Consistent := by
    unfold State.Consistent State.step
    dsimp only
    rw [heq]
    cases r <;> exact hc
  refine ⟨hcons, hcons.coherent fun a ha => ?_⟩
  unfold State.step at ha
  dsimp only at ha
  rw [heq] at ha
  rcases mem_append.mp ha with hnew | hold
  · obtain ⟨h, hh, rfl⟩ := mem_map.mp hnew
    obtain ⟨hmem, hon⟩ := mem_filter.mp hh
    exact hanswer h hmem hon
  · exact hco.answers a hold

theorem step_release (hs : s.Consistent) (hco : Coherent s) (i : Nat) :
    (s.step (.release i)).Consistent ∧ Coherent (s.step (.release i)) := by
  unfold State.step
  dsimp only
  cases hi : s.held[i]? with
  | none => exact ⟨hs, hco⟩
  | some h =>
    have hcons := Consistent.release hs hi
    exact ⟨hcons, hcons.hashed, fun _ _ => unique_of_keys hcons.keys, hco.answers⟩

theorem step_invalidate (hs : s.Consistent) (hco : Coherent s) (backingId g : Word)
    {op : Op} (hop : .invalidate backingId g = op) (hvalid : Valid s op) :
    (Coherent (s.step op) ↔ SameBuckets s op) ∧ (SameBuckets s op → (s.step op).Consistent) := by
  subst hop
  by_cases hid : backingId = 0
  · -- no file has this identity
    subst hid
    have hnone : ¬ Keeps s 0 := fun ⟨e, he, hzero, _⟩ => hs.named e he hzero
    have hsame : pagecacheInvalidate s.cache 0 g = s.cache := by
      unfold pagecacheInvalidate
      rw [if_pos rfl]
    have hcons : (s.step (.invalidate 0 g)).Consistent := by
      unfold State.step State.Consistent
      dsimp only
      rw [hsame]
      refine { hs with live := fun e he => ?_ }
      rw [update_of_ne (hs.named e he)]
      exact hs.live e he
    exact ⟨iff_of_true (hcons.coherent hco.answers) fun h => absurd h hnone, fun _ => hcons⟩
  · have hnew : g ≠ 0 := by
      rintro rfl
      exact absurd hvalid (BitVec.not_lt_zero)
    obtain ⟨ht, hrefs⟩ := pagecacheInvalidate_spec hid hnew s.cache hs.frames
    have hiff := hashed_leftOf_iff hs ht
    have hcons : SameBuckets s (.invalidate backingId g) →
      (s.step (.invalidate backingId g)).Consistent :=
      fun hsame => Consistent.invalidate hs ht hrefs (hiff.mpr hsame)
    exact ⟨⟨fun h => hiff.mp h.hashed, fun hsame => (hcons hsame).coherent hco.answers⟩, hcons⟩

/-- **The cache is coherent in all states of a run, if and only if the files whose entries stay in
the cache keep their buckets.** -/
theorem coherent_iff (s : State) (ops : List Op) (hs : s.Consistent) (hco : Coherent s)
    (hvalid : RunMeets State.step Valid s ops) :
    (∀ pre post, ops = pre ++ post → Coherent (s.exec pre)) ↔
    RunMeets State.step SameBuckets s ops := by
  refine run_good_iff (fun s op hs hco hvalid => ?_) hs hco hvalid
  cases op with
  | get f fileOff env =>
    obtain ⟨hs', hco'⟩ := step_get hs hco f fileOff env hvalid
    exact ⟨iff_of_true hco' trivial, fun _ => hs'⟩
  | release i =>
    obtain ⟨hs', hco'⟩ := step_release hs hco i
    exact ⟨iff_of_true hco' trivial, fun _ => hs'⟩
  | invalidate backingId g => exact step_invalidate hs hco backingId g rfl hvalid

/-! ## A file that changes while it is mapped -/

/-- An empty cache; all files are at generation 1. -/
def fresh : State := ⟨⟨fun _ => [], 0, 0, fun _ => 0⟩, fun _ => 1, [], []⟩

def shared : File := ⟨5, false⟩

/-- The first page of the file is mapped; `pa` is a free frame. -/
def fault (pa : Nat) : Op := .get shared 0 ⟨some pa, true, true⟩

/-- The file is mapped, changes, and is mapped again. -/
def changed (g : Word) : List Op := [fault 0x1000, .invalidate 5 g, fault 0x2000]

theorem ents_fresh : ents fresh.cache.bucket = [] := by decide +kernel

theorem consistent_fresh : fresh.Consistent := by
  have hnone : ∀ e, e ∉ ents fresh.cache.bucket := fun e he => by
    rw [ents_fresh] at he
    cases he
  have hnodup : ∀ {β : Type} (f : Ent → β), ((ents fresh.cache.bucket).map f).Nodup := fun f => by
    rw [ents_fresh]
    exact nodup_nil
  exact ⟨nofun, fun e he => absurd he (hnone e), fun e he => absurd he (hnone e),
    hnodup _, hnodup _, fun e he => absurd he (hnone e), nofun⟩

theorem changed_valid : RunMeets State.step Valid fresh (changed 513) := by
  unfold changed
  rw [runMeets_cons, runMeets_cons, runMeets_cons]
  refine ⟨⟨fun _ _ => rfl, by decide +kernel⟩,
    show (1 : Word) < 513 by decide, ⟨fun pa hpa => ?_, by decide +kernel⟩, runMeets_nil _⟩
  obtain rfl : 0x2000 = pa := Option.some.inj hpa
  decide +kernel

/-- A change by 512 generations keeps the bucket. -/
theorem coherent_changed : Coherent (fresh.exec (changed 513)) := by
  refine (coherent_iff fresh (changed 513) consistent_fresh (consistent_fresh.coherent nofun)
    changed_valid).mpr ?_ _ [] (append_nil _).symm
  unfold changed
  rw [runMeets_cons, runMeets_cons, runMeets_cons]
  exact ⟨trivial, fun _ => by decide, trivial, runMeets_nil _⟩

/-- **A file that changes while it is mapped is mapped again with another frame.** -/
theorem changed_other_frame : (fresh.exec (changed 2)).answers = [⟨0x1000, some 0x2000⟩] := by
  decide +kernel

end AxonOS.PageCache

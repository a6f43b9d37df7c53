import AxonOS.Process.Fds
import AxonOS.Lib.Run

/-! # Copies of the descriptor table

Reference counts always add up (`Sound`). A thread's copy agrees with the table of its process as
long as no call clears or replaces a descriptor that another thread's copy still has (`Safe`), and
not longer.
-/

namespace AxonOS.Process

open Lib List Function

/-! ## Properties -/

/-- As many references may be held elsewhere as leave room in an `int` for those of the descriptors
and one more. -/
def HELD_LIMIT : Int := 2 ^ 31 - 1 - THREAD_MAX_FD

/-- Who passes a file to `thread_fd_alloc`, or releases it, has a reference to it; a reference is
taken of a file that has one, and not more than an `int` can count. -/
def Legal (s : FdState) : FdOp → Prop
  | .alloc _ f => 1 ≤ s.held f
  | .get f => 1 ≤ s.refcount f ∧ s.held f + 1 < HELD_LIMIT
  | .put f => 1 ≤ s.held f
  | _ => True

/-- The descriptors of the process that refer to a file. -/
def FdState.slots (s : FdState) (f : Nat) : Nat :=
  (List.range THREAD_MAX_FD).countP fun i => s.fds i = some f

/-- Reference counts add up, and a file is freed with its last reference. -/
structure Sound (s : FdState) : Prop where
  held : ∀ f, 0 ≤ s.held f ∧ s.held f < HELD_LIMIT
  counts : ∀ f, s.refcount f = s.slots f + s.held f
  freed : ∀ f, s.freed f = true → s.refcount f = 0

/-- Every entry of every copy is the entry of the table. -/
def Mirrors (s : FdState) : Prop :=
  ∀ t i f, i < THREAD_MAX_FD → s.mirror t i = some f → s.fds i = some f

/-- A call does not clear or replace a descriptor that another thread has in its copy. -/
def Safe (s : FdState) : FdOp → Prop
  | .close t fd => ∀ t' f, t' ≠ t → fd < THREAD_MAX_FD → s.fds fd = some f → s.mirror t' fd = none
  | .dup2 t oldfd newfd => ∀ t' f, t' ≠ t → oldfd < THREAD_MAX_FD → newfd < THREAD_MAX_FD →
      oldfd ≠ newfd → s.fds oldfd = some f → s.mirror t' newfd = none ∨ s.mirror t' newfd = some f
  | _ => True

/-! ## Counting -/

section Counting

variable {s : FdState} {i f : Nat}

theorem slots_set (hi : i < THREAD_MAX_FD) (s' : FdState) {v : Option Nat}
    (hs : s'.fds = update s.fds i v) (f : Nat) :
    s'.slots f + (decide (s.fds i = some f)).toNat = s.slots f + (decide (v = some f)).toNat := by
  have hcount := countP_range_change
    (q := fun k => decide (s'.fds k = some f)) hi fun k hk => by rw [hs, update_of_ne hk]
  have hnew : s'.fds i = v := by rw [hs, update_self]
  rw [hnew] at hcount
  exact hcount

theorem slots_congr {s' : FdState} (hs : s'.fds = s.fds) (f : Nat) : s'.slots f = s.slots f := by
  unfold FdState.slots
  rw [hs]

/-- One more reference does not overflow the count. -/
theorem Sound.refcount_lt (h : Sound s) (f : Nat) : s.refcount f + 1 < 2 ^ 31 := by
  have hslots : s.slots f ≤ THREAD_MAX_FD := countP_le_length.trans_eq length_range
  have hcount := h.counts f
  have hheld := (h.held f).2
  unfold HELD_LIMIT at hheld
  omega

theorem Sound.refcount_pos (h : Sound s) (hi : i < THREAD_MAX_FD) (hf : s.fds i = some f) :
    1 ≤ s.refcount f := by
  have hslot : 0 < s.slots f :=
    countP_pos_iff.mpr ⟨i, mem_range.mpr hi, by simpa using hf⟩
  have hcount := h.counts f
  have hheld := (h.held f).1
  omega

theorem Sound.not_freed (h : Sound s) (hi : i < THREAD_MAX_FD) (hf : s.fds i = some f) :
    s.freed f = false := by
  have hpos := h.refcount_pos hi hf
  by_contra hfreed
  rw [Bool.not_eq_false] at hfreed
  have := h.freed f hfreed
  omega

theorem Sound.two_le_refcount (h : Sound s) {j : Nat} (hi : i < THREAD_MAX_FD)
    (hj : j < THREAD_MAX_FD) (hij : i ≠ j) (hfi : s.fds i = some f) (hfj : s.fds j = some f) :
    2 ≤ s.refcount f := by
  -- without the descriptor `i`, there is still `j`
  let s' : FdState := { s with fds := update s.fds i none }
  have hcount := slots_set hi s' rfl f
  have hslot : 0 < s'.slots f := by
    refine countP_pos_iff.mpr ⟨j, mem_range.mpr hj, ?_⟩
    rw [decide_eq_true_iff]
    exact (update_of_ne (Ne.symm hij) none s.fds).trans hfj
  have hsum := h.counts f
  have hheld := (h.held f).1
  simp only [hfi, decide_true, Bool.toNat_true, reduceCtorEq, decide_false,
    Bool.toNat_false] at hcount
  omega

end Counting

section Calls

variable {s : FdState}

variable {s' : FdState} {f i t : Nat} {v : Option Nat}

theorem Same.sound (h : Same s s') (hs : Sound s) : Sound s' where
  held f := by
    rw [h.held]
    exact hs.held f
  counts f := by
    rw [h.refcount, h.held, slots_congr h.fds]
    exact hs.counts f
  freed f hf := by
    rw [h.freed] at hf
    rw [h.refcount]
    exact hs.freed f hf

/-! ## Reference counts -/

/-- One descriptor is written and the counts change with it. -/
theorem Wrote.sound (hw : Wrote s s' t i v) (h : Sound s)
    (hheld : ∀ f, 0 ≤ s'.held f ∧ s'.held f < HELD_LIMIT)
    (hcounts : ∀ f, s'.refcount f + (decide (s.fds i = some f)).toNat + s.held f
      = s.refcount f + (decide (v = some f)).toNat + s'.held f)
    (hfreed : ∀ f, s'.freed f = true → s'.refcount f = 0) : Sound s' where
  held := hheld
  counts f := by
    have hslots := slots_set hw.lt s' hw.fds f
    have hold := h.counts f
    have hnew := hcounts f
    omega
  freed := hfreed

theorem update_succ (r : Nat → Int) (f g : Nat) :
    update r f (r f + 1) g = r g + (decide (some f = some g)).toNat := by
  by_cases hg : g = f
  · subst hg
    simp
  · simp [update_of_ne hg, Ne.symm hg]

theorem update_pred (r : Nat → Int) (f g : Nat) :
    update r f (r f - 1) g + (decide (some f = some g)).toNat = r g := by
  by_cases hg : g = f
  · subst hg
    simp
  · simp [update_of_ne hg, Ne.symm hg]

theorem take_refcount (h : 1 ≤ s.refcount f) (hhi : s.refcount f + 1 < 2 ^ 31) :
    (s.take f).refcount = update s.refcount f (s.refcount f + 1) := by
  simp only [FdState.take]
  rw [if_neg (by omega), int32_eq (by omega) hhi]

section

variable (h : Sound s)

include h

theorem sound_alloc (t : Nat) (hf : 1 ≤ s.held f) : Sound (s.threadFdAlloc t f).1 := by
  have hpos : 1 ≤ s.refcount f := by
    have := h.counts f
    omega
  rcases alloc_cases s t f with hsame | ⟨i, hnone, hw, href, hfreed, hheld⟩
  · exact hsame.sound h
  refine hw.sound h (fun g => ?_) (fun g => ?_) fun g hg => ?_
  · rw [hheld]
    by_cases hg : g = f
    · subst hg
      have hold := h.held g
      rw [update_self]
      omega
    · rw [update_of_ne hg]
      exact h.held g
  · have := update_pred s.held f g
    rw [hheld, href hpos, hnone, decide_eq_false nofun, Bool.toNat_false]
    omega
  · rw [href hpos]
    exact h.freed g (hfreed ▸ hg)

omit h in
/-- A file that has lost a reference is freed if it was the last one. -/
theorem freed_after (hold : ∀ g, s.freed g = true → s.refcount g = 0) (hpos : 1 ≤ s.refcount f)
    (hhi : s.refcount f < 2 ^ 31) {g : Nat} (hg : (s.fsFileFree f).freed g = true) :
    (s.fsFileFree f).refcount g = 0 := by
  obtain ⟨href, hfreed⟩ := fsFileFree_refcount s f hpos hhi
  rw [href]
  by_cases hgf : g = f
  · subst hgf
    rw [update_self]
    rcases hfreed g hg with hgone | ⟨_, hone⟩
    · have := hold g hgone
      omega
    · omega
  · rw [update_of_ne hgf]
    rcases hfreed g hg with hgone | ⟨heq, _⟩
    · exact hold g hgone
    · exact absurd heq hgf

theorem sound_close (t fd : Nat) : Sound (s.threadFdCloseFor t fd).1 := by
  rcases close_cases s t fd with ⟨hsame, _⟩ | ⟨f, s1, hf, hw, href, hfreed, hheld, hs'⟩
  · exact hsame.sound h
  have hpos := h.refcount_pos hw.lt hf
  rw [hs']
  have hw' : Wrote s (s1.fsFileFree f) t fd none :=
    ⟨hw.lt, (fsFileFree_fds s1 f).trans hw.fds, (fsFileFree_mirror s1 f).trans hw.mirror⟩
  have hhi : s1.refcount f < 2 ^ 31 := by
    have := h.refcount_lt f
    rw [href]
    omega
  rw [← href] at hpos
  refine hw'.sound h (fun g => ?_) (fun g => ?_) fun g => freed_after (fun g hg => ?_) hpos hhi
  · rw [fsFileFree_held, hheld]
    exact h.held g
  · rw [(fsFileFree_refcount s1 f hpos hhi).1, fsFileFree_held, hheld, hf, update_pred, href,
      decide_eq_false nofun, Bool.toNat_false, Nat.cast_zero, add_zero]
  · rw [href]
    exact h.freed g (hfreed ▸ hg)

theorem sound_dup (t oldfd : Nat) : Sound (s.threadFdDup t oldfd).1 := by
  rcases dup_cases s t oldfd with hsame | ⟨f, i, hlt, hf, hnone, hw, href, hfreed, hheld⟩
  · exact hsame.sound h
  have hpos := h.refcount_pos hlt hf
  rw [take_refcount hpos (h.refcount_lt f)] at href
  refine hw.sound h (fun g => ?_) (fun g => ?_) fun g hg => ?_
  · rw [hheld]
    exact h.held g
  · rw [hheld, href, hnone, update_succ]
    simp
  · have hzero := h.freed g (hfreed ▸ hg)
    have hgf : g ≠ f := by
      rintro rfl
      omega
    rw [href, update_of_ne hgf]
    exact hzero

/-- What `thread_fd_dup2` makes of the counts, also where both descriptors refer to the same
file. -/
theorem release_take {oldfd newfd : Nat} (hold : oldfd < THREAD_MAX_FD)
    (hnew : newfd < THREAD_MAX_FD) (hne : oldfd ≠ newfd) (hf : s.fds oldfd = some f) (g : Nat) :
    ((s.release (s.fds newfd)).take f).refcount g + (decide (s.fds newfd = some g)).toNat
        = s.refcount g + (decide (some f = some g)).toNat
        ∧ ((s.release (s.fds newfd)).freed g = true →
        ((s.release (s.fds newfd)).take f).refcount g = 0) := by
  have hpos := h.refcount_pos hold hf
  cases hr : s.fds newfd with
  | none =>
    simp only [FdState.release, take_refcount hpos (h.refcount_lt f)]
    refine ⟨by simp [update_succ], fun hfreed => ?_⟩
    have hzero := h.freed g hfreed
    have hgf : g ≠ f := by
      rintro rfl
      omega
    rw [update_of_ne hgf, hzero]
  | some r =>
    have hrpos := h.refcount_pos hnew hr
    have hrhi := h.refcount_lt r
    have hfhi := h.refcount_lt f
    obtain ⟨hcount, hfree⟩ := fsFileFree_refcount s r hrpos (by omega)
    -- the new file still has a reference when it is taken
    have hstill : 1 ≤ (s.fsFileFree r).refcount f := by
      rw [hcount]
      by_cases hfr : f = r
      · subst hfr
        have := h.two_le_refcount hold hnew hne hf hr
        rw [update_self]
        omega
      · rw [update_of_ne hfr]
        exact hpos
    have hroom : (s.fsFileFree r).refcount f + 1 < 2 ^ 31 := by
      have := update_pred s.refcount r f
      rw [hcount]
      omega
    have hzero : (s.fsFileFree r).freed g = true → (s.fsFileFree r).refcount g = 0 :=
      freed_after h.freed hrpos (by omega)
    simp only [FdState.release]
    rw [take_refcount hstill hroom]
    constructor
    · have := update_pred s.refcount r g
      rw [update_succ, hcount]
      omega
    · intro hfreed
      have hgf : g ≠ f := by
        rintro rfl
        have := hzero hfreed
        omega
      rw [update_of_ne hgf]
      exact hzero hfreed

theorem sound_dup2 (t oldfd newfd : Nat) : Sound (s.threadFdDup2 t oldfd newfd).1 := by
  rcases dup2_cases s t oldfd newfd rfl with ⟨hsame, _⟩ | ⟨f, hlt, hne, hf, hw, href, hfreed, hheld⟩
  · exact hsame.sound h
  have hcount := release_take h hlt hw.lt hne hf
  refine hw.sound h (fun g => ?_) (fun g => ?_) fun g hg => ?_
  · rw [hheld]
    exact h.held g
  · have := (hcount g).1
    rw [hheld, href]
    omega
  · rw [href]
    rw [hfreed] at hg
    exact (hcount g).2 hg

theorem sound_get (hf : 1 ≤ s.refcount f) (hroom : s.held f + 1 < HELD_LIMIT) :
    Sound (s.step (.get f)) where
  held g := by
    have hold := h.held g
    simp only [FdState.step, update_succ]
    by_cases hg : f = g
    · subst hg
      simp only [decide_true, Bool.toNat_true]
      omega
    · simp only [Option.some.injEq, hg, decide_false, Bool.toNat_false]
      omega
  counts g := by
    have := h.counts g
    change update s.refcount f (int32 _) g = s.slots g + update s.held f _ g
    rw [int32_eq (by omega) (h.refcount_lt f), update_succ, update_succ]
    omega
  freed g hg := by
    have hzero := h.freed g hg
    have hgf : g ≠ f := by
      rintro rfl
      omega
    simpa only [FdState.step, update_of_ne hgf] using hzero

theorem sound_put (hf : 1 ≤ s.held f) : Sound (s.step (.put f)) := by
  have hpos : 1 ≤ s.refcount f := by
    have := h.counts f
    omega
  have hhi := h.refcount_lt f
  have hcount := (fsFileFree_refcount s f hpos (by omega)).1
  constructor
  · intro g
    have := h.held g
    by_cases hg : g = f
    · subst hg
      simp only [FdState.step, update_self]
      omega
    · simpa only [FdState.step, update_of_ne hg] using this
  · intro g
    have := h.counts g
    change (s.fsFileFree f).refcount g = (s.fsFileFree f).slots g + update s.held f _ g
    have href := update_pred s.refcount f g
    have hheld := update_pred s.held f g
    rw [hcount, slots_congr (fsFileFree_fds s f)]
    omega
  · exact fun g hg => freed_after h.freed hpos (by omega) hg

end

theorem sound_step (op : FdOp) (h : Sound s) (hlegal : Legal s op) : Sound (s.step op) := by
  cases op with
  | alloc t f => exact sound_alloc h t hlegal
  | close t fd => exact sound_close h t fd
  | dup t oldfd => exact sound_dup h t oldfd
  | dup2 t oldfd newfd => exact sound_dup2 h t oldfd newfd
  | get f => exact sound_get h hlegal.1 hlegal.2
  | put f => exact sound_put h hlegal

/-! ## Copies -/

/-- A written descriptor agrees with all copies if and only if the other threads' copies have
nothing else there. -/
theorem Wrote.mirrors_iff (hw : Wrote s s' t i v) (h : Mirrors s) :
    Mirrors s' ↔ ∀ t', t' ≠ t → ∀ f, s.mirror t' i = some f → v = some f := by
  constructor
  · intro h' t' ht' f hf
    have hkeep : s'.mirror t' i = some f := by rw [hw.mirror, update_of_ne ht', hf]
    have := h' t' i f hw.lt hkeep
    rwa [hw.fds, update_self] at this
  · intro hothers x k f hk hx
    rw [hw.mirror] at hx
    rw [hw.fds]
    by_cases hki : k = i
    · subst hki
      rw [update_self]
      by_cases hxt : x = t
      · subst hxt
        rwa [update_self, update_self] at hx
      · rw [update_of_ne hxt] at hx
        exact hothers x hxt f hx
    · rw [update_of_ne hki]
      refine h x k f hk ?_
      by_cases hxt : x = t
      · subst hxt
        rwa [update_self, update_of_ne hki] at hx
      · rwa [update_of_ne hxt] at hx

theorem Same.mirrors (hs : Same s s') (h : Mirrors s) : Mirrors s' := by
  unfold Mirrors
  rw [hs.fds, hs.mirror]
  exact h

theorem Wrote.mirrors_of_free (hw : Wrote s s' t i v) (h : Mirrors s) (hfree : s.fds i = none) :
    Mirrors s' := by
  refine (hw.mirrors_iff h).mpr fun t' _ f hf => ?_
  have := h t' i f hw.lt hf
  rw [hfree] at this
  cases this

/-- **Exactly the safe calls keep the copies.** -/
theorem mirrors_step_iff (op : FdOp) (h : Mirrors s) : Mirrors (s.step op) ↔ Safe s op := by
  cases op with
  | alloc t f =>
    refine iff_of_true ?_ trivial
    rcases alloc_cases s t f with hsame | ⟨i, hnone, hw, _⟩
    · exact hsame.mirrors h
    · exact hw.mirrors_of_free h hnone
  | close t fd =>
    rcases close_cases s t fd with ⟨hsame, hnot⟩ | ⟨f, s1, hf, hw, _, _, _, hs'⟩
    · refine iff_of_true (hsame.mirrors h) fun t' f _ hlt hf => absurd ⟨hlt, f, hf⟩ hnot
    have hw' : Wrote s (s.step (.close t fd)) t fd none := by
      refine ⟨hw.lt, ?_, ?_⟩ <;> simp only [FdState.step, hs', fsFileFree_fds, fsFileFree_mirror]
      · exact hw.fds
      · exact hw.mirror
    rw [hw'.mirrors_iff h]
    constructor
    · intro hothers t' f' ht' _ _
      cases hm : s.mirror t' fd with
      | none => rfl
      | some g => exact nomatch hothers t' ht' g hm
    · intro hsafe t' ht' g hm
      rw [hsafe t' f ht' hw.lt hf] at hm
      cases hm
  | dup t oldfd =>
    refine iff_of_true ?_ trivial
    rcases dup_cases s t oldfd with hsame | ⟨f, i, _, _, hnone, hw, _⟩
    · exact hsame.mirrors h
    · exact hw.mirrors_of_free h hnone
  | dup2 t oldfd newfd =>
    rcases dup2_cases s t oldfd newfd rfl with ⟨hsame, hnot⟩ | ⟨f, hlt, hne, hf, hw, _⟩
    · exact iff_of_true (hsame.mirrors h) fun t' f _ h1 h2 h3 hf => absurd ⟨h1, h2, h3, f, hf⟩ hnot
    refine (hw.mirrors_iff h).trans ?_
    constructor
    · intro hothers t' f' ht' _ _ _ hf'
      obtain rfl := Option.some.inj (hf.symm.trans hf')
      cases hm : s.mirror t' newfd with
      | none => exact .inl rfl
      | some g => exact .inr (hothers t' ht' g hm).symm
    · intro hsafe t' ht' g hm
      rcases hsafe t' f ht' hlt hw.lt hne hf with hnone | hsome
      · rw [hnone] at hm
        cases hm
      · exact hsome.symm.trans hm
  | get f => exact iff_of_true h trivial
  | put f =>
    refine iff_of_true ?_ trivial
    intro x i g hi hx
    simp only [FdState.step, fsFileFree_mirror, fsFileFree_fds] at hx ⊢
    exact h x i g hi hx

end Calls

/-! ## Runs -/

def FdState.exec (s : FdState) (ops : List FdOp) : FdState := ops.foldl FdState.step s

/-- Copies agree with the table, counts add up, and what a copy refers to is an open file. -/
structure Coherent (s : FdState) : Prop where
  mirrors : Mirrors s
  counts : ∀ f, s.refcount f = s.slots f + s.held f
  live : ∀ t i f, i < THREAD_MAX_FD → s.mirror t i = some f → s.freed f = false

theorem coherent_iff_mirrors {s : FdState} (h : Sound s) : Coherent s ↔ Mirrors s :=
  ⟨Coherent.mirrors, fun hm =>
    ⟨hm, h.counts, fun t i f hi hf => h.not_freed hi (hm t i f hi hf)⟩⟩

/-- **The copies are never stale, if and only if every call is safe**: over all states of a run of
legal calls, from any state in which all is well. -/
theorem fd_mirrors_iff (s : FdState) (ops : List FdOp) (hs : Sound s) (hm : Mirrors s)
    (hlegal : RunMeets FdState.step Legal s ops) :
    (∀ pre post, ops = pre ++ post → Coherent (s.exec pre)) ↔ RunMeets FdState.step Safe s ops := by
  refine run_good_iff (fun s op hs hgood hop => ?_) hs ((coherent_iff_mirrors hs).mpr hm) hlegal
  have hstep := sound_step op hs hop
  exact ⟨(coherent_iff_mirrors hstep).trans (mirrors_step_iff op hgood.mirrors), fun _ => hstep⟩

/-- Two threads without descriptors, and the files 5 and 6, which whoever has opened them holds. -/
def twoFiles : FdState where
  fds _ := none
  fdCloexec _ := false
  rlimNofileCur := 1024
  mirror _ _ := none
  limited _ := true
  refcount f := if f = 5 ∨ f = 6 then 1 else 0
  freed _ := false
  limitAccounted _ := false
  fileLimitCount := 0
  fileLimitMax := 100
  held f := if f = 5 ∨ f = 6 then 1 else 0

theorem sound_twoFiles : Sound twoFiles := by
  refine ⟨fun f => ?_, fun f => ?_, fun f hf => Bool.noConfusion hf⟩
  · simp only [twoFiles]
    split <;> decide
  · simp [twoFiles, FdState.slots]

/-- Each thread opens a file; thread 1 duplicates its descriptor, and each closes what it has
opened. -/
def ownFiles : List FdOp := [.alloc 1 5, .alloc 2 6, .dup 1 0, .close 2 1, .close 1 0, .close 1 2]

theorem coherent_ownFiles :
      Coherent (twoFiles.exec ownFiles) ∧ (twoFiles.exec ownFiles).freed 5 = true
      ∧ (twoFiles.exec ownFiles).freed 6 = true := by
  have hm : Mirrors twoFiles := nofun
  have hlegal : RunMeets FdState.step Legal twoFiles ownFiles := by
    unfold ownFiles
    repeat rw [runMeets_cons]
    exact ⟨Int.le_refl 1, Int.le_refl 1, trivial, trivial, trivial, trivial, runMeets_nil _⟩
  have hsafe : RunMeets FdState.step Safe twoFiles ownFiles := by
    unfold ownFiles
    repeat rw [runMeets_cons]
    -- a descriptor is only in the copy of the thread that has opened it
    refine ⟨trivial, trivial, trivial, fun t' f ht' _ _ => ?_, fun t' f ht' _ _ => ?_,
      fun t' f ht' _ _ => ?_, runMeets_nil _⟩
    · change update (update (update twoFiles.mirror 1 _) 2 _) 1 _ t' 1 = none
      by_cases h1 : t' = 1
      · rw [h1]
        decide
      · rw [update_of_ne h1, update_of_ne ht', update_of_ne h1]
        rfl
    · change update (update (update (update twoFiles.mirror 1 _) 2 _) 1 _) 2 _ t' 0 = none
      by_cases h2 : t' = 2
      · rw [h2]
        decide
      · rw [update_of_ne h2, update_of_ne ht', update_of_ne h2, update_of_ne ht']
        rfl
    · change update (update (update (update (update twoFiles.mirror 1 _) 2 _) 1 _) 2 _) 1 _ t' 2
        = none
      by_cases h2 : t' = 2
      · rw [h2]
        decide
      · rw [update_of_ne ht', update_of_ne h2, update_of_ne ht', update_of_ne h2, update_of_ne ht']
        rfl
  exact ⟨(fd_mirrors_iff _ _ sound_twoFiles hm hlegal).mpr hsafe _ []
    (by simp), by decide, by decide⟩

/-- Thread 1 opens the file and thread 2 closes the descriptor: thread 1 still has it in its copy,
and the file is gone. -/
theorem closed_by_sibling : (twoFiles.exec [.alloc 1 5, .close 2 0]).fds 0 = none
      ∧ (twoFiles.exec [.alloc 1 5, .close 2 0]).mirror 1 0 = some 5
      ∧ (twoFiles.exec [.alloc 1 5, .close 2 0]).freed 5 = true := by
  decide

end AxonOS.Process

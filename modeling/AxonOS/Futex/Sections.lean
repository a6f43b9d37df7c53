import AxonOS.Futex.Wakeups

/-! # What each section does to the account

One specification for each section that runs under the lock: the waking loop, the requeueing loop,
the end of a wait, the start of a wait. Each one says that the queues and the owners stay consistent
and how the account goes on.
-/

namespace AxonOS.Futex

open List Option

/-! ## The waking loop -/

/-- What the waking loop over waiters of the node `n` does, with `woke` waiters counted before
it. -/
structure WakeSpec (s : FutexState) (n : NodeId) (bitset woke : Nat) (r : WakeResult) : Prop where
  queues : Queues r.state
  noEmpty : ∀ X, NoEmpty s X → NoEmpty r.state (insert n X)
  owners : Owners r.state
  keys : ∀ m, keyOf r.state m = keyOf s m
  threads : r.state.threads = s.threads
  touched : ∀ x, r.state.waiters x = s.waiters x
    ∨ ∃ wt, s.waiters x = some wt ∧ wt.node = some n ∧ wt.bitset &&& bitset ≠ 0
      ∧ r.state.waiters x = some { wt with node := none, woken := true }
  woke : r.woke = woke + r.marks.countP Mark.counted
  marks : ∀ mk ∈ r.marks, mk.futex = keyOf s n ∧ mk.bits &&& bitset ≠ 0 ∧ mk.counted = mk.alive
  ledger : ∀ c M R, Ledger s c M R → Ledger r.state c (M ++ r.marks) R

variable {w : WaiterId} {wt : Waiter} {woke : Nat} {r : WakeResult}

section Wake

variable {s : FutexState} {n : NodeId} {bitset : Nat}

theorem WakeSpec.stop (hq : Queues s) (ho : Owners s) (woke : Nat) :
    WakeSpec s n bitset woke ⟨woke, [], s⟩ where
  queues := hq
  noEmpty := fun X h => h.mono (Set.subset_insert n X)
  owners := ho
  keys := fun _ => rfl
  threads := rfl
  touched := fun _ => .inl rfl
  woke := by simp
  marks := by simp
  ledger := by
    intro c M R h
    rw [append_nil]
    exact h

theorem WakeSpec.mark (hq : Queues s) (ho : Owners s) (hw : s.waiters w = some wt)
    (hn : wt.node = some n) (hbits : wt.bitset &&& bitset ≠ 0)
    (h : WakeSpec (wakeWaiter s w wt) n bitset (if countsWaiter s w wt then woke + 1 else woke) r) :
    WakeSpec s n bitset woke { r with marks := markOf s w wt :: r.marks } := by
  have hk := wakeWaiter_spec hq hw
  have hopen : wt.woken = false := by
    refine Bool.eq_false_iff.mpr fun hwoken => ?_
    rw [(ho.woken w wt hw).mp hwoken] at hn
    cases hn
  refine ⟨h.queues, ?_, h.owners, ?_, h.threads.trans hk.threads, ?_, ?_, ?_, ?_⟩
  · intro X hne
    refine (h.noEmpty _ (hk.noEmpty X hne)).mono ?_
    intro m hm
    rcases hm with hm | hm | hm
    · exact .inl hm
    · exact .inr hm
    · have hm := mem_unique hn hm
      exact .inl hm.symm
  · intro m
    rw [h.keys, hk.keys]
  · intro x
    by_cases hx : x = w
    · -- the rest of the loop leaves the waiter alone: it is on no list any more
      subst hx
      refine .inr ⟨wt, hw, hn, hbits, ?_⟩
      rcases h.touched x with hsame | ⟨wt', hw', hn', -⟩
      · exact hsame.trans hk.self
      · rw [hk.self] at hw'
        rw [← some.inj hw'] at hn'
        cases hn'
    · have := h.touched x
      rw [hk.waiters x hx] at this
      exact this
  · rw [countP_cons, h.woke]
    have : (markOf s w wt).counted = countsWaiter s w wt := rfl
    rw [this]
    split <;> omega
  · intro mk hmk
    rcases mem_cons.mp hmk with rfl | hmk
    · refine ⟨?_, hbits, countsWaiter_eq_alive ho hw⟩
      simp [markOf, futexOf, hn, keyOf]
    · rw [← hk.keys]
      exact h.marks mk hmk
  · intro c M R hl
    have hstep := h.ledger c _ R (hk.ledger hw hopen (markOf s w wt) rfl hl)
    rwa [append_assoc, singleton_append] at hstep

theorem futexWakeLoop_spec (count bitset : Nat) (l : List WaiterId) (woke : Nat) (s : FutexState)
    (hq : Queues s) (ho : Owners s) (hl : ∀ w ∈ l, Names s w n) (hd : l.Nodup) :
    WakeSpec s n bitset woke (futexWakeLoop count bitset l woke s) := by
  induction l generalizing woke s with
  | nil => exact .stop hq ho woke
  | cons w rest ih =>
    obtain ⟨hnot, hrest⟩ := nodup_cons.mp hd
    have hskip := ih woke s hq ho (fun x hx => hl x (mem_cons_of_mem w hx)) hrest
    obtain ⟨wt, hw, hn⟩ := hl w mem_cons_self
    unfold futexWakeLoop
    split
    · rw [hw]
      dsimp only
      split
      next hbits =>
        have hk := wakeWaiter_spec hq hw
        refine .mark hq ho hw hn hbits (ih _ _ hk.queues (hk.owners hw ho) ?_ hrest)
        -- the rest of the list is still queued on the node
        intro x hx
        have hne : x ≠ w := fun h => hnot (h ▸ hx)
        obtain ⟨xt, hxt, hxn⟩ := hl x (mem_cons_of_mem w hx)
        exact ⟨xt, by rw [hk.waiters x hne, hxt], hxn⟩
      next => exact hskip
    · exact .stop hq ho woke

theorem futexWakeLocked_spec (hq : Queues s) (ho : Owners s) (n : NodeId) (count bitset : Nat) :
    WakeSpec s n bitset 0 (futexWakeLocked s (some n) count bitset) := by
  unfold futexWakeLocked
  rw [bind_some]
  cases hn : s.nodes n with
  | none => exact .stop hq ho 0
  | some nd =>
    refine futexWakeLoop_spec count bitset nd.waiters 0 s hq ho ?_ (hq.nodup n nd hn)
    intro w hw
    exact (hq.listed n w).mp ⟨nd, hn, hw⟩

end Wake

/-! ## The requeueing loop -/

section Requeue

variable {s : FutexState} {src dst : NodeId} {nd nd' : Node} {rest : List WaiterId}

/-- Moving the first waiter of `src` is unlinking it and queueing it again. -/
theorem pushWaiter_eq_unlink (hn : s.nodes src = some nd) (hl : nd.waiters = w :: rest)
    (hw : s.waiters w = some wt) (hnode : wt.node = some src) (hne : dst ≠ src)
    (hdst : s.nodes dst = some nd') :
    pushWaiter (s.setNode src (some { nd with waiters := rest })) dst w wt
      = pushWaiter (futexUnlinkWaiter s w) dst w { wt with node := none } := by
  have herase : nd.waiters.erase w = rest := by rw [hl, erase_cons_head]
  unfold futexUnlinkWaiter
  simp only [hw, hnode, hn, herase]
  unfold pushWaiter
  simp only [setWaiter_nodes, setNode_nodes, hne, if_false, hdst]
  simp only [FutexState.setNode, FutexState.setWaiter, FutexState.mk.injEq, true_and, and_true]
  funext k
  by_cases hk : k = w <;> simp [hk]

/-- What the requeueing loop does. -/
structure Requeued (s s' : FutexState) (src : NodeId) (moved : List WaiterId) : Prop where
  queues : Queues s'
  noEmpty : ∀ X, NoEmpty s X → NoEmpty s' (insert src X)
  moved : Moved s s' src moved

theorem Requeued.stop (hq : Queues s) : Requeued s s src [] :=
  ⟨hq, fun X h => h.mono (Set.subset_insert src X), .of_same rfl rfl rfl src⟩

/-- Moving one waiter; afterwards `dst` has one. -/
theorem requeue_one (hq : Queues s) (hn : s.nodes src = some nd) (hl : nd.waiters = w :: rest)
    (hw : s.waiters w = some wt) (hne : dst ≠ src) (hdst : s.nodes dst = some nd')
    (hs' : pushWaiter (s.setNode src (some { nd with waiters := rest })) dst w wt = s') :
    Requeued s s' src [w] ∧ (∀ X, NoEmpty s X → NoEmpty s' (insert src (X \ {dst})))
      ∧ ∃ nd', s'.nodes dst = some nd' := by
  subst hs'
  have hnode : wt.node = some src := by
    have hnames := (hq.listed src w).mp ⟨nd, hn, by rw [hl]; exact mem_cons_self⟩
    obtain ⟨wt', hw', hs⟩ := hnames
    have hw' := mem_unique hw hw'
    rwa [hw']
  have hu := unlinkWaiter_spec hq hw
  have hdst' : (futexUnlinkWaiter s w).nodes dst = some nd' := by
    rw [hu.others dst (by rw [hnode]; exact fun h => hne (some.inj h).symm), hdst]
  have hp := pushWaiter_spec hu.queues hdst' w { wt with node := none } hu.off
  rw [pushWaiter_eq_unlink hn hl hw hnode hne hdst]
  have hkeep : ∀ X, NoEmpty s X →
        NoEmpty (pushWaiter (futexUnlinkWaiter s w) dst w { wt with node := none })
        (insert src (X \ {dst})) := by
    intro X hX
    refine (hp.noEmpty _ (hu.noEmpty X hX)).mono ?_
    rintro m ⟨hm | hm, hmd⟩
    · exact .inr ⟨hm, hmd⟩
    · rw [hnode] at hm
      exact .inl (some.inj hm).symm
  refine ⟨⟨hp.queues, ?_, ⟨nodup_singleton w, ?_, ?_, ?_, ?_⟩⟩, hkeep, ⟨_, hp.node nd' hdst'⟩⟩
  · intro X hX
    exact (hkeep X hX).mono (Set.insert_subset_insert Set.sdiff_subset)
  · exact forall_mem_singleton.mpr ⟨wt, dst, hw, hnode, hne, hp.self⟩
  · intro x hx
    rw [mem_singleton] at hx
    rw [hp.waiters x hx, hu.waiters x hx]
  · exact hp.threads.trans hu.threads
  · exact hp.slots.trans hu.slots

theorem requeueLoop_spec (n : Nat) (s : FutexState) (hq : Queues s) (hne : dst ≠ src)
    (hdst : ∃ nd, s.nodes dst = some nd) : ∃ moved, Requeued s (requeueLoop src dst n s).2 src moved
      ∧ (requeueLoop src dst n s).1 = moved.length := by
  induction n generalizing s with
  | zero => exact ⟨[], .stop hq, rfl⟩
  | succ n ih =>
    unfold requeueLoop
    split
    · exact ⟨[], .stop hq, rfl⟩
    next nd hn =>
    split
    · exact ⟨[], .stop hq, rfl⟩
    next w rest hl =>
    split
    · exact ⟨[], .stop hq, rfl⟩
    next wt hw =>
    obtain ⟨nd', hnd'⟩ := hdst
    obtain ⟨hone, -, hdst'⟩ := requeue_one hq hn hl hw hne hnd' rfl
    obtain ⟨moved, hrest, hcount⟩ := ih _ hone.queues hdst'
    refine ⟨[w] ++ moved, ⟨hrest.queues, ?_, hone.moved.trans hrest.moved⟩, ?_⟩
    · intro X hX
      have := hrest.noEmpty _ (hone.noEmpty X hX)
      rwa [Set.insert_idem] at this
    · exact congrArg (· + 1) hcount

/-- When there is a waiter to move, the loop leaves `dst` with one. -/
theorem requeueLoop_noEmpty (n : Nat) (hn : n ≠ 0) (hq : Queues s) (hne : dst ≠ src)
    (hdst : ∃ nd, s.nodes dst = some nd) (hnd : s.nodes src = some nd) (hw : nd.waiters ≠ [])
    (X : Set NodeId) (hX : NoEmpty s X) : NoEmpty (requeueLoop src dst n s).2
    (insert src (X \ {dst})) := by
  cases n with
  | zero => exact absurd rfl hn
  | succ n =>
    cases hl : nd.waiters with
    | nil => exact absurd hl hw
    | cons w rest =>
      obtain ⟨wt, hwt, -⟩ := (hq.listed src w).mp ⟨nd, hnd, by rw [hl]; exact mem_cons_self⟩
      obtain ⟨nd', hnd'⟩ := hdst
      obtain ⟨hone, hfirst, hdst'⟩ := requeue_one hq hnd hl hwt hne hnd' rfl
      obtain ⟨_, hloop, -⟩ := requeueLoop_spec n _ hone.queues hne hdst'
      have hrest := hloop.noEmpty _ (hfirst X hX)
      rw [Set.insert_idem] at hrest
      unfold requeueLoop
      simp only [hnd, hl, hwt]
      exact hrest

end Requeue

/-! ## Waking and requeueing as a whole -/

/-- What holds between two sections. -/
structure Sound (s : FutexState) (calls : Nat) (marks : List Mark) (returned : List (Nat × Int)) :
    Prop where
  queues : Queues s
  noEmpty : NoEmpty s ∅
  owners : Owners s
  ledger : Ledger s calls marks returned

/-- A section on the futex `(key, owner)` with `bitset` has woken waiters of that futex whose bits
meet `bitset` and has moved the waiters `moved` of that futex to another one. It has touched no
other waiter. -/
structure Touches (s s' : FutexState) (key owner bitset : Nat) (moved : List WaiterId) : Prop where
  nodup : moved.Nodup
  inside : ∀ x ∈ moved, ∃ wt m, s.waiters x = some wt ∧ futexOf s wt = some (key, owner)
    ∧ wt.node ≠ some m
    ∧ s'.waiters x = some { wt with node := some m }
  outside : ∀ x, x ∉ moved → s'.waiters x = s.waiters x
    ∨ ∃ wt, s.waiters x = some wt ∧ futexOf s wt = some (key, owner) ∧ wt.bitset &&& bitset ≠ 0
      ∧ s'.waiters x = some { wt with node := none, woken := true }

/-- A call that wakes on the futex `(key, owner)` with `bitset`: what it marks and what it
touches. -/
structure WakingSpec (s s' : FutexState) (key owner bitset woke : Nat) (marks : List Mark)
    (moved : List WaiterId) : Prop where
  threads : s'.threads = s.threads
  sound : ∀ c M R, Sound s c M R → Sound s' c (M ++ marks) R
  woke : woke = marks.countP Mark.counted
  marks : ∀ mk ∈ marks, mk.futex = some (key, owner) ∧ mk.bits &&& bitset ≠ 0
      ∧ mk.counted = mk.alive
  touches : Touches s s' key owner bitset moved

section Whole

variable {s s' : FutexState} {key owner bitset : Nat} {moved : List WaiterId} {n : NodeId}

theorem WakingSpec.nothing (bitset : Nat) : WakingSpec s s key owner bitset 0 [] [] where
  threads := rfl
  sound := by
    intro c M R h
    rwa [append_nil]
  woke := rfl
  marks := by simp
  touches := ⟨nodup_nil, nofun, fun _ _ => .inl rfl⟩

theorem futexOf_eq (hn : wt.node = some n) : futexOf s wt = keyOf s n := by
  unfold futexOf keyOf
  rw [hn, bind_some]

theorem WakeSpec.touches (h : WakeSpec s n bitset 0 r) (hkey : keyOf s n = some (key, owner))
    (hm : Moved r.state s' n moved) : Touches s s' key owner bitset moved := by
  refine ⟨hm.nodup, ?_, ?_⟩
  · intro x hx
    obtain ⟨wt, m, hw, hn, hne, he⟩ := hm.inside x hx
    rcases h.touched x with hsame | ⟨wt', -, -, -, hw'⟩
    · exact ⟨wt, m,
        hsame ▸ hw, by rw [futexOf_eq hn, hkey], fun h => hne (some.inj (h.symm.trans hn)), he⟩
    · -- a waiter that has been woken is on no list
      rw [hw] at hw'
      rw [some.inj hw'] at hn
      cases hn
  · intro x hx
    rw [hm.outside x hx]
    rcases h.touched x with hsame | ⟨wt, hw, hn, hbits, he⟩
    · exact .inl hsame
    · exact .inr ⟨wt, hw, by rw [futexOf_eq hn, hkey], hbits, he⟩

/-- The waking loop on the node of the futex, followed by a part that wakes nobody and leaves no
node without waiters. -/
theorem WakeSpec.waking (h : WakeSpec s n bitset 0 r) (hkey : keyOf s n = some (key, owner))
    (hq' : Queues s') (hm : Moved r.state s' n moved) (hne : NoEmpty s ∅ → NoEmpty s' ∅) :
    WakingSpec s s' key owner bitset r.woke r.marks moved where
  threads := hm.threads.trans h.threads
  sound := by
    intro c M R hs
    exact ⟨hq', hne hs.noEmpty, h.owners.rehomed hm.rehomed,
      (h.ledger c M R hs.ledger).rehomed hm.rehomed⟩
  woke := by rw [h.woke, Nat.zero_add]
  marks := by
    rw [← hkey]
    exact h.marks
  touches := h.touches hkey hm

theorem DroppedNode.moves (h : DroppedNode s s' n) : Moved s s' n [] :=
  .of_same h.waiters h.threads h.slots n

/-- The waking loop, and then the node is dropped if it is empty. -/
theorem WakeSpec.dropped (h : WakeSpec s n bitset 0 r) (hkey : keyOf s n = some (key, owner)) :
    WakingSpec s (futexDropEmpty r.state (some n)) key owner bitset r.woke r.marks [] := by
  have hd := dropEmpty_some h.queues n
  refine h.waking hkey hd.queues hd.moves fun hne => ?_
  refine (hd.noEmpty _ (h.noEmpty ∅ hne)).mono ?_
  simp

theorem findNode_key (h : futexFindNode s key owner = some n) : keyOf s n = some (key, owner) := by
  obtain ⟨nd, hn, hk, ho⟩ := findNode_some h
  simp [keyOf, hn, hk, ho]

theorem futexWake_spec (hq : Queues s) (ho : Owners s) {count bitset : Nat}
    (hr : futexWake s key owner count bitset = r) :
    WakingSpec s r.state key owner bitset r.woke r.marks [] := by
  subst hr
  unfold futexWake
  cases hfind : futexFindNode s key owner with
  | none => exact .nothing bitset
  | some n => exact (futexWakeLocked_spec hq ho n count bitset).dropped (findNode_key hfind)

/-- `FUTEX_REQUEUE`, when the two futexes differ. It returns the number of the waiters it has woken
and moved; without memory for the second node it has moved none and returns an error if it has woken
none. -/
theorem futexRequeue_spec (hq : Queues s) (ho : Owners s) {fresh : Option NodeId}
    (hfresh : ∀ n, fresh = some n → s.nodes n = none) {key2 owner2 : Nat}
    (hdiff : ¬ (key = key2 ∧ owner = owner2)) {nrWake nrRequeue : Nat} {r : RequeueResult}
    (hr : futexRequeue fresh s key owner key2 owner2 nrWake nrRequeue = r) :
    ∃ moved, WakingSpec s r.state key owner 0xFFFFFFFF r.woke r.marks moved
      ∧ (r.result = r.woke + moved.length
        ∨ fresh = none ∧ r.woke = 0 ∧ moved = [] ∧ r.result = -ENOMEM) := by
  subst hr
  unfold futexRequeue
  cases hfind : futexFindNode s key owner with
  | none => exact ⟨[], .nothing 0xFFFFFFFF, .inl rfl⟩
  | some n =>
    have hkey := findNode_key hfind
    have hw := futexWakeLocked_spec hq ho n nrWake 0xFFFFFFFF
    dsimp only
    generalize futexWakeLocked s (some n) nrWake 0xFFFFFFFF = r at hw
    rw [bind_some]
    cases hn : r.state.nodes n with
    | none => exact ⟨[], hw.dropped hkey, .inl (by simp)⟩
    | some nd =>
      dsimp only
      split
      next hcond =>
        -- the source still has waiters, so no node is empty here
        have hne : NoEmpty s ∅ → NoEmpty r.state ∅ := by
          intro hne m nd' _ hm
          by_cases hmn : m = n
          · subst hmn
            have hm := mem_unique hn hm
            exact hm ▸ hcond.1
          · exact hw.noEmpty ∅ hne m nd' (by simp [hmn]) hm
        have hfresh' : ∀ k, fresh = some k → r.state.nodes k = none := by
          intro k hk
          have := hw.keys k
          simp only [keyOf, hfresh k hk, map_none, map_eq_none_iff] at this
          exact this
        rcases findOrCreate_cases hw.queues key2 owner2 hfresh' with ⟨hnone, hc⟩ | ⟨dst, s1, hc, hf⟩
        · rw [hc]
          refine ⟨[], hw.waking hkey hw.queues (.of_same rfl rfl rfl n) hne, ?_⟩
          by_cases hzero : r.woke = 0
          · exact .inr ⟨hnone, hzero, rfl, by simp [hzero]⟩
          · exact .inl (by simp [hzero])
        rw [hc]
        have hkn : nd.key = key ∧ nd.owner = owner := by
          have := (hw.keys n).trans hkey
          simpa [keyOf, hn] using this
        have hdst : dst ≠ n := by
          rintro rfl
          obtain ⟨nd', hnd', hk2, ho2⟩ := hf.node
          obtain rfl := mem_unique (hf.kept nd hn) hnd'
          exact hdiff ⟨hkn.1.symm.trans hk2, hkn.2.symm.trans ho2⟩
        have hex : ∃ nd', s1.nodes dst = some nd' := ⟨_, hf.node.choose_spec.1⟩
        have hsrc : s1.nodes n = some nd := by rw [hf.others n hdst.symm, hn]
        obtain ⟨moved, hr, hcount⟩ := requeueLoop_spec nrRequeue s1 hf.queues hdst hex
        have hdr := dropEmpty_some hr.queues n
        have hall :
            Moved r.state (futexDropEmpty (requeueLoop n dst nrRequeue s1).2 (some n)) n moved := by
          have hfound := Moved.of_same hf.waiters hf.threads hf.slots n
          have := (hfound.trans hr.moved).trans hdr.moves
          rwa [nil_append, append_nil] at this
        refine ⟨moved, hw.waking hkey hdr.queues hall ?_, .inl ?_⟩
        · intro hs
          have hmoved := requeueLoop_noEmpty nrRequeue hcond.2 hf.queues hdst hex hsrc hcond.1
            _ (hf.noEmpty _ (hne hs))
          refine (hdr.noEmpty _ hmoved).mono ?_
          simp
        · simp only [getD_some, hcount]
      next => exact ⟨[], hw.dropped hkey, .inl (by simp)⟩

end Whole

/-! ## Waits begin and end -/

/-- A wait has ended: the thread `p` waits for nothing and the waiter is gone. -/
structure Left (s s' : FutexState) (p : ThreadId) (t : Thread) (w : WaiterId) : Prop where
  queues : Queues s'
  noEmpty : NoEmpty s ∅ → NoEmpty s' ∅
  waiters : ∀ x, s'.waiters x = if x = w then none else s.waiters x
  threads : ∀ q, s'.threads q = if q = p then some { t with active := none, frame := none }
      else s.threads q
  slots : s'.slots = s.slots

section Wait

variable {s s' : FutexState} {p : ThreadId} {t t' : Thread} {w : WaiterId} {wt : Waiter} {c : Nat}
  {M : List Mark} {R : List (Nat × Int)} {v : Int}

theorem waitLeave_spec (hq : Queues s) (hw : s.waiters w = some wt) :
    Left s (waitLeave s p t w wt) p t w := by
  have hu := unlinkWaiter_spec hq hw
  obtain ⟨s1, hs1, hq1, hne1, hwait, hthr, hslot⟩ :
      ∃ s1, futexDropEmpty (futexUnlinkWaiter s w) wt.node = s1 ∧
      Queues s1 ∧ (NoEmpty s ∅ → NoEmpty s1 ∅) ∧ s1.waiters = (futexUnlinkWaiter s w).waiters ∧
      s1.threads = s.threads ∧ s1.slots = s.slots := by
    refine ⟨_, rfl, ?_⟩
    cases hnode : wt.node with
    | none =>
      refine ⟨hu.queues, ?_, rfl, hu.threads, hu.slots⟩
      intro hne
      refine (hu.noEmpty ∅ hne).mono ?_
      simp [hnode]
    | some n =>
      have hd := dropEmpty_some hu.queues n
      refine ⟨hd.queues, ?_, hd.waiters, hd.threads.trans hu.threads, hd.slots.trans hu.slots⟩
      intro hne
      refine (hd.noEmpty _ (hu.noEmpty ∅ hne)).mono ?_
      rintro m ⟨hm | hm, hmn⟩
      · exact hm
      · rw [hnode] at hm
        exact absurd (some.inj hm).symm hmn
  unfold waitLeave
  rw [hs1]
  have hoff :
      ∀ m, ¬ Names (s1.setThread p (some { t with active := none, frame := none })) w m := by
    intro m hm
    refine hu.off m ?_
    unfold Names at hm ⊢
    rwa [setThread_waiters, hwait] at hm
  refine ⟨?_, ?_, ?_, ?_, hslot⟩
  · refine Queues.setWaiter_off ?_ hoff (by simp)
    exact hq1.of_same rfl rfl fun _ _ => Iff.rfl
  · exact hne1
  · intro x
    by_cases hx : x = w
    · simp [hx]
    · simp only [setWaiter_waiters, hx, if_false, setThread_waiters, hwait]
      exact hu.waiters x hx
  · intro q
    simp [hthr]

theorem Left.waiters_old (h : Left s s' p t w) (x : WaiterId) (xt : Waiter)
    (hx : s'.waiters x = some xt) : s.waiters x = some xt := by
  rw [h.waiters] at hx
  split at hx
  · cases hx
  · exact hx

theorem Left.owners (h : Left s s' p t w) (ho : Owners s) (ht : s.threads p = some t)
    (hact : t.active = some w) : Owners s' := by
  refine ho.of_thread ht h.threads h.slots nofun (by simp) ?_ ?_ ?_
  · exact fun x xt hx => ho.woken x xt (h.waiters_old x xt hx)
  · intro x xt hx
    rw [h.waiters] at hx
    split at hx
    · cases hx
    next hxw =>
    obtain ⟨u, hu, hua, hut⟩ := ho.owner x xt hx
    refine ⟨u, ?_, hua, hut⟩
    rw [h.threads, if_neg, hu]
    intro hp
    rw [hp, ht] at hu
    injection hu with hu
    rw [← hu, hact] at hua
    exact hxw (some.inj hua).symm
  · intro q u x hu hux
    rw [h.threads] at hu
    split at hu
    · injection hu with hu
      rw [← hu] at hux
      cases hux
    next hqp =>
    obtain ⟨xt, hxt, hp⟩ := ho.active q u x hu hux
    refine ⟨xt, ?_, hp⟩
    rw [h.waiters, if_neg, hxt]
    rintro rfl
    -- the waiter belongs to one thread only
    obtain ⟨wt', hwt', hp'⟩ := ho.active p t x ht hact
    have hwt' := mem_unique hxt hwt'
    exact hqp (by rw [← hp, hwt', hp'])

theorem Ledger.subset (hl : Ledger s c M R)
    (h : ∀ x xt, s'.waiters x = some xt → s.waiters x = some xt) : Ledger s' c M R :=
  hl.of_old fun x xt hx => ⟨xt, h x xt hx, rfl, rfl⟩

theorem Ledger.returns (hl : Ledger s c M R) {n : Nat} {v : Int} (hn : n < c)
    (hopen : ∀ x xt, s.waiters x = some xt → xt.serial ≠ n)
    (hmarks : marksOf M n = if v = 0 then 1 else 0) : Ledger s c M (R ++ [(n, v)]) where
  __ := hl
  returnedBelow := forall_mem_append.mpr ⟨hl.returnedBelow, forall_mem_singleton.mpr hn⟩
  notReturned x xt hx :=
    forall_mem_append.mpr ⟨hl.notReturned x xt hx, forall_mem_singleton.mpr (hopen x xt hx).symm⟩
  ok := by
    intro k hk
    rcases mem_append.mp hk with hk | hk
    · exact hl.ok k hk
    · injection mem_singleton.mp hk with hkn hv
      rw [hkn, hmarks, if_pos hv.symm]
  failed := by
    intro k r hk hr
    rcases mem_append.mp hk with hk | hk
    · exact hl.failed k r hk hr
    · injection mem_singleton.mp hk with hkn hv
      rw [hkn, hmarks, if_neg (hv ▸ hr)]

section

variable (hs : Sound s c M R) (ht : s.threads p = some t) (hact : t.active = some w)
    (hw : s.waiters w = some wt)

include hs ht hact hw

/-- **A wait returns** `0` if it was woken, and an error otherwise. -/
theorem Sound.leave (hv : v = 0 ↔ wt.woken = true) :
    Sound (waitLeave s p t w wt) c M (R ++ [(wt.serial, v)]) := by
  have h := waitLeave_spec (p := p) (t := t) hs.queues hw
  refine ⟨h.queues, h.noEmpty hs.noEmpty, h.owners hs.owners ht hact, ?_⟩
  refine (hs.ledger.subset h.waiters_old).returns (hs.ledger.openBelow w wt hw) ?_ ?_
  · intro x xt hx hser
    have hxw := hs.ledger.distinct x w xt wt (h.waiters_old x xt hx) hw hser
    rw [hxw, h.waiters, if_pos rfl] at hx
    cases hx
  · rw [hs.ledger.pending w wt hw]
    exact if_congr hv.symm rfl rfl

theorem Sound.abandon : Sound (waitLeave s p t w wt) c M R := by
  have h := waitLeave_spec (p := p) (t := t) hs.queues hw
  exact ⟨h.queues, h.noEmpty hs.noEmpty, h.owners hs.owners ht hact, hs.ledger.subset h.waiters_old⟩

end

theorem waitRound_cases {frame : WaitFrame} (hw : s.waiters frame.waiter = some wt) (signal : Bool)
    (now : Nat) : (∃ v, waitRound s p t frame signal now = (some v, waitLeave s p t frame.waiter wt)
        ∧ (v = 0 ↔ wt.woken = true))
      ∨ waitRound s p t frame signal now
      = (none, s.setThread p (some { t with frame := some frame })) := by
  unfold waitRound
  rw [hw]
  dsimp only
  split
  next hwoken => exact .inl ⟨0, rfl, by simp [hwoken]⟩
  next hwoken =>
  split
  · exact .inl ⟨-EINTR, rfl, by simp [hwoken, EINTR]⟩
  · split
    · exact .inl ⟨-ETIMEDOUT, rfl, by simp [hwoken, ETIMEDOUT]⟩
    · exact .inr rfl

/-- A thread changes in fields that are not about its identity or its wait. -/
theorem Owners.setThread (ho : Owners s) (ht : s.threads p = some t) (hact : t'.active = t.active)
    (htid : t'.tid = t.tid) (hterm : t'.terminated = false → t.terminated = false) :
    Owners (s.setThread p (some t')) := by
  refine ho.of_thread ht (fun _ => rfl) rfl nofun
    (fun u hu => some.inj hu ▸ ⟨htid, hterm⟩) ho.woken ?_ ?_
  · intro x xt hx
    obtain ⟨u, hu, hua, hut⟩ := ho.owner x xt hx
    by_cases hp : xt.thread = p
    · rw [hp, ht] at hu
      injection hu with hu
      subst hu
      exact ⟨t', by simp [hp], hact.trans hua, htid.trans hut⟩
    · exact ⟨u, by simp [hp, hu], hua, hut⟩
  · intro q u x hu hux
    simp only [setThread_threads] at hu
    split at hu
    next hq =>
      injection hu with hu
      rw [← hu, hact] at hux
      rw [hq]
      exact ho.active p t x ht hux
    next => exact ho.active q u x hu hux

theorem Sound.setThread (hs : Sound s c M R) (ht : s.threads p = some t)
    (hact : t'.active = t.active) (htid : t'.tid = t.tid)
    (hterm : t'.terminated = false → t.terminated = false) :
    Sound (s.setThread p (some t')) c M R where
  queues := hs.queues.of_same rfl rfl fun _ _ => Iff.rfl
  noEmpty := hs.noEmpty
  owners := hs.owners.setThread ht hact htid hterm
  ledger := hs.ledger.subset fun _ _ h => h

theorem Owners.publish (ho : Owners s) (ht : s.threads p = some t) (hidle : t.active = none)
    (hfresh : s.waiters w = none) (hp : wt.thread = p) (htid : wt.tid = t.tid)
    (hopen : wt.woken = true ↔ wt.node = none)
    (hw : ∀ x, s'.waiters x = if x = w then some wt else s.waiters x)
    (hthr : s'.threads = s.threads) (hslot : s'.slots = s.slots) :
    Owners (s'.setThread p (some { t with active := some w })) := by
  have hthreads : ∀ q, (s'.setThread p (some { t with active := some w })).threads q
      = if q = p then some { t with active := some w } else s.threads q := by
    intro q
    rw [setThread_threads, hthr]
  refine ho.of_thread ht hthreads hslot nofun (by simp) ?_ ?_ ?_
  · intro x xt hx
    rw [setThread_waiters, hw] at hx
    split at hx
    · rw [← some.inj hx]
      exact hopen
    · exact ho.woken x xt hx
  · intro x xt hx
    rw [setThread_waiters, hw] at hx
    split at hx
    next hxw =>
      rw [← some.inj hx, hp]
      exact ⟨{ t with active := some w }, by simp, by rw [hxw], htid.symm⟩
    next hxw =>
    obtain ⟨u, hu, hua, hut⟩ := ho.owner x xt hx
    have hne : xt.thread ≠ p := by
      intro h
      rw [h, ht] at hu
      rw [← some.inj hu, hidle] at hua
      cases hua
    exact ⟨u, by simp [hne, hthr, hu], hua, hut⟩
  · intro q u x hu hux
    rw [hthreads] at hu
    rw [setThread_waiters, hw]
    split at hu
    next hq =>
      obtain rfl := some.inj hu
      have hxw : x = w := (some.inj hux).symm
      exact ⟨wt, by rw [if_pos hxw], hp.trans hq.symm⟩
    next =>
      obtain ⟨xt, hxt, hxp⟩ := ho.active q u x hu hux
      refine ⟨xt, ?_, hxp⟩
      rw [if_neg, hxt]
      rintro rfl
      rw [hfresh] at hxt
      cases hxt

theorem Ledger.next (hl : Ledger s c M R) : Ledger s (c + 1) M R where
  __ := hl
  openBelow x xt hx := Nat.lt_succ_of_lt (hl.openBelow x xt hx)
  markBelow mk hmk := Nat.lt_succ_of_lt (hl.markBelow mk hmk)
  returnedBelow r hr := Nat.lt_succ_of_lt (hl.returnedBelow r hr)

theorem Sound.next (hs : Sound s c M R) : Sound s (c + 1) M R :=
  { hs with ledger := hs.ledger.next }

/-- Call number `c` fails before it has a waiter or a mark. -/
theorem Sound.fails (hs : Sound s c M R) {e : Int} (he : e ≠ 0) :
    Sound s (c + 1) M (R ++ [(c, e)]) := by
  refine { hs with ledger := hs.ledger.next.returns (Nat.lt_succ_self c) ?_ ?_ }
  · intro x xt hx
    exact Nat.ne_of_lt (hs.ledger.openBelow x xt hx)
  · rw [if_neg he]
    exact marksOf_zero hs.ledger.markBelow

/-- The account after call number `c` has published its waiter. -/
theorem Ledger.publish (hl : Ledger s c M R) (hserial : wt.serial = c) (hopen : wt.woken = false)
    (hw : ∀ x, s'.waiters x = if x = w then some wt else s.waiters x) : Ledger s' (c + 1) M R := by
  have hcases : ∀ x xt, s'.waiters x = some xt → x = w ∧ xt = wt ∨ s.waiters x = some xt
      ∧ xt.serial < c := by
    intro x xt hx
    rw [hw] at hx
    split at hx
    next hxw => exact .inl ⟨hxw, (some.inj hx).symm⟩
    next => exact .inr ⟨hx, hl.openBelow x xt hx⟩
  refine ⟨?_, hl.next.markBelow, hl.next.returnedBelow, ?_, ?_, ?_, hl.ok, hl.failed⟩
  · intro x xt hx
    rcases hcases x xt hx with ⟨-, rfl⟩ | ⟨-, hlt⟩ <;> omega
  · intro x y xt yt hx hy hser
    rcases hcases x xt hx with ⟨rfl, rfl⟩ | ⟨hx', hlt⟩ <;>
      rcases hcases y yt hy with ⟨rfl, rfl⟩ | ⟨hy', hlt'⟩
    · rfl
    · omega
    · omega
    · exact hl.distinct x y xt yt hx' hy' hser
  · intro x xt hx r hr
    rcases hcases x xt hx with ⟨-, rfl⟩ | ⟨hx', -⟩
    · have := hl.returnedBelow r hr
      omega
    · exact hl.notReturned x xt hx' r hr
  · intro x xt hx
    rcases hcases x xt hx with ⟨-, rfl⟩ | ⟨hx', -⟩
    · rw [hserial, marksOf_zero hl.markBelow, hopen]
      rfl
    · exact hl.pending x xt hx'

end Wait

end AxonOS.Futex

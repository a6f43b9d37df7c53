import AxonOS.Futex.Queues

/-! # Wakeups are neither lost nor duplicated

Between two sections every waiter belongs to a thread that points back to it (`Owners`), and the
account of the calls made so far is right (`Ledger`): a wait that has returned `0` was marked once,
one that has returned an error was never marked, and one that is still open has been marked if and
only if its `woken` field says so.

`wakeWaiter` is the only place where the account grows; the loop of a waking call is an induction
over it.
-/

namespace AxonOS.Futex

open List Option

/-! ## The invariants -/

/-- Waiters and threads point at each other. -/
structure Owners (s : FutexState) : Prop where
  woken : ∀ w wt, s.waiters w = some wt → (wt.woken = true ↔ wt.node = none)
  owner : ∀ w wt, s.waiters w = some wt → ∃ t, s.threads wt.thread = some t ∧ t.active = some w
      ∧ t.tid = wt.tid
  active : ∀ p t w, s.threads p = some t → t.active = some w → ∃ wt,
      s.waiters w = some wt ∧ wt.thread = p
  slot : ∀ i p, s.slots i = some p → ∃ t, s.threads p = some t ∧ t.tid = i
  running : ∀ p t, s.threads p = some t → t.terminated = false → s.slots t.tid = some p
  tid : ∀ p t, s.threads p = some t → t.tid ≠ 0

/-- The waiters change and keep their threads. -/
theorem Owners.of_waiters {s s' : FutexState} (ho : Owners s) (hthr : s'.threads = s.threads)
    (hslots : s'.slots = s.slots)
      (hold : ∀ w wt', s'.waiters w = some wt' → (wt'.woken = true ↔ wt'.node = none)
      ∧ ∃ wt, s.waiters w = some wt ∧ wt'.thread = wt.thread ∧ wt'.tid = wt.tid)
    (hnew : ∀ w wt, s.waiters w = some wt → ∃ wt', s'.waiters w = some wt'
    ∧ wt'.thread = wt.thread) : Owners s' := by
  refine ⟨fun w wt' hw => (hold w wt' hw).1, ?_, ?_, ?_, ?_, ?_⟩
  · intro w wt' hw
    obtain ⟨-, wt, hwt, hthread, htid⟩ := hold w wt' hw
    rw [hthr, hthread, htid]
    exact ho.owner w wt hwt
  · intro p t w ht hact
    rw [hthr] at ht
    obtain ⟨wt, hwt, hp⟩ := ho.active p t w ht hact
    obtain ⟨wt', hwt', hthread⟩ := hnew w wt hwt
    exact ⟨wt', hwt', hthread.trans hp⟩
  · rw [hslots, hthr]
    exact ho.slot
  · rw [hslots, hthr]
    exact ho.running
  · rw [hthr]
    exact ho.tid

/-- A thread changes and keeps its id, or goes when it has no slot, so that the slots are still
right. -/
theorem Owners.of_thread {s s' : FutexState} {p : ThreadId} {t : Thread} {t' : Option Thread}
    (ho : Owners s) (ht : s.threads p = some t)
    (hthr : ∀ q, s'.threads q = if q = p then t' else s.threads q) (hslots : s'.slots = s.slots)
    (hgone : t' = none → s.slots t.tid ≠ some p)
    (hkeeps : ∀ u, t' = some u → u.tid = t.tid ∧ (u.terminated = false → t.terminated = false))
    (hwoken : ∀ w wt, s'.waiters w = some wt → (wt.woken = true ↔ wt.node = none))
    (howner : ∀ w wt, s'.waiters w = some wt →
      ∃ u, s'.threads wt.thread = some u ∧ u.active = some w ∧ u.tid = wt.tid)
    (hactive : ∀ q u w, s'.threads q = some u → u.active = some w →
      ∃ wt, s'.waiters w = some wt ∧ wt.thread = q) : Owners s' := by
  have hold : ∀ q u, s'.threads q = some u →
      ∃ u', s.threads q = some u' ∧ u.tid = u'.tid
      ∧ (u.terminated = false → u'.terminated = false) := by
    intro q u hu
    rw [hthr] at hu
    split at hu
    next hq => exact ⟨t, hq ▸ ht, hkeeps u hu⟩
    next => exact ⟨u, hu, rfl, fun h => h⟩
  refine ⟨hwoken, howner, hactive, fun i q hq => ?_, fun q u hu hrun => ?_, fun q u hu => ?_⟩
  · rw [hslots] at hq
    obtain ⟨u, hu, hui⟩ := ho.slot i q hq
    rw [hthr]
    split
    next hqp =>
      rw [hqp, ht] at hu
      obtain rfl := some.inj hu
      cases t' with
      | none =>
        rw [hqp, ← hui] at hq
        exact absurd hq (hgone rfl)
      | some u' => exact ⟨u', rfl, (hkeeps u' rfl).1.trans hui⟩
    next => exact ⟨u, hu, hui⟩
  · obtain ⟨u', hu', hut, hlive⟩ := hold q u hu
    rw [hslots, hut]
    exact ho.running q u' hu' (hlive hrun)
  · obtain ⟨u', hu', hut, -⟩ := hold q u hu
    rw [hut]
    exact ho.tid q u' hu'

/-- How often the call with this number has been marked. -/
def marksOf (marks : List Mark) (n : Nat) : Nat := marks.countP fun mk => mk.wait == n

@[simp] theorem marksOf_append (l l' : List Mark) (n : Nat) :
    marksOf (l ++ l') n = marksOf l n + marksOf l' n := countP_append

theorem marksOf_single (mk : Mark) (n : Nat) : marksOf [mk] n = if mk.wait = n then 1 else 0 := by
  by_cases h : mk.wait = n <;> simp [marksOf, h]

theorem marksOf_zero {marks : List Mark} {n : Nat} (h : ∀ mk ∈ marks, mk.wait < n) :
    marksOf marks n = 0 := by
  refine countP_eq_zero.mpr fun mk hmk => ?_
  have := h mk hmk
  simp
  omega

/-- The account is right: `calls` is the number of calls so far, `marks` what they have marked, and
`returned` the waits that have come back. -/
structure Ledger (s : FutexState) (calls : Nat) (marks : List Mark) (returned : List (Nat × Int)) :
    Prop where
  openBelow : ∀ w wt, s.waiters w = some wt → wt.serial < calls
  markBelow : ∀ mk ∈ marks, mk.wait < calls
  returnedBelow : ∀ r ∈ returned, r.1 < calls
  distinct : ∀ w w' wt wt', s.waiters w = some wt → s.waiters w' = some wt' →
      wt.serial = wt'.serial → w = w'
  notReturned : ∀ w wt, s.waiters w = some wt → ∀ r ∈ returned, r.1 ≠ wt.serial
  pending : ∀ w wt, s.waiters w = some wt → marksOf marks wt.serial = if wt.woken then 1 else 0
  ok : ∀ n, (n, 0) ∈ returned → marksOf marks n = 1
  failed : ∀ n r, (n, r) ∈ returned → r ≠ 0 → marksOf marks n = 0

/-- The waiters of `s'` are those of `s`, but some that were queued on `n` are queued elsewhere. -/
structure Rehomed (s s' : FutexState) (n : NodeId) : Prop where
  waiters : ∀ x, s'.waiters x = s.waiters x
    ∨ ∃ wt m, s.waiters x = some wt ∧ wt.node = some n
      ∧ s'.waiters x = some { wt with node := some m }
  threads : s'.threads = s.threads
  slots : s'.slots = s.slots

section Rehomed

variable {s s' : FutexState} {n : NodeId}

/-- A waiter of `s'` differs from one of `s` in its node only. -/
theorem Rehomed.old (h : Rehomed s s' n) {x : WaiterId} {wt' : Waiter}
    (hx : s'.waiters x = some wt') :
    ∃ wt, s.waiters x = some wt ∧ wt' = { wt with node := wt'.node }
    ∧ (wt'.node = none ↔ wt.node = none) := by
  rcases h.waiters x with he | ⟨wt, m, hw, hn, he⟩
  · exact ⟨wt', he ▸ hx, rfl, Iff.rfl⟩
  · have hx := mem_unique he hx
    refine ⟨wt, hw, ?_, ?_⟩
    · rw [← hx]
    · simp [← hx, hn]

theorem Rehomed.new (h : Rehomed s s' n) {x : WaiterId} {wt : Waiter} (hx : s.waiters x = some wt) :
    ∃ m, s'.waiters x = some { wt with node := m } := by
  rcases h.waiters x with he | ⟨wt', m, hw, hn, he⟩
  · exact ⟨wt.node, by rw [he, hx]⟩
  · have hw := mem_unique hx hw
    exact ⟨some m, by rw [he, hw]⟩

theorem Owners.rehomed (ho : Owners s) (h : Rehomed s s' n) : Owners s' := by
  refine ho.of_waiters h.threads h.slots (fun w wt' hw => ?_) fun w wt hw => ?_
  · obtain ⟨wt, hwt, heq, hnode⟩ := h.old hw
    rw [hnode, ← ho.woken w wt hwt, heq]
    exact ⟨Iff.rfl, wt, hwt, rfl, rfl⟩
  · obtain ⟨m, hm⟩ := h.new hw
    exact ⟨_, hm, rfl⟩

/-- The open calls were open before; nothing else changes in the account. -/
theorem Ledger.of_old {c : Nat} {M : List Mark} {R : List (Nat × Int)} (hl : Ledger s c M R)
    (h : ∀ x xt', s'.waiters x = some xt' →
      ∃ xt, s.waiters x = some xt ∧ xt'.serial = xt.serial ∧ xt'.woken = xt.woken) :
      Ledger s' c M R := by
  refine { hl with openBelow := ?_, distinct := ?_, notReturned := ?_, pending := ?_ }
  · intro w wt' hw
    obtain ⟨wt, hwt, hser, -⟩ := h w wt' hw
    rw [hser]
    exact hl.openBelow w wt hwt
  · intro w w' wt' wt'' hw hw' heq
    obtain ⟨wt, hwt, hser, -⟩ := h w wt' hw
    obtain ⟨wu, hwu, hser', -⟩ := h w' wt'' hw'
    rw [hser, hser'] at heq
    exact hl.distinct w w' wt wu hwt hwu heq
  · intro w wt' hw
    obtain ⟨wt, hwt, hser, -⟩ := h w wt' hw
    rw [hser]
    exact hl.notReturned w wt hwt
  · intro w wt' hw
    obtain ⟨wt, hwt, hser, hwoken⟩ := h w wt' hw
    rw [hser, hwoken]
    exact hl.pending w wt hwt

theorem Ledger.rehomed {c : Nat} {M : List Mark} {R : List (Nat × Int)} (hl : Ledger s c M R)
    (h : Rehomed s s' n) : Ledger s' c M R := by
  refine hl.of_old fun w wt' hw => ?_
  obtain ⟨wt, hwt, heq, -⟩ := h.old hw
  rw [heq]
  exact ⟨wt, hwt, rfl, rfl⟩

end Rehomed

/-- The waiters `moved`, and no others, have left the queue of `n` for another one; nothing else has
changed in any waiter. -/
structure Moved (s s' : FutexState) (n : NodeId) (moved : List WaiterId) : Prop where
  nodup : moved.Nodup
  inside : ∀ x ∈ moved, ∃ wt m, s.waiters x = some wt ∧ wt.node = some n ∧ m ≠ n
    ∧ s'.waiters x = some { wt with node := some m }
  outside : ∀ x, x ∉ moved → s'.waiters x = s.waiters x
  threads : s'.threads = s.threads
  slots : s'.slots = s.slots

section Moved

variable {s s' s'' : FutexState} {n : NodeId} {moved moved' : List WaiterId}

theorem Moved.rehomed (h : Moved s s' n moved) : Rehomed s s' n := by
  refine ⟨fun x => ?_, h.threads, h.slots⟩
  by_cases hx : x ∈ moved
  · obtain ⟨wt, m, hw, hn, -, he⟩ := h.inside x hx
    exact .inr ⟨wt, m, hw, hn, he⟩
  · exact .inl (h.outside x hx)

theorem Moved.of_same (hw : s'.waiters = s.waiters) (ht : s'.threads = s.threads)
    (hs : s'.slots = s.slots) (n : NodeId) : Moved s s' n [] :=
  ⟨nodup_nil, nofun, fun x _ => by rw [hw], ht, hs⟩

/-- A waiter that has left the queue does not leave it again. -/
theorem Moved.trans (h : Moved s s' n moved) (h' : Moved s' s'' n moved') :
    Moved s s'' n (moved ++ moved') := by
  have honce : ∀ x ∈ moved, x ∉ moved' := by
    intro x hx hx'
    obtain ⟨wt, m, -, -, hm, he⟩ := h.inside x hx
    obtain ⟨wt', -, hw', hn', -⟩ := h'.inside x hx'
    rw [he] at hw'
    rw [← some.inj hw'] at hn'
    exact hm (some.inj hn')
  refine ⟨?_, ?_, ?_, h'.threads.trans h.threads, h'.slots.trans h.slots⟩
  · exact nodup_append.mpr ⟨h.nodup, h'.nodup, fun x hx y hy hxy => honce x hx (hxy ▸ hy)⟩
  · intro x hx
    by_cases hin : x ∈ moved
    · rw [h'.outside x (honce x hin)]
      exact h.inside x hin
    · rw [← h.outside x hin]
      exact h'.inside x ((mem_append.mp hx).resolve_left hin)
  · intro x hx
    rw [mem_append, not_or] at hx
    rw [h'.outside x hx.2, h.outside x hx.1]

end Moved

/-! ## Waking one waiter -/

section Wake

variable {s : FutexState} {w : WaiterId} {wt : Waiter}

/-- **The test before the count is right**: a queued waiter is counted if its thread is alive. -/
theorem countsWaiter_eq_alive (ho : Owners s) (hw : s.waiters w = some wt) :
    countsWaiter s w wt = threadAlive s wt := by
  obtain ⟨t, ht, hact, htid⟩ := ho.owner w wt hw
  unfold countsWaiter threadAlive threadGet
  rw [ht]
  cases hterm : t.terminated with
  | false =>
    have hslot := ho.running wt.thread t ht hterm
    rw [htid] at hslot
    simp [hslot, ht, htid, hact, hterm]
  | true =>
    -- whoever has the slot now is not the thread of the wait, or is that terminated thread
    cases hslot : s.slots wt.tid with
    | none => simp [hterm]
    | some p =>
      obtain ⟨u, hu, hutid⟩ := ho.slot wt.tid p hslot
      simp only [bind_some, hu, hutid, if_true]
      by_cases hua : u.active = some w
      · obtain ⟨wt', hwt', hp⟩ := ho.active p u w hu hua
        obtain rfl := mem_unique hw hwt'
        rw [hp, hu] at ht
        injection ht with ht
        subst ht
        simp [hterm]
      · simp [hua, hterm]

/-- What waking a waiter leaves. -/
structure Woken (s s' : FutexState) (w : WaiterId) (wt : Waiter) : Prop where
  queues : Queues s'
  noEmpty : ∀ X, NoEmpty s X → NoEmpty s' (X ∪ {n | wt.node = some n})
  keys : ∀ m, keyOf s' m = keyOf s m
  self : s'.waiters w = some { wt with node := none, woken := true }
  waiters : ∀ x, x ≠ w → s'.waiters x = s.waiters x
  threads : s'.threads = s.threads
  slots : s'.slots = s.slots

theorem unlink_keys (hq : Queues s) (hw : s.waiters w = some wt) (m : NodeId) :
    keyOf (futexUnlinkWaiter s w) m = keyOf s m := by
  have hu := unlinkWaiter_spec hq hw
  by_cases hm : wt.node = some m
  · obtain ⟨nd, hn, -⟩ := (hq.listed m w).mpr ⟨wt, hw, hm⟩
    unfold keyOf
    rw [hu.node m nd hm hn, hn]
    rfl
  · unfold keyOf
    rw [hu.others m hm]

theorem wakeWaiter_spec (hq : Queues s) (hw : s.waiters w = some wt) :
    Woken s (wakeWaiter s w wt) w wt := by
  have hu := unlinkWaiter_spec hq hw
  unfold wakeWaiter
  refine ⟨hu.queues.setWaiter_off hu.off ?_, ?_, unlink_keys hq hw, ?_, ?_, hu.threads, hu.slots⟩
  · rintro x hx
    injection hx with hx
    rw [← hx]
  · exact hu.noEmpty
  · simp
  · intro x hx
    simp only [setWaiter_waiters, hx, if_false]
    exact hu.waiters x hx

theorem Woken.owners {s' : FutexState} (h : Woken s s' w wt) (hw : s.waiters w = some wt)
    (ho : Owners s) : Owners s' := by
  refine ho.of_waiters h.threads h.slots (fun x xt' hx => ?_) fun x xt hx => ?_
  · by_cases hxw : x = w
    · subst hxw
      have hx := mem_unique h.self hx
      simp [← hx, hw]
    · rw [h.waiters x hxw] at hx
      exact ⟨ho.woken x xt' hx, xt', hx, rfl, rfl⟩
  · by_cases hxw : x = w
    · subst hxw
      have hx := mem_unique hw hx
      exact ⟨_, h.self, by rw [← hx]⟩
    · exact ⟨xt, by rw [h.waiters x hxw]; exact hx, rfl⟩

/-- **Marking a waiter once more in the account.** -/
theorem Woken.ledger {s' : FutexState} {c : Nat} {M : List Mark} {R : List (Nat × Int)}
    (h : Woken s s' w wt) (hw : s.waiters w = some wt) (hopen : wt.woken = false) (mk : Mark)
    (hmk : mk.wait = wt.serial) (hl : Ledger s c M R) : Ledger s' c (M ++ [mk]) R := by
  have hold : ∀ x xt', s'.waiters x = some xt' → ∃ xt, s.waiters x = some xt
      ∧ xt'.serial = xt.serial := by
    intro x xt' hx
    by_cases hxw : x = w
    · subst hxw
      have hx := mem_unique h.self hx
      exact ⟨wt, hw, by rw [← hx]⟩
    · rw [h.waiters x hxw] at hx
      exact ⟨xt', hx, rfl⟩
  have hcount : ∀ n, marksOf (M ++ [mk]) n = marksOf M n + if wt.serial = n then 1 else 0 := by
    intro n
    rw [marksOf_append, marksOf_single, hmk]
  refine ⟨?_, ?_, hl.returnedBelow, ?_, ?_, ?_, ?_, ?_⟩
  · intro x xt' hx
    obtain ⟨xt, hxt, hser⟩ := hold x xt' hx
    rw [hser]
    exact hl.openBelow x xt hxt
  · refine forall_mem_append.mpr ⟨hl.markBelow, forall_mem_singleton.mpr ?_⟩
    rw [hmk]
    exact hl.openBelow w wt hw
  · intro x y xt' yt' hx hy hser
    obtain ⟨xt, hxt, hxs⟩ := hold x xt' hx
    obtain ⟨yt, hyt, hys⟩ := hold y yt' hy
    exact hl.distinct x y xt yt hxt hyt (by rw [← hxs, ← hys, hser])
  · intro x xt' hx r hr
    obtain ⟨xt, hxt, hser⟩ := hold x xt' hx
    rw [hser]
    exact hl.notReturned x xt hxt r hr
  · intro x xt' hx
    rw [hcount]
    by_cases hxw : x = w
    · subst hxw
      have hx := mem_unique h.self hx
      have := hl.pending x wt hw
      rw [← hx]
      simp [this, hopen]
    · rw [h.waiters x hxw] at hx
      have hne : wt.serial ≠ xt'.serial := fun heq => hxw (hl.distinct w x wt xt' hw hx heq).symm
      rw [if_neg hne, hl.pending x xt' hx, Nat.add_zero]
  · intro n hn
    rw [hcount, if_neg (Ne.symm (hl.notReturned w wt hw _ hn)), hl.ok n hn]
  · intro n r hn hr
    rw [hcount, if_neg (Ne.symm (hl.notReturned w wt hw _ hn)), hl.failed n r hn hr]

end Wake

end AxonOS.Futex

import AxonOS.Futex.Model

/-! # The queues

`Queues` ties the hash table, the nodes and the waiters together: a node is in the bucket of its key
and nowhere else, there is one node for a key and an owner, and a waiter is on the list of the node
its `node` field names and on no other. Every section keeps it. That no node is left without waiters
holds between sections only, so it is kept apart, with an exception for the node a section works on.
-/

namespace AxonOS.Futex

open List Option

def keyOf (s : FutexState) (n : NodeId) : Option (Nat × Nat) :=
  (s.nodes n).map fun nd => (nd.key, nd.owner)

def OnList (s : FutexState) (n : NodeId) (w : WaiterId) : Prop :=
  ∃ nd, s.nodes n = some nd ∧ w ∈ nd.waiters

def Names (s : FutexState) (w : WaiterId) (n : NodeId) : Prop :=
  ∃ wt, s.waiters w = some wt ∧ wt.node = some n

structure Queues (s : FutexState) : Prop where
  bucket : ∀ b n, n ∈ s.buckets b ↔ ∃ k, keyOf s n = some k ∧ futexHash k.1 k.2 = b
  bucketNodup : ∀ b, (s.buckets b).Nodup
  unique : ∀ n n' k, keyOf s n = some k → keyOf s n' = some k → n = n'
  listed : ∀ n w, OnList s n w ↔ Names s w n
  nodup : ∀ n nd, s.nodes n = some nd → nd.waiters.Nodup

/-- Every node outside `X` has waiters. -/
def NoEmpty (s : FutexState) (X : Set NodeId) : Prop :=
  ∀ n nd, n ∉ X → s.nodes n = some nd → nd.waiters ≠ []

theorem NoEmpty.mono {s : FutexState} {X Y : Set NodeId} (h : NoEmpty s X) (hXY : X ⊆ Y) :
    NoEmpty s Y := fun n nd hn hnd => h n nd (fun hx => hn (hXY hx)) hnd

section Updates

variable (s : FutexState)

@[simp] theorem setNode_buckets (n : NodeId) (nd : Option Node) :
    (s.setNode n nd).buckets = s.buckets := rfl
@[simp] theorem setNode_waiters (n : NodeId) (nd : Option Node) :
    (s.setNode n nd).waiters = s.waiters := rfl
@[simp] theorem setNode_nodes (n k : NodeId) (nd : Option Node) :
    (s.setNode n nd).nodes k = if k = n then nd else s.nodes k := rfl
@[simp] theorem setWaiter_nodes (w : WaiterId) (wt : Option Waiter) :
    (s.setWaiter w wt).nodes = s.nodes := rfl
@[simp] theorem setWaiter_threads (w : WaiterId) (wt : Option Waiter) :
    (s.setWaiter w wt).threads = s.threads := rfl
@[simp] theorem setWaiter_waiters (w k : WaiterId) (wt : Option Waiter) :
    (s.setWaiter w wt).waiters k = if k = w then wt else s.waiters k := rfl
@[simp] theorem setThread_waiters (p : ThreadId) (t : Option Thread) :
    (s.setThread p t).waiters = s.waiters := rfl
@[simp] theorem setThread_slots (p : ThreadId) (t : Option Thread) :
    (s.setThread p t).slots = s.slots := rfl
@[simp] theorem setThread_threads (p k : ThreadId) (t : Option Thread) :
    (s.setThread p t).threads k = if k = p then t else s.threads k := rfl
@[simp] theorem setBucket_nodes (b : Nat) (l : List NodeId) : (s.setBucket b l).nodes = s.nodes :=
    rfl
@[simp] theorem setBucket_buckets (b k : Nat) (l : List NodeId) :
    (s.setBucket b l).buckets k = if k = b then l else s.buckets k := rfl

end Updates

section Queues

variable {s : FutexState}

variable {w : WaiterId} {n : NodeId} {s' : FutexState} {key owner : Nat} {nd : Node} {wt : Waiter}

theorem Names.unique {m : NodeId} (h : Names s w n) (h' : Names s w m) : n = m := by
  obtain ⟨wt, hw, hn⟩ := h
  obtain ⟨wt', hw', hm⟩ := h'
  obtain rfl := mem_unique hw hw'
  rw [hn] at hm
  injection hm

/-- The part of `Queues` that is about keys. -/
theorem Queues.of_keys (h : Queues s) (hb : s'.buckets = s.buckets)
    (hk : ∀ n, keyOf s' n = keyOf s n) (hl : ∀ n w, OnList s' n w ↔ Names s' w n)
    (hd : ∀ n nd, s'.nodes n = some nd → nd.waiters.Nodup) : Queues s' := by
  refine ⟨?_, ?_, ?_, hl, hd⟩
  · intro b n
    rw [hb, hk]
    exact h.bucket b n
  · rw [hb]
    exact h.bucketNodup
  · intro n n' k hn hn'
    rw [hk] at hn hn'
    exact h.unique n n' k hn hn'

/-- A change that concerns neither the table nor the `node` fields. -/
theorem Queues.of_same (h : Queues s) (hb : s'.buckets = s.buckets) (hn : s'.nodes = s.nodes)
    (hw : ∀ w n, Names s' w n ↔ Names s w n) : Queues s' := by
  refine h.of_keys hb ?_ ?_ ?_
  · intro n
    unfold keyOf
    rw [hn]
  · intro n w
    rw [hw, ← h.listed]
    unfold OnList
    rw [hn]
  · rw [hn]
    exact h.nodup

/-- The search finds the node of the key and the owner, if there is one. -/
theorem findNode_some (h : futexFindNode s key owner = some n) :
    ∃ nd, s.nodes n = some nd ∧ nd.key = key ∧ nd.owner = owner := by
  have hp := find?_some h
  cases hn : s.nodes n with
  | none => simp [hn] at hp
  | some nd =>
    simp only [hn, Bool.and_eq_true, beq_iff_eq] at hp
    exact ⟨nd, rfl, hp.1, hp.2⟩

section

variable (hq : Queues s)

include hq

theorem findNode_none (h : futexFindNode s key owner = none) (n : NodeId) :
    keyOf s n ≠ some (key, owner) := by
  intro hk
  have hmem : n ∈ s.buckets (futexHash key owner) := (hq.bucket _ n).mpr ⟨(key, owner), hk, rfl⟩
  have hno := find?_eq_none.mp h n hmem
  unfold keyOf at hk
  cases hn : s.nodes n with
  | none => rw [hn] at hk; cases hk
  | some nd =>
    rw [hn] at hk
    injection hk with hk
    injection hk with h1 h2
    simp [hn, h1, h2] at hno

/-! ## Nodes come and go -/

/-- One node comes or goes, without waiters. -/
theorem Queues.rekey (hothers : ∀ m, m ≠ n → s'.nodes m = s.nodes m) (hw : s'.waiters = s.waiters)
    (hlist : ∀ w, ¬ OnList s' n w ∧ ¬ OnList s n w)
    (hbucket : ∀ b m, m ∈ s'.buckets b ↔ if m = n then ∃ k, keyOf s' n = some k
    ∧ futexHash k.1 k.2 = b else m ∈ s.buckets b) (hnodup : ∀ b, (s'.buckets b).Nodup)
    (hunique : ∀ m k, keyOf s' n = some k → keyOf s m = some k → m = n) : Queues s' := by
  have hkey : ∀ m, m ≠ n → keyOf s' m = keyOf s m := by
    intro m hm
    unfold keyOf
    rw [hothers m hm]
  refine ⟨?_, hnodup, ?_, ?_, ?_⟩
  · intro b m
    rw [hbucket]
    by_cases hm : m = n
    · rw [if_pos hm, hm]
    · rw [if_neg hm, hkey m hm]
      exact hq.bucket b m
  · intro m m' k hm hm'
    by_cases h1 : m = n <;> by_cases h2 : m' = n
    · rw [h1, h2]
    · rw [h1] at hm
      rw [hkey m' h2] at hm'
      exact absurd (hunique m' k hm hm') h2
    · rw [h2] at hm'
      rw [hkey m h1] at hm
      exact absurd (hunique m k hm' hm) h1
    · rw [hkey m h1] at hm
      rw [hkey m' h2] at hm'
      exact hq.unique m m' k hm hm'
  · intro m w
    have hnames : Names s' w m ↔ Names s w m := by
      unfold Names
      rw [hw]
    rw [hnames, ← hq.listed]
    by_cases hm : m = n
    · rw [hm]
      exact iff_of_false (hlist w).1 (hlist w).2
    · unfold OnList
      rw [hothers m hm]
  · intro m nd hnd
    by_cases hm : m = n
    · rw [hm] at hnd
      rw [eq_nil_iff_forall_not_mem.mpr fun w hmem => (hlist w).1 ⟨nd, hnd, hmem⟩]
      exact nodup_nil
    · rw [hothers m hm] at hnd
      exact hq.nodup m nd hnd

theorem queues_create (hfresh : s.nodes n = none) (hnone : ∀ m, keyOf s m ≠ some (key, owner)) :
    Queues ((s.setNode n (some ⟨key, owner, []⟩)).setBucket (futexHash key owner)
      (n :: s.buckets (futexHash key owner))) := by
  have hnew : ∀ b, n ∉ s.buckets b := by
    intro b hmem
    obtain ⟨k, hk, -⟩ := (hq.bucket b n).mp hmem
    simp [keyOf, hfresh] at hk
  refine hq.rekey (n := n) ?_ rfl ?_ ?_ ?_ ?_
  · intro m hm
    simp [hm]
  · simp [OnList, hfresh]
  · intro b m
    rw [setBucket_buckets]
    by_cases hm : m = n
    · subst hm
      by_cases hb : b = futexHash key owner
      · simp [keyOf, hb]
      · simp [keyOf, hb, Ne.symm hb, hnew b]
    · split
      next hb => rw [hb]; simp [hm]
      next => rfl
  · intro b
    rw [setBucket_buckets]
    split
    · exact nodup_cons.mpr ⟨hnew _, hq.bucketNodup _⟩
    · exact hq.bucketNodup b
  · intro m k hk hm
    have hkey : (key, owner) = k := by simpa [keyOf] using hk
    exact absurd (hkey ▸ hm) (hnone m)

/-- What `futex_find_node(key, owner, 1)` leaves. -/
structure FoundNode (s s' : FutexState) (n : NodeId) (key owner : Nat) : Prop where
  queues : Queues s'
  noEmpty : ∀ X, NoEmpty s X → NoEmpty s' (insert n X)
  node : ∃ nd, s'.nodes n = some nd ∧ nd.key = key ∧ nd.owner = owner
  others : ∀ m, m ≠ n → s'.nodes m = s.nodes m
  kept : ∀ nd, s.nodes n = some nd → s'.nodes n = some nd
  waiters : s'.waiters = s.waiters
  threads : s'.threads = s.threads
  slots : s'.slots = s.slots

theorem findOrCreate_cases {fresh : Option NodeId} (key owner : Nat)
    (hfresh : ∀ n, fresh = some n → s.nodes n = none) :
    (fresh = none ∧ futexFindOrCreate fresh s key owner = (none, s))
      ∨ ∃ n s', futexFindOrCreate fresh s key owner = (some n, s')
      ∧ FoundNode s s' n key owner := by
  unfold futexFindOrCreate
  cases hfind : futexFindNode s key owner with
  | some n =>
    refine .inr ⟨n, s, rfl, hq, ?_, findNode_some hfind, fun _ _ => rfl,
      fun _ h => h, rfl, rfl, rfl⟩
    intro X hne
    exact hne.mono (Set.subset_insert n X)
  | none =>
    cases fresh with
    | none => exact .inl ⟨rfl, rfl⟩
    | some n =>
      have hn := hfresh n rfl
      refine .inr ⟨n, _, rfl, queues_create hq hn (findNode_none hq hfind), ?_, ?_, ?_, ?_, rfl,
        rfl, rfl⟩
      · intro X hne m nd hm hnd
        rw [Set.mem_insert_iff, not_or] at hm
        simp only [setBucket_nodes, setNode_nodes, hm.1, if_false] at hnd
        exact hne m nd hm.2 hnd
      · exact ⟨⟨key, owner, []⟩, by simp, rfl, rfl⟩
      · intro m hm
        simp [hm]
      · intro nd hnd
        rw [hn] at hnd
        cases hnd

/-- A node without waiters is taken out of its bucket and freed; any other one stays. -/
structure DroppedNode (s s' : FutexState) (n : NodeId) : Prop where
  queues : Queues s'
  noEmpty : ∀ X, NoEmpty s X → NoEmpty s' (X \ {n})
  waiters : s'.waiters = s.waiters
  threads : s'.threads = s.threads
  slots : s'.slots = s.slots

theorem queues_drop (hn : s.nodes n = some nd) (hempty : nd.waiters = []) :
    Queues ((s.setBucket (futexHash nd.key nd.owner)
      ((s.buckets (futexHash nd.key nd.owner)).erase n)).setNode n none) := by
  refine hq.rekey (n := n) ?_ rfl ?_ ?_ ?_ ?_
  · intro m hm
    simp [hm]
  · simp [OnList, hn, hempty]
  · intro b m
    simp only [setNode_buckets, setBucket_buckets, keyOf, setNode_nodes, if_true, map_none]
    split
    next hb => simp [hb, (hq.bucketNodup _).mem_erase_iff]
    next hb =>
    by_cases hm : m = n
    · subst hm
      simp only [if_true, reduceCtorEq, false_and, exists_false, iff_false]
      intro hmem
      obtain ⟨k, hk, hkb⟩ := (hq.bucket b m).mp hmem
      simp only [keyOf, hn, map_some, some.injEq] at hk
      exact hb (by rw [← hkb, ← hk])
    · rw [if_neg hm]
  · intro b
    simp only [setNode_buckets, setBucket_buckets]
    split
    · exact (hq.bucketNodup _).erase n
    · exact hq.bucketNodup b
  · intro m k hk
    simp [keyOf] at hk

theorem dropEmpty_some (n : NodeId) : DroppedNode s (futexDropEmpty s (some n)) n := by
  unfold futexDropEmpty
  dsimp only
  cases hn : s.nodes n with
  | none =>
    refine ⟨hq, ?_, rfl, rfl, rfl⟩
    intro X hne m nd hx hm
    refine hne m nd (fun hmX => hx ⟨hmX, ?_⟩) hm
    rintro rfl
    rw [hm] at hn
    cases hn
  | some nd =>
    dsimp only
    split
    next hwait =>
      refine ⟨hq, ?_, rfl, rfl, rfl⟩
      intro X hne m nd' hx hm
      by_cases hmn : m = n
      · subst hmn
        have hm := mem_unique hn hm
        exact hm ▸ hwait
      · exact hne m nd' (fun hmX => hx ⟨hmX, hmn⟩) hm
    next hwait =>
      have hempty : nd.waiters = [] := by simpa using hwait
      have hmem : n ∈ s.buckets (futexHash nd.key nd.owner) :=
        (hq.bucket _ n).mpr ⟨(nd.key, nd.owner), by simp [keyOf, hn], rfl⟩
      rw [if_pos hmem]
      refine ⟨queues_drop hq hn hempty, ?_, rfl, rfl, rfl⟩
      intro X hne m nd' hx hm
      simp only [setNode_nodes, setBucket_nodes] at hm
      split at hm
      · cases hm
      next hmn => exact hne m nd' (fun hmX => hx ⟨hmX, hmn⟩) hm

/-! ## Waiters come and go -/

/-- The waiter `w` is on no list afterwards, and nothing else has changed in the queues. -/
structure Unlinked (s s' : FutexState) (w : WaiterId) (wt : Waiter) : Prop where
  queues : Queues s'
  noEmpty : ∀ X, NoEmpty s X → NoEmpty s' (X ∪ {n | wt.node = some n})
  others : ∀ m, wt.node ≠ some m → s'.nodes m = s.nodes m
  node : ∀ n nd, wt.node = some n → s.nodes n = some nd →
    s'.nodes n = some { nd with waiters := nd.waiters.erase w }
  self : s'.waiters w = some { wt with node := none }
  waiters : ∀ x, x ≠ w → s'.waiters x = s.waiters x
  threads : s'.threads = s.threads
  slots : s'.slots = s.slots

/-- A node gets another list and a waiter other fields, so that the two agree. -/
theorem Queues.relist (hn : s.nodes n = some nd) {l : List WaiterId} {wt' : Waiter} (hd : l.Nodup)
    (hl : ∀ m x, (if m = n then x ∈ l else OnList s m x) ↔
      if x = w then wt'.node = some m else Names s x m) :
    Queues ((s.setNode n (some { nd with waiters := l })).setWaiter w (some wt')) := by
  refine hq.of_keys rfl ?_ ?_ ?_
  · intro m
    simp only [keyOf, setWaiter_nodes, setNode_nodes]
    split
    next hm => rw [hm, hn]; rfl
    next => rfl
  · intro m x
    refine Iff.trans ?_ ((hl m x).trans ?_)
    · simp only [OnList, setWaiter_nodes, setNode_nodes]
      split <;> simp
    · simp only [Names, setWaiter_waiters, setNode_waiters]
      split <;> simp
  · intro m nd' hm
    simp only [setWaiter_nodes, setNode_nodes] at hm
    split at hm
    · injection hm with hm
      rw [← hm]
      exact hd
    · exact hq.nodup m nd' hm

theorem queues_unlink (hw : s.waiters w = some wt) (hnode : wt.node = some n)
    (hn : s.nodes n = some nd) :
    Queues ((s.setNode n (some { nd with waiters := nd.waiters.erase w })).setWaiter w
      (some { wt with node := none })) := by
  refine hq.relist hn ((hq.nodup n nd hn).erase w) fun m x => ?_
  have hon : (if m = n then x ∈ nd.waiters.erase w else OnList s m x) ↔ OnList s m x
      ∧ ¬ (x = w ∧ m = n) := by
    split
    next hm => simp [hm, OnList, hn, (hq.nodup n nd hn).mem_erase_iff, and_comm]
    next hm => simp [hm]
  rw [hon, hq.listed]
  split
  next hx =>
    -- a waiter names one node only
    refine iff_of_false (fun h => h.2 ⟨hx, h.1.unique ?_⟩) nofun
    rw [hx]
    exact ⟨wt, hw, hnode⟩
  next hx => simp [hx]

theorem unlinkWaiter_spec (hw : s.waiters w = some wt) :
    Unlinked s (futexUnlinkWaiter s w) w wt := by
  unfold futexUnlinkWaiter
  rw [hw]
  dsimp only
  cases hnode : wt.node with
  | none =>
    refine ⟨hq, ?_, fun _ _ => rfl, ?_, ?_, fun _ _ => rfl, rfl, rfl⟩
    · exact fun X hne => hne.mono Set.subset_union_left
    · rw [hnode]
      intro n nd h
      cases h
    · rw [hw, ← hnode]
  | some n =>
    obtain ⟨nd, hn, hmem⟩ := (hq.listed n w).mpr ⟨wt, hw, hnode⟩
    simp only [hn]
    refine ⟨queues_unlink hq hw hnode hn, ?_, ?_, ?_, ?_, ?_, rfl, rfl⟩
    · intro X hne m nd' hm hnd
      have hmn : m ≠ n := fun h => hm (.inr (by rw [h]; exact hnode))
      simp only [setWaiter_nodes, setNode_nodes, hmn, if_false] at hnd
      exact hne m nd' (fun hmX => hm (.inl hmX)) hnd
    · intro m hm
      rw [hnode] at hm
      have hmn : m ≠ n := fun h => hm (by rw [h])
      simp [hmn]
    · intro m nd' hm hnd
      obtain rfl := mem_unique hnode hm
      have hnd := mem_unique hn hnd
      simp [hnd]
    · simp
    · intro x hx
      simp [hx]

/-- The waiter `w`, which was on no list, is on the list of `n` afterwards. -/
structure Pushed (s s' : FutexState) (n : NodeId) (w : WaiterId) (wt : Waiter) : Prop where
  queues : Queues s'
  noEmpty : ∀ X, NoEmpty s X → NoEmpty s' (X \ {n})
  node : ∀ nd, s.nodes n = some nd → s'.nodes n = some { nd with waiters := w :: nd.waiters }
  self : s'.waiters w = some { wt with node := some n }
  waiters : ∀ x, x ≠ w → s'.waiters x = s.waiters x
  threads : s'.threads = s.threads
  slots : s'.slots = s.slots

theorem pushWaiter_spec (hn : s.nodes n = some nd) (w : WaiterId) (wt : Waiter)
    (hw : ∀ m, ¬ Names s w m) :
    Pushed s (pushWaiter s n w wt) n w wt := by
  have hnot : ∀ m, ¬ OnList s m w := fun m h => hw m ((hq.listed m w).mp h)
  unfold pushWaiter
  rw [hn]
  refine ⟨?_, ?_, ?_, ?_, ?_, rfl, rfl⟩
  · refine hq.relist hn (nodup_cons.mpr ⟨fun h => hnot n ⟨nd, hn, h⟩, hq.nodup n nd hn⟩)
      fun m x => ?_
    rw [← hq.listed]
    by_cases hx : x = w
    · subst hx
      by_cases hm : m = n
      · simp [hm]
      · simp [hm, hnot m, Ne.symm hm]
    · by_cases hm : m = n
      · simp [hm, hx, OnList, hn]
      · simp [hm, hx]
  · intro X hne m nd' hx hm
    simp only [setWaiter_nodes, setNode_nodes] at hm
    split at hm
    · injection hm with hm
      rw [← hm]
      exact cons_ne_nil _ _
    next hmn => exact hne m nd' (fun hmX => hx ⟨hmX, hmn⟩) hm
  · intro nd' hnd
    have hnd := mem_unique hn hnd
    simp [hnd]
  · simp
  · intro x hx
    simp [hx]

/-- A waiter that is on no list is freed, or takes fields that are not about queues. -/
theorem Queues.setWaiter_off (hw : ∀ m, ¬ Names s w m) {wt : Option Waiter}
    (hnew : ∀ x, wt = some x → x.node = none) : Queues (s.setWaiter w wt) := by
  refine hq.of_same rfl rfl ?_
  intro x m
  by_cases hx : x = w
  · subst hx
    simp only [hw m, iff_false]
    rintro ⟨y, hy, hm⟩
    simp only [setWaiter_waiters, if_true] at hy
    rw [hnew y hy] at hm
    cases hm
  · simp [Names, hx]

end

theorem Unlinked.off (h : Unlinked s s' w wt) (m : NodeId) : ¬ Names s' w m := by
  rintro ⟨x, hx, hm⟩
  have hx := mem_unique h.self hx
  rw [← hx] at hm
  cases hm

end Queues

end AxonOS.Futex

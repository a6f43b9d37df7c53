import AxonOS.Ipc.Pipe
import AxonOS.Lib.Run

/-! # Blocked readers and writers

A thread that blocks in `pipe_read_bytes` or `pipe_write_bytes` has registered in the same section,
and whoever changes what it waits for unblocks the registered thread. So a blocked thread is not
forgotten as long as it stays the registered one (`Waits`), which it does until another thread
blocks in the same function: the pipe has one place for either.
-/

namespace AxonOS.Ipc

open Lib

variable {β : Type} {s : St β}

/-! ## The invariant -/

/-- The thread waits for something that has not happened, and the pipe knows it. -/
inductive Waits (s : St β) (t : Nat) : Prop
  | reader (hdoing : (s.doing t).isReading = true) (hreg : s.pipe.readerWaiter = some t)
      (hused : s.pipe.ring.used = 0) (hends : 2 ≤ s.pipe.refcount)
  | writer (hdoing : (s.doing t).isWriting = true) (hreg : s.pipe.writerWaiter = some t)
      (hfree : s.pipe.ring.free = 0) (hends : 2 ≤ s.pipe.refcount)

/-- Every blocked thread waits. -/
def Covered (s : St β) : Prop := ∀ t, s.blocked t = true → Waits s t

/-- A blocking read that finds the ring empty, or a blocking write that finds it full, with both
ends open. -/
inductive MustBlock (s : St β) (t : Nat) : Prop
  | reader {cnt : Nat} (hdoing : s.doing t = .reading cnt false) (hused : s.pipe.ring.used = 0)
      (hends : 2 ≤ s.pipe.refcount)
  | writer {call : Nat} {w : WriteCall β} (hdoing : s.doing t = .writing call)
      (hcall : s.writes[call]? = some w) (hmode : w.nonblock = false) (hfree : s.pipe.ring.free = 0)
      (hends : 2 ≤ s.pipe.refcount)

/-- When a thread has to block, no other thread is blocked in the same function. -/
def Alone (s : St β) (op : Op β) : Prop :=
  ∀ t t', op = .run t → s.blocked t = false → MustBlock s t → t' ≠ t → s.blocked t' = true →
    (s.doing t').isReading ≠ (s.doing t).isReading

variable {t call : Nat} {ret : Int} {w : WriteCall β}

theorem Waits.not_idle (h : Waits s t) : s.doing t ≠ .idle ret := by
  intro hidle
  cases h with
  | reader hdoing => simp [hidle, Doing.isReading] at hdoing
  | writer hdoing => simp [hidle, Doing.isWriting] at hdoing

theorem Waits.congr {s' : St β} (h : Waits s t) (hpipe : s'.pipe = s.pipe)
    (hdoing : s'.doing t = s.doing t) : Waits s' t := by
  cases h with
  | reader h1 h2 h3 h4 => exact .reader (hdoing ▸ h1) (hpipe ▸ h2) (hpipe ▸ h3) (hpipe ▸ h4)
  | writer h1 h2 h3 h4 => exact .writer (hdoing ▸ h1) (hpipe ▸ h2) (hpipe ▸ h3) (hpipe ▸ h4)

theorem Doing.isWriting_eq_false {d : Doing} (h : d.isReading = true) : d.isWriting = false := by
  cases d <;> first | rfl | cases h

section

variable (h : Covered s)

include h

theorem Covered.setDoing (d : Doing) (ht : s.blocked t = false) : Covered (s.setDoing t d) := by
  intro x hx
  have hne : x ≠ t := by
    rintro rfl
    exact Bool.false_ne_true (ht.symm.trans hx)
  exact (h x hx).congr rfl (by simp [St.setDoing, hne])

theorem Covered.threadUnblock (t : Nat) : Covered (s.threadUnblock t) := by
  intro x hx
  have hblocked : s.blocked x = true := by
    simp only [St.threadUnblock] at hx
    split at hx
    · cases hx
    · exact hx
  exact (h x hblocked).congr rfl rfl

/-! ## Sections -/

/-- Bytes leave the ring: nobody waits for bytes, and the waiting writer is woken. -/
theorem Covered.get (hused : 0 < s.pipe.ring.used) (n : Nat) : Covered (s.get n).wakeWriter := by
  intro x hx
  simp only [wakeWriter_eq, St.get] at hx
  split at hx
  · cases hx
  next hreg =>
    cases h x hx with
    | reader _ _ h3 => omega
    | writer _ h2 => exact absurd h2 hreg

/-- Bytes go into the ring: nobody waits for room, and the waiting reader is woken. -/
theorem Covered.put (hfree : 0 < s.pipe.ring.free) (call : Nat) (w : WriteCall β) (piece : List β) :
    Covered (s.put call w piece).wakeReader := by
  intro x hx
  simp only [wakeReader_eq, St.put] at hx
  split at hx
  · cases hx
  next hreg =>
    cases h x hx with
    | reader _ h2 => exact absurd h2 hreg
    | writer _ _ h3 => omega

theorem covered_finish (ht : s.blocked t = false) : Covered (s.finish t call w ret) := by
  refine Covered.setDoing (fun x hx => ?_) _ ht
  exact (h x hx).congr rfl rfl

theorem covered_writePiece (ht : s.blocked t = false) (hfree : 0 < s.pipe.ring.free) (n : Nat) :
    Covered (s.writePiece t call w n) := by
  have hput := h.put hfree call w ((w.data.drop w.written).take n)
  unfold St.writePiece
  split
  · exact hput
  · refine covered_finish hput ?_
    simp [St.put, ht]

/-- The last reader that blocks is the only one. -/
theorem covered_blockReader (hdoing : (s.doing t).isReading = true) (hused : s.pipe.ring.used = 0)
    (hends : 2 ≤ s.pipe.refcount)
    (halone : ∀ t', t' ≠ t → s.blocked t' = true → (s.doing t').isReading = false) :
    Covered ({ s with pipe := { s.pipe with readerWaiter := some t } }.threadBlock t) := by
  intro x hx
  by_cases hxt : x = t
  · subst hxt
    exact .reader hdoing rfl hused hends
  have hblocked : s.blocked x = true := by simpa [St.threadBlock, hxt] using hx
  cases h x hblocked with
  | reader h1 =>
    rw [halone x hxt hblocked] at h1
    cases h1
  | writer h1 h2 h3 h4 => exact .writer h1 h2 h3 h4

theorem covered_blockWriter (hdoing : (s.doing t).isWriting = true) (hfree : s.pipe.ring.free = 0)
    (hends : 2 ≤ s.pipe.refcount)
    (halone : ∀ t', t' ≠ t → s.blocked t' = true → (s.doing t').isReading = true) :
    Covered ({ s with pipe := { s.pipe with writerWaiter := some t } }.threadBlock t) := by
  intro x hx
  by_cases hxt : x = t
  · subst hxt
    exact .writer hdoing rfl hfree hends
  have hblocked : s.blocked x = true := by simpa [St.threadBlock, hxt] using hx
  cases h x hblocked with
  | reader h1 h2 h3 h4 => exact .reader h1 h2 h3 h4
  | writer h1 =>
    rw [Doing.isWriting_eq_false (halone x hxt hblocked)] at h1
    cases h1

end

theorem covered_readSection {cnt : Nat} {nonblock : Bool} (h : Covered s) (ht : s.blocked t = false)
    (hdoing : s.doing t = .reading cnt nonblock)
    (halone : MustBlock s t → ∀ t', t' ≠ t → s.blocked t' = true →
      (s.doing t').isReading ≠ (s.doing t).isReading) : Covered (s.readSection t cnt nonblock) := by
  unfold St.readSection
  dsimp only
  split
  next hused =>
    refine (h.get hused _).setDoing _ ?_
    simp [St.get, ht]
  next hused =>
    split
    · exact h.setDoing _ ht
    next hends =>
    cases nonblock with
    | true => exact h.setDoing _ ht
    | false =>
      refine covered_blockReader h (by rw [hdoing]; rfl) (by omega) (by omega) ?_
      intro t' hne hblocked
      have := halone (.reader hdoing (by omega) (by omega)) t' hne hblocked
      rw [hdoing] at this
      simpa [Doing.isReading] using this

theorem covered_writeSection (h : Covered s) (ht : s.blocked t = false)
    (hdoing : s.doing t = .writing call) (hcall : s.writes[call]? = some w)
    (halone : MustBlock s t → ∀ t', t' ≠ t → s.blocked t' = true →
      (s.doing t').isReading ≠ (s.doing t).isReading) : Covered (s.writeSection t call w) := by
  unfold St.writeSection
  dsimp only
  split
  · exact covered_finish h ht
  next hends =>
  split
  next hfree => exact covered_writePiece h ht hfree _
  next hfree =>
  split
  · exact covered_finish h ht
  next hmode =>
  refine covered_blockWriter h (by rw [hdoing]; rfl) (by omega) (by omega) ?_
  intro t' hne hblocked
  have := halone (.writer hdoing hcall (Bool.eq_false_of_not_eq_true hmode) (by omega) (by omega))
    t' hne hblocked
  rw [hdoing] at this
  simpa [Doing.isReading] using this

theorem covered_releaseEnd (h : Covered s) : Covered s.releaseEnd := by
  intro x hx
  simp only [St.releaseEnd, wakeWriter_eq, wakeReader_eq] at hx
  split at hx
  · cases hx
  next hwriter =>
  split at hx
  · cases hx
  next hreader =>
    cases h x hx with
    | reader _ h2 => exact absurd h2 hreader
    | writer _ h2 => exact absurd h2 hwriter

/-! ## Runs -/

theorem not_blocked_of_idle (h : Covered s) (hidle : s.doing t = .idle ret) :
    s.blocked t = false := by
  by_contra hblocked
  rw [Bool.not_eq_false] at hblocked
  exact (h t hblocked).not_idle hidle

theorem covered_step (op : Op β) (h : Covered s) (halone : Alone s op) : Covered (s.step op) := by
  cases op with
  | read t cnt nonblock =>
    simp only [St.step, St.startRead]
    split
    next ret hidle => exact h.setDoing _ (not_blocked_of_idle h hidle)
    next => exact h
  | write t data nonblock =>
    simp only [St.step, St.startWrite]
    split
    next ret hidle =>
      have ht := not_blocked_of_idle h hidle
      split
      · exact h.setDoing _ ht
      · refine Covered.setDoing (fun x hx => ?_) _ ht
        exact (h x hx).congr rfl rfl
    next => exact h
  | run t =>
    have hrun := halone t
    simp only [St.step, St.runThread]
    cases ht : s.blocked t with
    | true => simpa using h
    | false =>
      cases hdoing : s.doing t with
      | idle ret => simpa using h
      | reading cnt nonblock =>
        simp only [Bool.false_eq_true, if_false]
        exact covered_readSection h ht hdoing fun hmust t' => hrun t' rfl ht hmust
      | writing call =>
        cases hw : s.writes[call]? with
        | none => simpa [hw] using h
        | some w =>
          simp only [hw, Bool.false_eq_true, if_false]
          exact covered_writeSection h ht hdoing hw fun hmust t' => hrun t' rfl ht hmust
  | releaseEnd => exact covered_releaseEnd h
  | unblock t => exact h.threadUnblock t

/-- **No blocked thread is forgotten** in a run in which no thread has to block while another one is
blocked in the same function: whoever is blocked has nothing to read, or no room to write, and both
ends are open. -/
theorem blocked_has_to_wait (cell : Nat → β) (ops : List (Op β))
    (h : RunMeets St.step Alone (St.init cell) ops) (t : Nat)
    (hblocked : ((St.init cell).exec ops).blocked t = true) :
    ((((St.init cell).exec ops).doing t).isReading = true →
          ((St.init cell).exec ops).pipe.ring.used = 0
          ∧ 2 ≤ ((St.init cell).exec ops).pipe.refcount)
      ∧ ((((St.init cell).exec ops).doing t).isWriting = true →
          ((St.init cell).exec ops).pipe.ring.free = 0
          ∧ 2 ≤ ((St.init cell).exec ops).pipe.refcount) := by
  have hinit : Covered (St.init cell) := fun x hx => Bool.noConfusion hx
  have hcovered : Covered ((St.init cell).exec ops) :=
    run_invariant (fun s op hs => covered_step op hs) hinit h
  cases hcovered t hblocked with
  | reader hdoing _ hused hends =>
    refine ⟨fun _ => ⟨hused, hends⟩, fun hwriting => ?_⟩
    rw [Doing.isWriting_eq_false hdoing] at hwriting
    cases hwriting
  | writer hdoing _ hfree hends =>
    refine ⟨fun hreading => ?_, fun _ => ⟨hfree, hends⟩⟩
    rw [Doing.isWriting_eq_false hreading] at hdoing
    cases hdoing

/-- A write, a read that finds its byte, and a read that blocks. -/
def writeReadRead : List (Op Nat) :=
  [.write 2 [7] false, .run 2, .read 1 4 false, .run 1, .read 1 4 false, .run 1]

theorem alone_of_none_blocked {op : Op β} (h : ∀ t', s.blocked t' = false) : Alone s op := by
  intro t t' _ _ _ _ hblocked
  rw [h t'] at hblocked
  cases hblocked

theorem blocked_after_writeReadRead : ((St.init fun _ => 0).exec writeReadRead).blocked 1 = true
      ∧ ((St.init fun _ => 0).exec writeReadRead).out = [7]
      ∧ ((St.init fun _ => 0).exec writeReadRead).pipe.ring.used = 0 := by
  have halone : RunMeets St.step Alone (St.init fun _ => 0) writeReadRead := by
    unfold writeReadRead
    repeat rw [runMeets_cons]
    refine ⟨?_, ?_, ?_, ?_, ?_, ?_, runMeets_nil _⟩ <;> exact alone_of_none_blocked fun _ => rfl
  exact ⟨rfl, rfl, ((blocked_has_to_wait _ _ halone 1 rfl).1 rfl).1⟩

/-- Two readers, of which the second is registered; after the write only this one is woken. -/
def twoReaders : List (Op Nat) :=
  [.read 1 1 false, .read 2 1 false, .run 1, .run 2, .write 3 [5, 6] false, .run 3, .run 2]

/-- The first reader stays blocked, with a byte in the pipe and nobody else in a call. -/
theorem first_reader_forgotten : ((St.init fun _ => 0).exec twoReaders).blocked 1 = true
      ∧ ((St.init fun _ => 0).exec twoReaders).doing 1 = .reading 1 false
      ∧ ((St.init fun _ => 0).exec twoReaders).pipe.ring.used = 1
      ∧ ∀ t, t ≠ 1 → ∃ ret, ((St.init fun _ => 0).exec twoReaders).doing t = .idle ret := by
  refine ⟨by decide, by decide, by decide, fun t ht => ?_⟩
  -- the calls of 2 and 3 are over; the inner cases are what these threads did before
  change ∃ ret, (if t = 2 then Doing.idle 1 else if t = 3 then .idle 2 else if t = 3 then _
    else if t = 2 then _ else if t = 1 then _ else .idle 0) = Doing.idle ret
  split_ifs
  exacts [⟨1, rfl⟩, ⟨2, rfl⟩, ⟨0, rfl⟩]

end AxonOS.Ipc

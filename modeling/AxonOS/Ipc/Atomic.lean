import AxonOS.Ipc.Pipe
import AxonOS.Lib.Run
import AxonOS.Lib.SlotTable

/-! # Which writes stay in one piece

The books of a pipe (`Books`): what has left the ring and what is in it are, together, the pieces of
the log one after the other; the pieces of a call are the part of its data that it has written; and
it returns how much that is, or an error and nothing.

A section writes as much as there is room for, so a write may go in several pieces, with pieces of
others in between, whatever its length. A write of at most `PIPE_BUF_SIZE` bytes is in one piece if
each of its sections that finds some room finds enough for all that is left (`Fits`).
-/

namespace AxonOS.Ipc

open Lib List Option Nat

variable {β : Type} {s : St β}

/-! ## The books -/

/-- What a call may return: how much it has written, or an error. -/
def WriteCall.Returns (w : WriteCall β) (r : Int) : Prop :=
  (0 < w.written ∧ r = w.written) ∨ (w.written = 0 ∧ (r = -EAGAIN ∨ r = -EPIPE))

structure Books (s : St β) : Prop where
  order : s.out ++ s.pipe.ring.contents = (s.log.map Prod.snd).flatten
  known : ∀ e ∈ s.log, e.1 < s.writes.length
  bound : ∀ (c : Nat) (w : WriteCall β), s.writes[c]? = some w → 0 < w.data.length
      ∧ w.written ≤ w.data.length
  parts : ∀ (c : Nat) (w : WriteCall β), s.writes[c]? = some w →
      (s.pieces c).flatten = w.data.take w.written
  returned : ∀ (c : Nat) (w : WriteCall β) (r : Int), s.writes[c]? = some w →
      w.ret = some r → w.Returns r
  running : ∀ t c, s.doing t = .writing c → ∃ w, s.writes[c]? = some w ∧ w.ret = none
  apart : ∀ t t' c, s.doing t = .writing c → s.doing t' = .writing c → t = t'

/-- A call in progress has something left to write. -/
def Pending (s : St β) : Prop :=
  ∀ (t c : Nat) (w : WriteCall β), s.doing t = .writing c → s.writes[c]? = some w →
    w.written < w.data.length

variable {s' : St β} {c n t call x : Nat} {d : Doing} {data : List β} {w w' : WriteCall β} {r : Int}
    {nonblock : Bool}

/-- Waiters and blocked threads are not in the books. -/
theorem Books.wakeReader (h : Books s) : Books s.wakeReader := by
  rw [wakeReader_eq]
  exact { h with }

theorem Books.wakeWriter (h : Books s) : Books s.wakeWriter := by
  rw [wakeWriter_eq]
  exact { h with }

/-- A thread that writes after a change was writing before, if it is not in the call that has
changed. -/
theorem setDoing_writing (hd : d.isWriting = false) (h : (s.setDoing t d).doing x = .writing c) :
    x ≠ t ∧ s.doing x = .writing c := by
  simp only [St.setDoing] at h
  split at h
  · subst h
    cases hd
  next hne => exact ⟨hne, h⟩

theorem Books.setDoing (h : Books s) (t : Nat) (hd : d.isWriting = false) :
    Books (s.setDoing t d) where
  __ := h
  running x c hx := h.running x c (setDoing_writing hd hx).2
  apart x y c hx hy := h.apart x y c (setDoing_writing hd hx).2 (setDoing_writing hd hy).2

theorem Pending.setDoing (h : Pending s) (t : Nat) (hd : d.isWriting = false) :
    Pending (s.setDoing t d) := fun x c w hx => h x c w (setDoing_writing hd hx).2

/-- Bytes leave the ring in the order in which they came. -/
theorem Books.get (h : Books s) (hn : n ≤ s.pipe.ring.used) : Books (s.get n) where
  __ := h
  order := by
    have := h.order
    simp only [St.get]
    rw [RingBuf.take_eq hn, RingBuf.contents_drop hn, append_assoc, take_append_drop]
    exact this

/-! ## Writing -/

theorem pieces_put (s : St β) (call c : Nat) (w : WriteCall β) (piece : List β) :
    (s.put call w piece).pieces c = if c = call then s.pieces c ++ [piece] else s.pieces c := by
  simp only [St.pieces, St.put, filter_append, map_append]
  by_cases h : c = call
  · simp [h]
  · simp [h, Ne.symm h]

section Put

variable {t call n : Nat} {w : WriteCall β}

theorem length_piece (hn : n ≤ w.data.length - w.written) :
    ((w.data.drop w.written).take n).length = n := by
  rw [length_take, length_drop]
  omega

theorem put_writes_same (hw : s.writes[call]? = some w) (hn : n ≤ w.data.length - w.written) :
    (s.put call w ((w.data.drop w.written).take n)).writes[call]?
      = some { w with written := w.written + n } := by
  have hset := getElem?_set_eq hw { w with written := w.written + n }
  simpa only [St.put, length_piece hn] using hset

theorem put_cases (hn : n ≤ w.data.length - w.written)
    (h : (s.put call w ((w.data.drop w.written).take n)).writes[c]? = some w') :
    (c = call ∧ w' = { w with written := w.written + n })
    ∨ (c ≠ call ∧ s.writes[c]? = some w') := by
  simpa only [length_piece hn] using getElem?_set_cases h

theorem put_writes_other {c : Nat} (piece : List β) (h : c ≠ call) :
    (s.put call w piece).writes[c]? = s.writes[c]? := getElem?_set_ne (Ne.symm h)

/-- The next piece of a call goes behind all others. -/
theorem Books.put (h : Books s) (hw : s.writes[call]? = some w) (hret : w.ret = none)
    (hn : n ≤ w.data.length - w.written) (hfree : n ≤ s.pipe.ring.free) :
    Books (s.put call w ((w.data.drop w.written).take n)) := by
  have hlen := length_piece hn
  have hbound := (h.bound call w hw).2
  constructor
  · have := h.order
    simp only [St.put]
    rw [RingBuf.contents_push (by omega), ← append_assoc, this]
    simp
  · intro e he
    simp only [St.put, length_set, mem_append, mem_singleton] at he ⊢
    rcases he with he | rfl
    · exact h.known e he
    · exact lt_of_getElem? hw
  · intro c w' hw'
    rcases put_cases hn hw' with ⟨rfl, rfl⟩ | ⟨-, hw'⟩
    · refine ⟨(h.bound c w hw).1, ?_⟩
      change w.written + n ≤ w.data.length
      omega
    · exact h.bound c w' hw'
  · intro c w' hw'
    rw [pieces_put]
    rcases put_cases hn hw' with ⟨rfl, rfl⟩ | ⟨hc, hw'⟩
    · rw [if_pos rfl, flatten_append, h.parts c w hw, take_add]
      simp
    · rw [if_neg hc]
      exact h.parts c w' hw'
  · intro c w' r hw' hr
    rcases put_cases hn hw' with ⟨rfl, rfl⟩ | ⟨-, hw'⟩
    · cases hret.symm.trans hr
    · exact h.returned c w' r hw' hr
  · intro x c hx
    by_cases hc : c = call
    · subst hc
      exact ⟨_, put_writes_same hw hn, hret⟩
    · rw [put_writes_other _ hc]
      exact h.running x c hx
  · exact h.apart

theorem Books.finish (h : Books s) (hw : s.writes[call]? = some w) (ht : s.doing t = .writing call)
    (hr : w.Returns r) :
    Books (s.finish t call w r) := by
  have hdoing : ∀ x c, (s.finish t call w r).doing x = .writing c → c ≠ call
      ∧ s.doing x = .writing c := by
    intro x c hx
    have hold := setDoing_writing rfl hx
    refine ⟨?_, hold.2⟩
    rintro rfl
    exact hold.1 (h.apart x t c hold.2 ht)
  constructor
  · exact h.order
  · intro e he
    rw [show (s.finish t call w r).writes.length = s.writes.length from length_set]
    exact h.known e he
  · intro c w' hw'
    rcases getElem?_set_cases hw' with ⟨rfl, rfl⟩ | ⟨-, hw'⟩
    · exact h.bound c w hw
    · exact h.bound c w' hw'
  · intro c w' hw'
    rcases getElem?_set_cases hw' with ⟨rfl, rfl⟩ | ⟨-, hw'⟩
    · exact h.parts c w hw
    · exact h.parts c w' hw'
  · intro c w' r' hw' hr'
    rcases getElem?_set_cases hw' with ⟨rfl, rfl⟩ | ⟨-, hw'⟩
    · obtain rfl := some.inj hr'
      exact hr
    · exact h.returned c w' r' hw' hr'
  · intro x c hx
    obtain ⟨hc, hold⟩ := hdoing x c hx
    obtain ⟨w', hw', hret⟩ := h.running x c hold
    exact ⟨w', (getElem?_set_ne (Ne.symm hc)).trans hw', hret⟩
  · intro x y c hx hy
    exact h.apart x y c (hdoing x c hx).2 (hdoing y c hy).2

theorem Pending.finish (h : Pending s) (hb : Books s) (ht : s.doing t = .writing call) :
    Pending (s.finish t call w r) := by
  intro x c w' hx hw'
  have hold := setDoing_writing rfl hx
  rcases getElem?_set_cases hw' with ⟨rfl, -⟩ | ⟨-, hw'⟩
  · exact absurd (hb.apart x t c hold.2 ht) hold.1
  · exact h x c w' hold.2 hw'

/-- A call that returns has nothing pending. -/
theorem pending_put_finish {piece : List β} (h : Pending s) (hb : Books s)
    (ht : s.doing t = .writing call) :
    Pending ((s.put call w piece).wakeReader.finish t call w' r) := by
  intro x c w1 hx hw1
  rw [wakeReader_eq] at hx hw1
  have hold := setDoing_writing rfl hx
  rcases getElem?_set_cases hw1 with ⟨rfl, -⟩ | ⟨hc, hw1⟩
  · exact absurd (hb.apart x t c hold.2 ht) hold.1
  · rw [put_writes_other _ hc] at hw1
    exact h x c w1 hold.2 hw1

theorem writePiece_books (h : Books s) (hp : Pending s) (hw : s.writes[call]? = some w)
    (ht : s.doing t = .writing call) (hret : w.ret = none)
    (hn : n ≤ w.data.length - w.written) (hfree : n ≤ s.pipe.ring.free) :
    Books (s.writePiece t call w n) ∧ Pending (s.writePiece t call w n) := by
  have hwake := (h.put hw hret hn hfree).wakeReader
  have hpend := hp t call w ht hw
  unfold St.writePiece
  split
  next hmore =>
    refine ⟨hwake, fun x c w' hx hw' => ?_⟩
    rw [wakeReader_eq] at hx hw'
    rcases put_cases hn hw' with ⟨rfl, rfl⟩ | ⟨-, hw'⟩
    · exact hmore
    · exact hp x c w' hx hw'
  next hdone =>
    refine ⟨hwake.finish ?_ (by rw [wakeReader_eq]; exact ht) ?_, pending_put_finish hp h ht⟩
    · rw [wakeReader_eq]
      exact put_writes_same hw hn
    · refine .inl ⟨?_, rfl⟩
      change 0 < w.written + n
      omega

theorem stopped_returns {errno : Int} (w : WriteCall β) (h : errno = EAGAIN ∨ errno = EPIPE) :
    w.Returns (w.stopped errno) := by
  unfold WriteCall.Returns WriteCall.stopped
  split
  next hpos => exact .inl ⟨hpos, rfl⟩
  next hzero =>
    refine .inr ⟨by omega, ?_⟩
    rcases h with rfl | rfl
    · exact .inl rfl
    · exact .inr rfl

theorem amount_le (w : WriteCall β) (free : Nat) :
    (if w.data.length - w.written < free then w.data.length - w.written else free)
      ≤ w.data.length - w.written
      ∧ (if w.data.length - w.written < free then w.data.length - w.written else free) ≤ free := by
  split <;> omega

theorem writeSection_books (h : Books s) (hp : Pending s) (hw : s.writes[call]? = some w)
    (ht : s.doing t = .writing call) : Books (s.writeSection t call w)
    ∧ Pending (s.writeSection t call w) := by
  obtain ⟨w', hw', hret⟩ := h.running t call ht
  obtain rfl := some.inj (hw.symm.trans hw')
  unfold St.writeSection
  dsimp only
  split
  · exact ⟨h.finish hw ht (stopped_returns w (.inr rfl)), hp.finish h ht⟩
  · split
    · exact writePiece_books h hp hw ht hret (amount_le w _).1 (amount_le w _).2
    · split
      · exact ⟨h.finish hw ht (stopped_returns w (.inl rfl)), hp.finish h ht⟩
      · exact ⟨{ h with }, hp⟩

end Put

/-! ## Reading, and entering a call -/

theorem readSection_books (t cnt : Nat) (nonblock : Bool) (h : Books s) (hp : Pending s) :
    Books (s.readSection t cnt nonblock) ∧ Pending (s.readSection t cnt nonblock) := by
  unfold St.readSection
  dsimp only
  split
  · have hn : (if s.pipe.ring.used < cnt then s.pipe.ring.used else cnt) ≤ s.pipe.ring.used := by
      split <;> omega
    refine ⟨(h.get hn).wakeWriter.setDoing t rfl, Pending.setDoing ?_ t rfl⟩
    intro x c w hx hw
    rw [wakeWriter_eq] at hx hw
    exact hp x c w hx hw
  · split
    · exact ⟨h.setDoing t rfl, hp.setDoing t rfl⟩
    · split
      · exact ⟨h.setDoing t rfl, hp.setDoing t rfl⟩
      · exact ⟨{ h with }, hp⟩

theorem readSection_log (s : St β) (t cnt : Nat) (nonblock : Bool) :
    (s.readSection t cnt nonblock).log = s.log ∧ (s.readSection t cnt nonblock).writes
    = s.writes := by
  unfold St.readSection
  dsimp only
  split
  · simp [St.setDoing, St.get]
  · split
    · exact ⟨rfl, rfl⟩
    · split <;> exact ⟨rfl, rfl⟩

theorem Books.pieces_new (h : Books s) (hc : s.writes.length ≤ c) : s.pieces c = [] := by
  unfold St.pieces
  rw [map_eq_nil_iff, filter_eq_nil_iff]
  intro e he
  have := h.known e he
  simp only [decide_eq_true_eq]
  omega

/-- The state with one more call, which `t` makes. -/
def St.withCall (s : St β) (t : Nat) (data : List β) (nonblock : Bool) : St β :=
  { s with writes := s.writes ++ [WriteCall.mk data nonblock 0 none] }.setDoing t
    (.writing s.writes.length)

theorem withCall_doing (h : (s.withCall t data nonblock).doing x = .writing c) :
    (x = t ∧ c = s.writes.length) ∨ s.doing x = .writing c := by
  simp only [St.withCall, St.setDoing] at h
  split at h
  next heq => exact .inl ⟨heq, (Doing.writing.inj h).symm⟩
  next => exact .inr h

theorem withCall_writes (h : (s.withCall t data nonblock).writes[c]? = some w) :
    s.writes[c]? = some w ∨ (c = s.writes.length ∧ w = ⟨data, nonblock, 0, none⟩) := by
  simp only [St.withCall, St.setDoing] at h
  rcases lt_or_ge c s.writes.length with hc | hc
  · rw [getElem?_append_left hc] at h
    exact .inl h
  rw [getElem?_append_right hc] at h
  have hlt := lt_of_getElem? h
  simp only [length_singleton] at hlt
  have hzero : c - s.writes.length = 0 := by omega
  rw [hzero, getElem?_singleton] at h
  exact .inr ⟨by omega, (some.inj h).symm⟩

theorem Books.withCall (h : Books s) (t : Nat) (nonblock : Bool) (hdata : data.length ≠ 0) :
    Books (s.withCall t data nonblock) := by
  have hrunning : ∀ x c, s.doing x = .writing c → c < s.writes.length := by
    intro x c hx
    obtain ⟨w, hw, _⟩ := h.running x c hx
    exact lt_of_getElem? hw
  constructor
  · exact h.order
  · intro e he
    have := h.known e he
    simp only [St.withCall, St.setDoing, length_append, length_singleton]
    omega
  · intro c w hw
    rcases withCall_writes hw with hw | ⟨_, rfl⟩
    · exact h.bound c w hw
    · exact ⟨pos_of_ne_zero hdata, zero_le _⟩
  · intro c w hw
    rcases withCall_writes hw with hw | ⟨rfl, rfl⟩
    · exact h.parts c w hw
    · rw [show (s.withCall t data nonblock).pieces _ = s.pieces _ from rfl,
        h.pieces_new (le_refl _)]
      rfl
  · intro c w r hw hr
    rcases withCall_writes hw with hw | ⟨_, rfl⟩
    · exact h.returned c w r hw hr
    · cases hr
  · intro x c hx
    rcases withCall_doing hx with ⟨_, rfl⟩ | hx
    · exact ⟨⟨data, nonblock, 0, none⟩, by simp [St.withCall, St.setDoing], rfl⟩
    · obtain ⟨w, hw, hret⟩ := h.running x c hx
      refine ⟨w, ?_, hret⟩
      simp only [St.withCall, St.setDoing]
      rw [getElem?_append_left (hrunning x c hx)]
      exact hw
  · intro x y c hx hy
    rcases withCall_doing hx with ⟨hxt, hc⟩ | hx <;> rcases withCall_doing hy with ⟨hyt, hc'⟩ | hy
    · exact hxt.trans hyt.symm
    · have := hrunning y c hy
      omega
    · have := hrunning x c hx
      omega
    · exact h.apart x y c hx hy

theorem Pending.withCall (h : Pending s) (t : Nat) (nonblock : Bool) (hdata : data.length ≠ 0) :
    Pending (s.withCall t data nonblock) := by
  intro x c w hx hw
  rcases withCall_writes hw with hw | ⟨_, rfl⟩
  · rcases withCall_doing hx with ⟨_, rfl⟩ | hx
    · exact absurd (lt_of_getElem? hw) (lt_irrefl _)
    · exact h x c w hx hw
  · exact pos_of_ne_zero hdata

/-! ## Small writes -/

/-- The pieces of every small write are none, or its data as a whole. -/
def Whole (s : St β) : Prop :=
  ∀ (c : Nat) (w : WriteCall β), s.writes[c]? = some w → w.data.length ≤ PIPE_BUF_SIZE →
    s.pieces c = [] ∨ s.pieces c = [w.data]

/-- A section of a small write that finds some room finds enough for the rest of its data. -/
def Fits (s : St β) : Op β → Prop
  | .run t =>
    ∀ (c : Nat) (w : WriteCall β), s.blocked t = false → s.doing t = .writing c →
        s.writes[c]? = some w →
      w.data.length ≤ PIPE_BUF_SIZE → 2 ≤ s.pipe.refcount → 0 < s.pipe.ring.free →
        w.data.length - w.written ≤ s.pipe.ring.free
  | _ => True

/-- Nothing is added to the log, and the calls keep their data. -/
theorem Whole.of_log (h : Whole s) (hlog : s'.log = s.log)
    (hdata : ∀ (c : Nat) (w' : WriteCall β), s'.writes[c]? = some w' →
      ∃ w, s.writes[c]? = some w ∧ w.data = w'.data) : Whole s' := by
  intro c w' hw' hsmall
  obtain ⟨w, hw, heq⟩ := hdata c w' hw'
  have := h c w hw (by rw [heq]; exact hsmall)
  unfold St.pieces at this ⊢
  rwa [hlog, ← heq]

theorem Whole.congr (h : Whole s) (hlog : s'.log = s.log) (hwrites : s'.writes = s.writes) :
    Whole s' := by
  refine h.of_log hlog fun c w hw => ⟨w, ?_, rfl⟩
  rwa [hwrites] at hw

theorem set_data (w' : WriteCall β) (hw : s.writes[call]? = some w) (hdata : w'.data = w.data)
    (c : Nat) (w1 : WriteCall β) (h : (s.writes.set call w')[c]? = some w1) :
    ∃ w0, s.writes[c]? = some w0 ∧ w0.data = w1.data := by
  rcases getElem?_set_cases h with ⟨rfl, rfl⟩ | ⟨-, h⟩
  · exact ⟨w, hw, hdata.symm⟩
  · exact ⟨w1, h, rfl⟩

theorem Whole.finish (h : Whole s) (hw : s.writes[call]? = some w) (hdata : w'.data = w.data) :
    Whole (s.finish t call w' r) :=
  h.of_log rfl (set_data { w' with ret := some r } hw hdata)

section

variable (h : Whole s) (hb : Books s) (hw : s.writes[call]? = some w)

include h hb hw

/-- A small write that is not over has not begun. -/
theorem Whole.not_begun (hsmall : w.data.length ≤ PIPE_BUF_SIZE)
    (hpend : w.written < w.data.length) :
    s.pieces call = [] ∧ w.written = 0 := by
  have hparts := hb.parts call w hw
  rcases h call w hw hsmall with hnone | hall
  · refine ⟨hnone, ?_⟩
    rw [hnone] at hparts
    have := congrArg List.length hparts
    simp only [flatten_nil, length_nil, length_take] at this
    omega
  · rw [hall] at hparts
    have := congrArg List.length hparts
    simp only [flatten_cons, flatten_nil, append_nil, length_take] at this
    omega

theorem Whole.put (hpend : w.written < w.data.length)
    (hall : w.data.length ≤ PIPE_BUF_SIZE → w.data.length - w.written ≤ n) :
    Whole (s.put call w ((w.data.drop w.written).take n)) := by
  intro c w' hw' hsmall
  obtain ⟨w0, hw0, hdata⟩ := set_data { w with
    written := w.written + ((w.data.drop w.written).take n).length } hw rfl c w' hw'
  rw [pieces_put]
  split
  next hc =>
    subst hc
    obtain rfl := some.inj (hw.symm.trans hw0)
    rw [← hdata] at hsmall ⊢
    obtain ⟨hnone, hzero⟩ := h.not_begun hb hw hsmall hpend
    refine .inr ?_
    rw [hnone, hzero, drop_zero, take_of_length_le (by omega)]
    rfl
  next =>
    rw [← hdata] at hsmall ⊢
    exact h c w0 hw0 hsmall

theorem whole_writePiece (hpend : w.written < w.data.length) (hn : n ≤ w.data.length - w.written)
    (hall : w.data.length ≤ PIPE_BUF_SIZE → w.data.length - w.written ≤ n) :
    Whole (s.writePiece t call w n) := by
  have hput := h.put hb hw hpend hall
  rw [St.writePiece, wakeReader_eq]
  split
  · exact hput
  · exact Whole.finish hput (put_writes_same hw hn) rfl

theorem whole_writeSection (hpend : w.written < w.data.length)
    (hfits : w.data.length ≤ PIPE_BUF_SIZE → 2 ≤ s.pipe.refcount → 0 < s.pipe.ring.free →
    w.data.length - w.written ≤ s.pipe.ring.free) :
    Whole (s.writeSection t call w) := by
  unfold St.writeSection
  dsimp only
  split
  · exact h.finish hw rfl
  next hends =>
  split
  next hfree =>
    refine whole_writePiece h hb hw hpend (amount_le w _).1 fun hsmall => ?_
    split <;> omega
  next =>
    split
    · exact h.finish hw rfl
    · exact h

end

/-! ## Runs -/

/-- All that is kept. -/
structure Kept (s : St β) : Prop where
  books : Books s
  pending : Pending s
  whole : Whole s

theorem kept_step (op : Op β) (h : Kept s) (hfits : Fits s op) : Kept (s.step op) := by
  have hb := h.books
  have hp := h.pending
  have hw := h.whole
  cases op with
  | read t cnt nonblock =>
    simp only [St.step, St.startRead]
    split
    · have hd :
        (if cnt = 0 then Doing.idle (-EINVAL) else .reading cnt nonblock).isWriting = false := by
        split <;> rfl
      exact ⟨hb.setDoing t hd, hp.setDoing t hd, hw⟩
    · exact h
  | write t data nonblock =>
    simp only [St.step, St.startWrite]
    split
    · split
      · exact ⟨hb.setDoing t rfl, hp.setDoing t rfl, hw⟩
      next hdata =>
        refine ⟨hb.withCall t nonblock hdata, hp.withCall t nonblock hdata, fun c w hc hsmall => ?_⟩
        rcases withCall_writes hc with hc | ⟨rfl, _⟩
        · exact hw c w hc hsmall
        · exact .inl (hb.pieces_new (le_refl _))
    · exact h
  | run t =>
    simp only [St.step, St.runThread]
    split
    · exact h
    next hblocked =>
    split
    · exact h
    next cnt nonblock _ =>
      have hread := readSection_books t cnt nonblock hb hp
      exact ⟨hread.1, hread.2, hw.congr (readSection_log s t cnt nonblock).1
        (readSection_log s t cnt nonblock).2⟩
    next call hdoing =>
      split
      next w hcall =>
        have hwrite := writeSection_books hb hp hcall hdoing
        refine ⟨hwrite.1, hwrite.2, whole_writeSection hw hb hcall (hp t call w hdoing hcall) ?_⟩
        exact hfits call w (by simpa using hblocked) hdoing hcall
      next => exact h
  | releaseEnd =>
    rw [St.step, St.releaseEnd, wakeWriter_eq, wakeReader_eq]
    exact ⟨{ hb with }, hp, hw⟩
  | unblock t => exact ⟨{ hb with }, hp, hw⟩

/-- The bytes read are the beginning of an order of pieces in which every small write is one piece
or none, and a small write that has returned is in it as a whole, or returned an error. -/
structure Atomic (s : St β) : Prop where
  order : s.out <+: (s.log.map Prod.snd).flatten
  parts : ∀ (c : Nat) (w : WriteCall β), s.writes[c]? = some w →
      (s.pieces c).flatten = w.data.take w.written
  whole : Whole s
  returned : ∀ (c : Nat) (w : WriteCall β) (r : Int), s.writes[c]? = some w →
    w.data.length ≤ PIPE_BUF_SIZE → w.ret = some r →
      (r = w.data.length ∧ s.pieces c = [w.data]) ∨ ((r = -EAGAIN ∨ r = -EPIPE) ∧ s.pieces c = [])

theorem Kept.atomic (h : Kept s) : Atomic s where
  order := by
    rw [← h.books.order]
    exact prefix_append _ _
  parts := h.books.parts
  whole := h.whole
  returned := by
    intro c w r hw hsmall hr
    have hparts := congrArg List.length (h.books.parts c w hw)
    have hbound := h.books.bound c w hw
    rw [length_take, min_eq_left hbound.2] at hparts
    rcases h.whole c w hw hsmall with hnone | hall
    · rw [hnone] at hparts
      rcases h.books.returned c w r hw hr with ⟨hpos, _⟩ | ⟨_, herr⟩
      · simp only [flatten_nil, length_nil] at hparts
        omega
      · exact .inr ⟨herr, hnone⟩
    · rw [hall] at hparts
      simp only [flatten_cons, flatten_nil, append_nil] at hparts
      rcases h.books.returned c w r hw hr with ⟨_, rfl⟩ | ⟨hzero, _⟩
      · exact .inl ⟨by rw [hparts], hall⟩
      · omega

theorem kept_init (cell : Nat → β) : Kept (St.init cell) := by
  refine ⟨⟨rfl, ?_, ?_, ?_, ?_, ?_, ?_⟩, ?_, ?_⟩
  all_goals simp [St.init, Pending, Whole]

/-- **Small writes are atomic** in every run in which none of their sections finds room for a part
only. -/
theorem small_writes_atomic (cell : Nat → β) (ops : List (Op β))
    (h : RunMeets St.step Fits (St.init cell) ops) : Atomic ((St.init cell).exec ops) :=
  (run_invariant (fun _ op hs => kept_step op hs) (kept_init cell) h).atomic

/-- A write of two bytes into an empty pipe, and a read of one. -/
def writeTwoReadOne : List (Op Nat) := [.write 2 [7, 8] true, .run 2, .read 1 1 false, .run 1]

theorem atomic_writeTwoReadOne : ((St.init fun _ => 0).exec writeTwoReadOne).out = [7]
      ∧ Atomic ((St.init fun _ => 0).exec writeTwoReadOne) := by
  have hfits : RunMeets St.step Fits (St.init fun _ => 0) writeTwoReadOne := by
    unfold writeTwoReadOne
    repeat rw [runMeets_cons]
    refine ⟨trivial, ?_, trivial, ?_, runMeets_nil _⟩
    · intro c w _ hdoing hw _ _ _
      obtain rfl : 0 = c := Doing.writing.inj hdoing
      obtain rfl : ⟨[7, 8], true, 0, none⟩ = w := some.inj hw
      decide
    · intro c w _ hdoing
      cases hdoing
  exact ⟨rfl, small_writes_atomic _ _ hfits⟩

/-! ## Any order of steps -/

theorem books_step (op : Op β) (h : Books s ∧ Pending s) :
    Books (s.step op) ∧ Pending (s.step op) := by
  cases op with
  | read t cnt nonblock =>
    simp only [St.step, St.startRead]
    split
    · have hd :
        (if cnt = 0 then Doing.idle (-EINVAL) else .reading cnt nonblock).isWriting = false := by
        split <;> rfl
      exact ⟨h.1.setDoing t hd, h.2.setDoing t hd⟩
    · exact h
  | write t data nonblock =>
    simp only [St.step, St.startWrite]
    split
    · split
      · exact ⟨h.1.setDoing t rfl, h.2.setDoing t rfl⟩
      next hdata => exact ⟨h.1.withCall t nonblock hdata, h.2.withCall t nonblock hdata⟩
    · exact h
  | run t =>
    simp only [St.step, St.runThread]
    split
    · exact h
    split
    · exact h
    · exact readSection_books _ _ _ h.1 h.2
    next hdoing =>
      split
      next hcall => exact writeSection_books h.1 h.2 hcall hdoing
      next => exact h
  | releaseEnd =>
    rw [St.step, St.releaseEnd, wakeWriter_eq, wakeReader_eq]
    exact ⟨{ h.1 with }, h.2⟩
  | unblock t => exact ⟨{ h.1 with }, h.2⟩

/-- **No byte is lost, doubled or out of place** in any run, and every write returns how much of its
data has gone in. -/
theorem pipe_books (cell : Nat → β) (ops : List (Op β)) : Books ((St.init cell).exec ops) :=
  (foldlRecOn (motive := fun s => Books s ∧ Pending s) ops _ ⟨(kept_init cell).books,
    (kept_init cell).pending⟩ fun _ h op _ => books_step op h).1

/-! ## A torn write -/

/-- A pipe with room for one byte. -/
def fullButOne (data : List Nat) : St Nat where
  pipe := ⟨(RingBuf.empty (fun _ => 0) PIPE_CAPACITY).push data, 2, none, none⟩
  blocked _ := false
  doing x := if x = 1 then .idle 65535 else .idle 0
  writes := [⟨data, false, 65535, some 65535⟩]
  log := [(0, data)]
  out := []

section

variable {data : List Nat} (h : data.length = 65535)

include h

theorem exec_fill : (St.init fun _ => 0).exec [.write 1 data false, .run 1] = fullButOne data := by
  have hfree : (RingBuf.empty (fun _ => (0 : Nat)) PIPE_CAPACITY).free = 65536 := rfl
  have htake : data.take 65535 = data := by rw [← h, take_length]
  simp [fullButOne, St.exec, St.step, St.startWrite, St.init, St.runThread, St.setDoing,
    St.writeSection, hfree, St.writePiece, St.put, St.finish, St.wakeReader, h, htake]
  funext x
  split <;> rfl

theorem fullButOne_free :
    (fullButOne data).pipe.ring.free = 1 ∧ ((fullButOne data).pipe.ring.push [1]).free = 0 := by
  have hused : (RingBuf.empty (fun _ => (0 : Nat)) PIPE_CAPACITY).used = 0 := rfl
  have hsize : (RingBuf.empty (fun _ => (0 : Nat)) PIPE_CAPACITY).size = 65537 := rfl
  have hone : ((RingBuf.empty (fun _ => (0 : Nat)) PIPE_CAPACITY).push data).free = 1 := by
    rw [RingBuf.free_eq, RingBuf.used_push]
    · simp [RingBuf.push, hsize, h, hused]
    · simp [RingBuf.free_eq, hsize, hused, h]
  refine ⟨hone, ?_⟩
  have hfits : [1].length ≤ (fullButOne data).pipe.ring.free := le_of_eq hone.symm
  have hroom := RingBuf.free_eq (fullButOne data).pipe.ring
  rw [show (fullButOne data).pipe.ring.free = 1 from hone] at hroom
  rw [RingBuf.free_eq, RingBuf.used_push hfits]
  change (fullButOne data).pipe.ring.size - 1 - ((fullButOne data).pipe.ring.used + 1) = 0
  omega

/-- A write of two bytes that must not block puts one of them into the ring and returns 1. -/
theorem exec_fullButOne : ((fullButOne data).exec [.write 2 [1, 2] true, .run 2, .run 2]).writes[1]?
        = some ⟨[1, 2], true, 1, some 1⟩
      ∧ ((fullButOne data).exec [.write 2 [1, 2] true, .run 2, .run 2]).log
      = [(0, data), (1, [1])] := by
  obtain ⟨hone, hnone⟩ := fullButOne_free h
  simp only [fullButOne] at hone hnone
  constructor <;>
    simp [fullButOne, St.exec, St.step, St.startWrite, St.runThread, St.setDoing, St.writeSection,
      hone, hnone, St.writePiece, St.put, St.finish, St.wakeReader, WriteCall.stopped]

end

/-- Two bytes, of which one is written: neither all nor nothing. -/
theorem nonblocking_write_torn :
    let s := (St.init fun _ => 0).exec ([.write 1 (List.replicate 65535 0) false, .run 1]
      ++ [.write 2 [1, 2] true, .run 2, .run 2])
    s.writes[1]? = some ⟨[1, 2], true, 1, some 1⟩
    ∧ s.log = [(0, List.replicate 65535 0), (1, [1])] := by
  have hlen : (List.replicate 65535 0).length = 65535 := length_replicate
  have hrun := exec_fullButOne hlen
  rw [← exec_fill hlen] at hrun
  simp only [St.exec, foldl_append] at hrun ⊢
  exact hrun

end AxonOS.Ipc

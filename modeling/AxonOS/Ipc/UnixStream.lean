import AxonOS.Lib.CountRing
import AxonOS.Lib.Run
import AxonOS.Lib.SlotTable

/-! # Descriptors on a unix stream

One direction of a stream connection of `syscall_dispatch.c`: `unix_stream_write_from_user_ex`,
`unix_stream_read_to_kernel_ex` and `unix_stream_read_to_user`, each section under `c->lock` as one
step. A write attaches its batch of files to the byte position `written_bytes` in one of eight
places, before the loop that copies its bytes; a write that finds the ring full sleeps between two
turns of the loop, and reads come in between.

Beside the connection stands what it is for (`Wire`): the bytes put into the stream, how many of
them are consumed, and the batches of the writes whose first byte is not consumed.
-/

namespace AxonOS.Ipc.Unix

open Lib List Option

variable {φ : Type}

/-- Size of `q01` and `q10`. -/
def QUEUE_SIZE : Nat := 8192

/-- Places for batches in one direction. -/
def FDPASS_SLOTS : Nat := 8

/-- Files of one batch, and of one read. -/
def MAX_PASS : Nat := 4

def SIZE_LIMIT : Nat := 2 ^ 64

/-! ## State -/

/-- `unix_fdpass_t`; a place that is not `used` is `none`. -/
structure FdPass (φ : Type) where
  pos : Nat
  fds : List φ
  deriving DecidableEq

/-- One direction of `unix_stream_conn_t`; `closed` is that of the reading end. -/
structure Conn (φ : Type) where
  q : CountRing UInt8
  closed : Bool
  writtenBytes : Nat
  readBytes : Nat
  fdpass : List (Option (FdPass φ))

/-- A call of `unix_stream_write_from_user_ex` in its loop: the bytes still to copy, how many are
`written`. -/
structure WriteCall (φ : Type) where
  rest : List UInt8
  written : Nat
  fds : List φ
  nonblock : Bool

/-- What the stream is for. -/
structure Wire (φ : Type) where
  stream : List UInt8
  consumed : Nat
  pending : List (FdPass φ)
  dropped : List φ

/-- The bytes and files a read has returned, and those it should have. -/
structure Received (φ : Type) where
  bytes : List UInt8
  fds : List φ
  wireBytes : List UInt8
  wireFds : List φ

/-- `freed` are the files given to `fs_file_free`. -/
structure St (φ : Type) where
  conn : Conn φ
  call : Option (WriteCall φ)
  freed : List φ
  log : List (Received φ)
  wire : Wire φ

def St.init (cell : Nat → UInt8) : St φ where
  conn := ⟨CountRing.empty cell (QUEUE_SIZE - 1), false, 0, 0, List.replicate FDPASS_SLOTS none⟩
  call := none
  freed := []
  log := []
  wire := ⟨[], 0, [], []⟩

/-! ## Writing -/

/-- Attach a batch to the next byte, in the first free place. -/
def Conn.attach (c : Conn φ) (fds : List φ) : Option (Conn φ) :=
  (c.fdpass.findIdx? Option.isNone).map fun i =>
    { c with fdpass := c.fdpass.set i (some ⟨c.writtenBytes, fds.take MAX_PASS⟩) }

/-- The entry of `unix_stream_write_from_user_ex`; `ok` says that the buffer is a user range. -/
def St.send (s : St φ) (data : List UInt8) (fds : List φ) (ok nonblock : Bool) : St φ :=
  if data = [] ∨ ok = false then
    { s with freed := s.freed ++ fds, wire := { s.wire with dropped := s.wire.dropped ++ fds } }
  else
    let call : WriteCall φ := ⟨data, 0, fds, nonblock⟩
    if fds = [] then { s with call := some call }
    else
      match s.conn.attach fds with
      | some conn => { s with conn := conn, call := some call }
      | none => { s with freed := s.freed ++ fds, call := some call }

/-- What a turn of the loop comes to. -/
inductive Turn where
  | ended
  | waits
  | copies
  deriving DecidableEq

/-- `fault` says that the copy from the caller's memory fails. -/
def WriteCall.turn (w : WriteCall φ) (c : Conn φ) (fault : Bool) : Turn :=
  if c.closed then .ended
  else if c.q.free = 0 then (if w.nonblock then .ended else .waits)
  else if fault then .ended
  else .copies

/-- The write returns with an error; the batch stays where it is. On the wire, a write without a
byte has none. -/
def St.endCall (s : St φ) (w : WriteCall φ) : St φ :=
  { s with
    call := none
    wire := { s.wire with dropped := s.wire.dropped ++ (if w.written = 0 then w.fds else []) } }

/-- Copy as many bytes as there is room for. -/
def St.copy (s : St φ) (w : WriteCall φ) : St φ :=
  let n := min w.rest.length s.conn.q.free
  { s with
    conn := { s.conn with
      q := s.conn.q.push w.rest
      writtenBytes := (s.conn.writtenBytes + n) % SIZE_LIMIT }
    call := if w.rest.drop n = [] then none
    else some { w with rest := w.rest.drop n, written := w.written + n }
    wire := { s.wire with
      stream := s.wire.stream ++ w.rest.take s.conn.q.free
      pending := s.wire.pending ++
        (if w.written = 0 ∧ w.fds ≠ [] then [⟨s.wire.stream.length, w.fds⟩] else []) } }

/-- One turn of the loop of the write in progress. -/
def St.turn (s : St φ) (fault : Bool) : St φ :=
  match s.call with
  | none => s
  | some w =>
    match w.turn s.conn fault with
    | .ended => s.endCall w
    | .waits => s
    | .copies => s.copy w

/-! ## Reading -/

/-- The position lies in the bytes from `start` to before `stop`. -/
def FdPass.inRange (start stop : Nat) (e : FdPass φ) : Bool := decide (start ≤ e.pos ∧ e.pos < stop)

def Conn.attached (c : Conn φ) : List (FdPass φ) := c.fdpass.reduceOption

/-- The files of the batches in range, four at most. -/
def Conn.deliver (c : Conn φ) (start stop : Nat) : List φ :=
  ((c.attached.filter (FdPass.inRange start stop)).flatMap FdPass.fds).take MAX_PASS

def Conn.release (c : Conn φ) (start stop : Nat) : List (Option (FdPass φ)) :=
  c.fdpass.map fun e => e.filter fun b => !b.inRange start stop

def Wire.next (w : Wire φ) (len : Nat) : List UInt8 := (w.stream.drop w.consumed).take len

/-- The batches whose first byte is among the next `n`. -/
def Wire.due (w : Wire φ) (n : Nat) : List φ :=
  (w.pending.filter (FdPass.inRange w.consumed (w.consumed + n))).flatMap FdPass.fds

def Wire.consume (w : Wire φ) (n : Nat) : Wire φ :=
  { w with
    consumed := w.consumed + n
    pending := w.pending.filter fun b => !b.inRange w.consumed (w.consumed + n) }

/-- `unix_stream_read_to_kernel_ex`, the pass of its loop that finds bytes; without any it returns
or sleeps. -/
def St.readToKernel (s : St φ) (len : Nat) (peek : Bool) : St φ :=
  let n := min len s.conn.q.count
  if n = 0 then s
  else if peek then
    { s with log := ⟨s.conn.q.take len, [], s.wire.next len, []⟩ :: s.log }
  else
    let start := s.conn.readBytes
    let stop := (start + n) % SIZE_LIMIT
    { s with
      conn := { s.conn with
        q := s.conn.q.drop len
        readBytes := (start + n) % SIZE_LIMIT
        fdpass := s.conn.release start stop }
      log := ⟨s.conn.q.take len, s.conn.deliver start stop, s.wire.next len, s.wire.due n⟩ :: s.log
      wire := s.wire.consume n }

/-- `unix_stream_read_to_user`; `fault` says that the copy to the caller's memory fails. The
connection only loses the bytes; on the wire the batches of consumed bytes are dropped. -/
def St.readToUser (s : St φ) (len : Nat) (peek fault : Bool) : St φ :=
  let n := min len s.conn.q.count
  if n = 0 ∨ fault then s
  else if peek then
    { s with log := ⟨s.conn.q.take len, [], s.wire.next len, []⟩ :: s.log }
  else
    { s with
      conn := { s.conn with q := s.conn.q.drop len }
      log := ⟨s.conn.q.take len, [], s.wire.next len, []⟩ :: s.log
      wire := { s.wire.consume n with dropped := s.wire.dropped ++ s.wire.due n } }

inductive Op (φ : Type) where
  | send (data : List UInt8) (fds : List φ) (ok nonblock : Bool)
  | turn (fault : Bool)
  | close
  | recv (len : Nat) (peek : Bool)
  | read (len : Nat) (peek fault : Bool)

def St.step (s : St φ) : Op φ → St φ
  | .send data fds ok nonblock => s.send data fds ok nonblock
  | .turn fault => s.turn fault
  | .close => { s with conn := { s.conn with closed := true } }
  | .recv len peek => s.readToKernel len peek
  | .read len peek fault => s.readToUser len peek fault

/-! ## The property and the condition -/

/-- The batch of a write that has no byte in the stream yet. -/
def St.starting (s : St φ) : List (FdPass φ) :=
  match s.call with
  | some w => if w.written = 0 ∧ w.fds ≠ [] then [⟨s.wire.stream.length, w.fds⟩] else []
  | none => []

/-- The counters agree, every read has returned the bytes of the stream and the files that belong to
them, the batches in use are those of bytes that are not consumed, and the files dropped are those
that should be. -/
structure Attached (s : St φ) : Prop where
  counted : s.conn.writtenBytes = s.conn.readBytes + s.conn.q.count
  received : ∀ r ∈ s.log, r.bytes = r.wireBytes ∧ r.fds.Perm r.wireFds
  batches : s.conn.attached.Perm (s.starting ++ s.wire.pending)
  dropped : s.freed.Perm s.wire.dropped

/-- One write at a time, with four files at most. -/
def Valid (s : St φ) : Op φ → Prop
  | .send _ fds _ _ => s.call = none ∧ fds.length ≤ MAX_PASS
  | _ => True

/-- The condition on a step. A write with files finds a free place; one that has files returns no
error before its first byte; the counters stay below 2^64; a read does not meet batches with more
than four files together; and no plain read consumes a byte. -/
def Orderly (s : St φ) : Op φ → Prop
  | .send data fds ok _ => data ≠ [] → ok = true → fds ≠ [] → none ∈ s.conn.fdpass
  | .turn fault => ∀ w, s.call = some w →
      (w.turn s.conn fault = .ended → w.written = 0 → w.fds = []) ∧
      (w.turn s.conn fault = .copies →
      s.conn.writtenBytes + min w.rest.length s.conn.q.free < SIZE_LIMIT)
  | .close => True
  | .recv len peek => peek = false →
      ((s.conn.attached.filter (FdPass.inRange s.conn.readBytes
        (s.conn.readBytes + min len s.conn.q.count))).flatMap FdPass.fds).length ≤ MAX_PASS
  | .read len peek fault => peek = false → fault = false → min len s.conn.q.count = 0

/-- What the steps keep. -/
structure Inv (s : St φ) : Prop where
  contents : s.conn.q.contents = s.wire.stream.drop s.wire.consumed
  consumed_le : s.wire.consumed ≤ s.wire.stream.length
  written_eq : s.conn.writtenBytes = s.wire.stream.length
  written_lt : s.conn.writtenBytes < SIZE_LIMIT
  call_ok : ∀ w, s.call = some w → w.rest ≠ [] ∧ w.fds.length ≤ MAX_PASS

/-! ## The batches -/

variable {c conn : Conn φ} {fds : List φ} {s : St φ} {w : WriteCall φ}
    {fault peek : Bool} {len : Nat}

theorem mem_fdpass_of_attach (h : c.attach fds = some conn) : none ∈ c.fdpass := by
  obtain ⟨i, hi, rfl⟩ := map_eq_some_iff.mp h
  obtain ⟨hlt, hnone, -⟩ := findIdx?_eq_some_iff_getElem.mp hi
  exact mem_of_getElem (isNone_iff_eq_none.mp hnone)

theorem attach_eq_none (h : c.attach fds = none) : none ∉ c.fdpass := by
  intro hmem
  have hno := findIdx?_eq_none_iff.mp (map_eq_none_iff.mp h) none hmem
  cases hno

/-- **Attaching** adds the batch at the next byte. -/
theorem attached_attach (h : c.attach fds = some conn) :
    conn.attached.Perm (⟨c.writtenBytes, fds.take MAX_PASS⟩ :: c.attached) := by
  obtain ⟨i, hi, rfl⟩ := map_eq_some_iff.mp h
  obtain ⟨hlt, hnone, -⟩ := findIdx?_eq_some_iff_getElem.mp hi
  have hfree : c.fdpass[i]? = some none := by
    rw [getElem?_eq_getElem hlt, isNone_iff_eq_none.mp hnone]
  exact reduceOption_set hfree _

theorem attach_fields (h : c.attach fds = some conn) :
    conn.q = c.q ∧ conn.writtenBytes = c.writtenBytes ∧ conn.readBytes = c.readBytes := by
  obtain ⟨i, -, rfl⟩ := map_eq_some_iff.mp h
  exact ⟨rfl, rfl, rfl⟩

/-! ## The steps -/

theorem starting_of_some (h : s.call = some w) :
    s.starting = if w.written = 0 ∧ w.fds ≠ [] then [⟨s.wire.stream.length, w.fds⟩] else [] := by
  rw [St.starting, h]

theorem Inv.count_eq (hinv : Inv s) : s.wire.consumed + s.conn.q.count = s.wire.stream.length := by
  have hlen := congrArg List.length hinv.contents
  rw [CountRing.length_contents, length_drop] at hlen
  have := hinv.consumed_le
  omega

theorem Inv.read_eq (hinv : Inv s) (hgood : Attached s) : s.conn.readBytes = s.wire.consumed := by
  have hcount := hinv.count_eq
  have hwritten := hinv.written_eq
  have hcounted := hgood.counted
  omega

theorem Inv.take_eq (hinv : Inv s) (len : Nat) : s.conn.q.take len = s.wire.next len := by
  rw [CountRing.take_eq, hinv.contents, Wire.next]

theorem not_perm_cons_self {α : Type} {a : α} {l m : List α} (h : l.Perm m) :
    ¬ l.Perm (a :: m) := by
  intro hcons
  have h1 := h.length_eq
  have h2 := hcons.length_eq
  rw [length_cons] at h2
  omega

theorem send_step {data : List UInt8} {ok nonblock : Bool} (hinv : Inv s) (hgood : Attached s)
    (hcall : s.call = none) (hfds : fds.length ≤ MAX_PASS) :
    (Attached (s.send data fds ok nonblock) ↔ Orderly s (.send data fds ok nonblock)) ∧
      (Orderly s (.send data fds ok nonblock) → Inv (s.send data fds ok nonblock)) := by
  have hstart : s.starting = [] := by rw [St.starting, hcall]
  have hbatches := hgood.batches
  rw [hstart] at hbatches
  by_cases hbad : data = [] ∨ ok = false
  · -- the entry refuses and drops the files
    have horder : Orderly s (.send data fds ok nonblock) := by
      intro hdata hok
      rcases hbad with h | h
      · exact absurd h hdata
      · exact absurd (h.symm.trans hok) Bool.false_ne_true
    rw [St.send, if_pos hbad]
    refine ⟨iff_of_true { hgood with dropped := hgood.dropped.append_right fds } horder,
      fun _ => ?_⟩
    exact { hinv with }
  · have hdata : data ≠ [] := fun h => hbad (.inl h)
    have hok : ok = true := by
      by_contra h
      exact hbad (.inr (Bool.eq_false_of_not_eq_true h))
    have hcall' : ∀ w, some (⟨data, 0, fds, nonblock⟩ : WriteCall φ) = some w →
        w.rest ≠ [] ∧ w.fds.length ≤ MAX_PASS := by
      rintro w ⟨⟩
      exact ⟨hdata, hfds⟩
    rw [St.send, if_neg hbad]
    by_cases hnone : fds = []
    · simp only [if_pos hnone]
      refine ⟨iff_of_true { hgood with batches := ?_ } fun _ _ h => absurd hnone h,
        fun _ => { hinv with call_ok := hcall' }⟩
      rw [starting_of_some rfl, if_neg fun h => h.2 hnone]
      exact hbatches
    · simp only [if_neg hnone]
      cases hat : s.conn.attach fds with
      | none =>
        -- no place is free: the batch is dropped, though its byte is to come
        have hfull : ¬ Orderly s (.send data fds ok nonblock) := fun h =>
          attach_eq_none hat (h hdata hok hnone)
        refine ⟨iff_of_false (fun h => ?_) hfull, fun h => absurd h hfull⟩
        have hafter := h.batches
        rw [starting_of_some rfl, if_pos ⟨rfl, hnone⟩] at hafter
        exact not_perm_cons_self hbatches hafter
      | some conn =>
        obtain ⟨hq, hwritten, hread⟩ := attach_fields hat
        refine ⟨iff_of_true ⟨?_, hgood.received, ?_, hgood.dropped⟩ fun _ _ _ =>
          mem_fdpass_of_attach hat, fun _ => ⟨?_, hinv.consumed_le, ?_, ?_, hcall'⟩⟩
        · exact hwritten.trans (by rw [hgood.counted, hread, hq])
        · rw [starting_of_some rfl, if_pos ⟨rfl, hnone⟩]
          refine (attached_attach hat).trans ?_
          rw [hinv.written_eq, take_of_length_le hfds]
          exact hbatches.cons _
        · exact (congrArg CountRing.contents hq).trans hinv.contents
        · exact hwritten.trans hinv.written_eq
        · exact hwritten.trans_lt hinv.written_lt

theorem endCall_step (hinv : Inv s) (hgood : Attached s) (hcall : s.call = some w) :
    (Attached (s.endCall w) ↔ (w.written = 0 → w.fds = [])) ∧ Inv (s.endCall w) := by
  have hbatches := hgood.batches
  rw [starting_of_some hcall] at hbatches
  refine ⟨⟨fun h hzero => ?_, fun h => ?_⟩, ?_⟩
  · by_contra hfds
    rw [if_pos ⟨hzero, hfds⟩] at hbatches
    have hafter : s.conn.attached.Perm s.wire.pending := h.batches
    exact not_perm_cons_self hafter hbatches
  · rw [if_neg fun hboth => hboth.2 (h hboth.1)] at hbatches
    refine ⟨hgood.counted, hgood.received, hbatches, ?_⟩
    have hnil : (if w.written = 0 then w.fds else []) = [] := by
      split
      next hzero => exact h hzero
      next => rfl
    change s.freed.Perm (s.wire.dropped ++ _)
    rw [hnil, append_nil]
    exact hgood.dropped
  · exact { hinv with call_ok := nofun }

theorem copy_step (hinv : Inv s) (hgood : Attached s) (hcall : s.call = some w)
    (hfree : s.conn.q.free ≠ 0) :
    (Attached (s.copy w) ↔ s.conn.writtenBytes + min w.rest.length s.conn.q.free < SIZE_LIMIT) ∧
      (s.conn.writtenBytes + min w.rest.length s.conn.q.free < SIZE_LIMIT → Inv (s.copy w)) := by
  have hrest : 0 < w.rest.length := length_pos_iff.mpr (hinv.call_ok w hcall).1
  have hcounted := hgood.counted
  have hbatches := hgood.batches
  rw [starting_of_some hcall] at hbatches
  -- after its first byte the write is no longer starting
  have hstart : (s.copy w).starting = [] := by
    simp only [St.starting, St.copy]
    split
    next w' hw' =>
      split at hw'
      next => cases hw'
      next =>
      cases hw'
      rw [if_neg]
      rintro ⟨hzero, -⟩
      simp only at hzero
      omega
    next => rfl
  refine ⟨⟨fun h => ?_, fun hlt => ?_⟩, fun hlt => ?_⟩
  · by_contra hover
    have hafter : (s.conn.writtenBytes + min w.rest.length s.conn.q.free) % SIZE_LIMIT =
        s.conn.readBytes + (s.conn.q.count + min w.rest.length s.conn.q.free) := h.counted
    have hmod := Nat.mod_lt (s.conn.writtenBytes + min w.rest.length s.conn.q.free)
      (show 0 < SIZE_LIMIT by decide)
    omega
  · refine ⟨?_, hgood.received, ?_, hgood.dropped⟩
    · change (s.conn.writtenBytes + min w.rest.length s.conn.q.free) % SIZE_LIMIT =
        s.conn.readBytes + (s.conn.q.count + min w.rest.length s.conn.q.free)
      rw [Nat.mod_eq_of_lt hlt]
      omega
    · rw [hstart]
      exact hbatches.trans perm_append_comm
  · refine ⟨?_, ?_, ?_, ?_, ?_⟩
    · change (s.conn.q.push w.rest).contents
        = (s.wire.stream ++ w.rest.take s.conn.q.free).drop s.wire.consumed
      rw [CountRing.contents_push, hinv.contents, drop_append_of_le_length hinv.consumed_le]
    · change s.wire.consumed ≤ (s.wire.stream ++ w.rest.take s.conn.q.free).length
      rw [length_append]
      exact hinv.consumed_le.trans (Nat.le_add_right _ _)
    · change (s.conn.writtenBytes + min w.rest.length s.conn.q.free) % SIZE_LIMIT =
        (s.wire.stream ++ w.rest.take s.conn.q.free).length
      rw [Nat.mod_eq_of_lt hlt, length_append, length_take, hinv.written_eq, Nat.min_comm]
    · exact Nat.mod_lt _ (by decide)
    · intro w' hw'
      simp only [St.copy] at hw'
      split at hw'
      next => cases hw'
      next hmore =>
        cases hw'
        exact ⟨hmore, (hinv.call_ok w hcall).2⟩

theorem turn_copies (h : w.turn c fault = .copies) : c.q.free ≠ 0 := by
  intro hzero
  rw [WriteCall.turn] at h
  split_ifs at h

theorem turn_step (hinv : Inv s) (hgood : Attached s) :
      (Attached (s.turn fault) ↔ Orderly s (.turn fault)) ∧
      (Orderly s (.turn fault) → Inv (s.turn fault)) := by
  cases hcall : s.call with
  | none =>
    have hsame : s.turn fault = s := by rw [St.turn, hcall]
    rw [hsame]
    refine ⟨iff_of_true hgood fun w hw => ?_, fun _ => hinv⟩
    rw [hcall] at hw
    cases hw
  | some w =>
    have hstep : s.turn fault = match w.turn s.conn fault with
        | .ended => s.endCall w
        | .waits => s
        | .copies => s.copy w := by rw [St.turn, hcall]
    have horder : Orderly s (.turn fault) ↔
        (w.turn s.conn fault = .ended → w.written = 0 → w.fds = []) ∧
        (w.turn s.conn fault = .copies →
          s.conn.writtenBytes + min w.rest.length s.conn.q.free < SIZE_LIMIT) := by
      constructor
      · intro h
        exact h w hcall
      · intro h w' hw'
        obtain rfl := some.inj (hcall.symm.trans hw')
        exact h
    rw [hstep, horder]
    cases hturn : w.turn s.conn fault with
    | ended =>
      obtain ⟨hiff, hkeep⟩ := endCall_step hinv hgood hcall
      refine ⟨hiff.trans ⟨fun h => ⟨fun _ => h, nofun⟩, fun h => h.1 rfl⟩, fun _ => hkeep⟩
    | waits => exact ⟨iff_of_true hgood ⟨nofun, nofun⟩, fun _ => hinv⟩
    | copies =>
      obtain ⟨hiff, hkeep⟩ := copy_step hinv hgood hcall (turn_copies hturn)
      exact ⟨hiff.trans ⟨fun h => ⟨nofun, fun _ => h⟩, fun h => h.2 rfl⟩,
        fun h => hkeep (h.2 rfl)⟩

theorem peek_step (len : Nat) (hinv : Inv s) (hgood : Attached s) :
    Attached { s with log := ⟨s.conn.q.take len, [], s.wire.next len, []⟩ :: s.log } ∧
      Inv { s with log := ⟨s.conn.q.take len, [], s.wire.next len, []⟩ :: s.log } := by
  refine ⟨{ hgood with received := ?_ }, { hinv with }⟩
  exact forall_mem_cons.mpr ⟨⟨hinv.take_eq len, List.Perm.refl _⟩, hgood.received⟩

/-- The batch of a write that is starting lies behind every byte that can be read. -/
theorem starting_outside (hinv : Inv s) (n : Nat) (hn : n ≤ s.conn.q.count) :
    ∀ b ∈ s.starting, b.inRange s.wire.consumed (s.wire.consumed + n) = false := by
  intro b hb
  have hcount := hinv.count_eq
  have hpos : b.pos = s.wire.stream.length := by
    unfold St.starting at hb
    split at hb
    · split at hb
      · rw [mem_singleton.mp hb]
      · cases hb
    · cases hb
  simp only [FdPass.inRange, decide_eq_false_iff_not]
  omega

/-- **A read of the connection meets the batches of the wire.** -/
theorem filter_attached (hinv : Inv s) (hgood : Attached s) {n : Nat} (hn : n ≤ s.conn.q.count) :
    (s.conn.attached.filter (FdPass.inRange s.wire.consumed (s.wire.consumed + n))).Perm
        (s.wire.pending.filter (FdPass.inRange s.wire.consumed (s.wire.consumed + n))) ∧
      (s.conn.attached.filter fun b => !b.inRange s.wire.consumed (s.wire.consumed + n)).Perm
        (s.starting ++ (s.wire.consume n).pending) := by
  have hout := starting_outside hinv n hn
  constructor
  · refine (hgood.batches.filter _).trans ?_
    rw [filter_append, filter_eq_nil_iff.mpr
      fun b hb => by rw [hout b hb]; exact Bool.false_ne_true]
    exact List.Perm.refl _
  · refine (hgood.batches.filter _).trans ?_
    rw [filter_append, filter_eq_self.mpr fun b hb => by rw [hout b hb]; rfl]
    exact List.Perm.refl _

theorem recv_step (hinv : Inv s) (hgood : Attached s) :
    (Attached (s.readToKernel len peek) ↔ Orderly s (.recv len peek)) ∧
      (Orderly s (.recv len peek) → Inv (s.readToKernel len peek)) := by
  have hcount := hinv.count_eq
  have hwritten := hinv.written_eq
  have hlt := hinv.written_lt
  have hread := hinv.read_eq hgood
  have hn : min len s.conn.q.count ≤ s.conn.q.count := Nat.min_le_right _ _
  obtain ⟨hin, hout⟩ := filter_attached hinv hgood hn
  by_cases hzero : min len s.conn.q.count = 0
  · rw [St.readToKernel, if_pos hzero]
    refine ⟨iff_of_true hgood fun _ => ?_, fun _ => hinv⟩
    have hempty : s.conn.attached.filter
        (FdPass.inRange s.conn.readBytes (s.conn.readBytes + min len s.conn.q.count)) = [] := by
      refine filter_eq_nil_iff.mpr fun b _ hb => ?_
      simp only [FdPass.inRange, decide_eq_true_eq] at hb
      omega
    rw [hempty]
    exact Nat.zero_le _
  · rw [St.readToKernel, if_neg hzero]
    cases peek with
    | true =>
      obtain ⟨hgood', hinv'⟩ := peek_step len hinv hgood
      exact ⟨iff_of_true hgood' nofun, fun _ => hinv'⟩
    | false =>
      have hstop : (s.conn.readBytes + min len s.conn.q.count) % SIZE_LIMIT =
          s.wire.consumed + min len s.conn.q.count := by
        rw [hread]
        exact Nat.mod_eq_of_lt (by omega)
      have hdue : ((s.conn.attached.filter (FdPass.inRange s.wire.consumed
          (s.wire.consumed + min len s.conn.q.count))).flatMap FdPass.fds).Perm
          (s.wire.due (min len s.conn.q.count)) := hin.flatMap_right _
      have horder : Orderly s (.recv len false) ↔
            ((s.conn.attached.filter
            (FdPass.inRange s.wire.consumed (s.wire.consumed + min len s.conn.q.count))).flatMap
            FdPass.fds).length ≤ MAX_PASS := by
        simp only [Orderly, hread, true_imp_iff]
      simp only [Bool.false_eq_true, if_false, hstop]
      rw [horder, hread]
      refine ⟨⟨fun h => ?_, fun hfour => ⟨?_, ?_, ?_, hgood.dropped⟩⟩, fun _ => ?_⟩
      · -- what was delivered is all there was
        have hlast := (h.received _ mem_cons_self).2.length_eq
        have hcut :
          (s.conn.deliver s.wire.consumed (s.wire.consumed + min len s.conn.q.count)).length ≤
          MAX_PASS := length_take_le _ _
        rw [hdue.length_eq]
        exact hlast.symm.trans_le hcut
      · change s.conn.writtenBytes =
          s.wire.consumed + min len s.conn.q.count + (s.conn.q.count - min len s.conn.q.count)
        omega
      · refine forall_mem_cons.mpr ⟨⟨hinv.take_eq len, ?_⟩, hgood.received⟩
        change (List.take MAX_PASS _).Perm _
        rw [take_of_length_le hfour]
        exact hdue
      · change ((s.conn.release _ _).reduceOption).Perm (s.starting ++ _)
        rw [Conn.release, reduceOption_map_filter]
        exact hout
      · refine { hinv with contents := ?_, consumed_le := ?_ }
        · change (s.conn.q.drop len).contents
            = s.wire.stream.drop (s.wire.consumed + min len s.conn.q.count)
          rw [CountRing.contents_drop, hinv.contents, drop_drop]
          rcases Nat.le_total len s.conn.q.count with hle | hle
          · rw [Nat.min_eq_left hle]
          · rw [Nat.min_eq_right hle, hcount, drop_length, drop_eq_nil_of_le]
            omega
        · change s.wire.consumed + min len s.conn.q.count ≤ s.wire.stream.length
          omega

/-- A plain read that consumes bytes leaves `read_bytes` behind. -/
theorem read_step (hinv : Inv s) (hgood : Attached s) :
    (Attached (s.readToUser len peek fault) ↔ Orderly s (.read len peek fault)) ∧
      (Orderly s (.read len peek fault) → Inv (s.readToUser len peek fault)) := by
  have hcounted := hgood.counted
  by_cases hzero : min len s.conn.q.count = 0 ∨ fault = true
  · rw [St.readToUser, if_pos hzero]
    refine ⟨iff_of_true hgood fun _ hfault => ?_, fun _ => hinv⟩
    rcases hzero with h | h
    · exact h
    · exact absurd (h.symm.trans hfault) Bool.noConfusion
  · rw [St.readToUser, if_neg hzero]
    cases peek with
    | true =>
      obtain ⟨hgood', hinv'⟩ := peek_step len hinv hgood
      exact ⟨iff_of_true hgood' nofun, fun _ => hinv'⟩
    | false =>
      have hconsumes : ¬ Orderly s (.read len false fault) := by
        intro h
        cases fault with
        | true => exact hzero (.inr rfl)
        | false => exact hzero (.inl (h rfl rfl))
      refine ⟨iff_of_false (fun h => ?_) hconsumes, fun h => absurd h hconsumes⟩
      have hafter : s.conn.writtenBytes
        = s.conn.readBytes + (s.conn.q.count - min len s.conn.q.count) :=
        h.counted
      omega

/-- **One step** from a state in which all batches are at their bytes. -/
theorem step_attached_iff {op : Op φ} (hinv : Inv s) (hgood : Attached s) (hvalid : Valid s op) :
    (Attached (s.step op) ↔ Orderly s op) ∧ (Orderly s op → Inv (s.step op)) := by
  cases op with
  | send data fds ok nonblock => exact send_step hinv hgood hvalid.1 hvalid.2
  | turn fault => exact turn_step hinv hgood
  | close => exact ⟨iff_of_true { hgood with } trivial, fun _ => { hinv with }⟩
  | recv len peek => exact recv_step hinv hgood
  | read len peek fault => exact read_step hinv hgood

theorem inv_init (cell : Nat → UInt8) : Inv (St.init cell : St φ) :=
  ⟨rfl, Nat.le_refl _, rfl, Nat.two_pow_pos 64, nofun⟩

theorem attached_init (cell : Nat → UInt8) : Attached (St.init cell : St φ) := by
  refine ⟨rfl, nofun, ?_, List.Perm.refl _⟩
  exact List.Perm.refl []

/-! ## Runs -/

/-- **Descriptors stay attached to their byte, where plain reads keep away.** In a run of writes,
turns of their loop, reads and peeks from a new connection, the counters agree, every read returns
the bytes of the stream with the batches of their writes, and batches are dropped only with their
byte, in all states, if and only if every step is orderly. -/
theorem descriptors_attached_iff (cell : Nat → UInt8) (ops : List (Op φ))
    (hvalid : RunMeets St.step Valid (St.init cell) ops) :
    (∀ pre post, ops = pre ++ post → Attached (pre.foldl St.step (St.init cell))) ↔
      RunMeets St.step Orderly (St.init cell) ops :=
  run_good_iff (fun _ _ => step_attached_iff) (inv_init cell) (attached_init cell) hvalid

/-- A file is sent with one byte and received with it. -/
def passed : List (Op Nat) :=
  [.send [97, 98] [7] true false, .turn false, .recv 1 true, .recv 1 false]

theorem valid_passed : RunMeets St.step Valid (St.init fun _ => 0) passed := by
  simp only [passed, runMeets_cons]
  exact ⟨⟨rfl, by decide⟩, trivial, trivial, trivial, runMeets_nil _⟩

theorem orderly_passed : RunMeets St.step Orderly (St.init fun _ => 0) passed := by
  simp only [passed, runMeets_cons]
  refine ⟨fun _ _ _ => mem_cons_self, ?_, nofun, fun _ => ?_, runMeets_nil _⟩
  · rintro w ⟨⟩
    exact ⟨fun h => absurd h (by decide), fun _ => by decide⟩
  · decide

theorem passed_attached : RunMeets St.step Valid (St.init fun _ => 0) passed ∧
    ∀ pre post, passed = pre ++ post → Attached (pre.foldl St.step (St.init fun _ => 0)) :=
  ⟨valid_passed, (descriptors_attached_iff _ passed valid_passed).mpr orderly_passed⟩

/-- A plain read takes the byte of a batch; the next `recvmsg` takes a byte of another write. -/
def plainBetween : List (Op Nat) :=
  [.send [97] [7] true false, .turn false, .read 1 false false,
    .send [98] [] true false, .turn false, .recv 1 false]

/-- **A plain read leaves the batch for a later byte**: the file sent with the first byte comes with
the second, and the counters no longer agree. -/
theorem plain_read_misdelivers : RunMeets St.step Valid (St.init fun _ => 0) plainBetween ∧
      (plainBetween.foldl St.step (St.init fun _ => 0)).log.head?.map
        (fun r => (r.bytes, r.fds, r.wireFds)) = some ([98], [7], []) ∧
      ((plainBetween.take 3).foldl St.step (St.init fun _ => 0)).conn.writtenBytes = 1 ∧
      ((plainBetween.take 3).foldl St.step (St.init fun _ => 0)).conn.readBytes = 0 ∧
      ((plainBetween.take 3).foldl St.step (St.init fun _ => 0)).conn.q.count = 0 ∧
      ¬ Attached (plainBetween.foldl St.step (St.init fun _ => 0)) := by
  refine ⟨?_, by decide, by decide, by decide, by decide, fun h => ?_⟩
  · simp only [plainBetween, runMeets_cons]
    exact ⟨⟨rfl, by decide⟩, trivial, trivial, ⟨rfl, by decide⟩, trivial, trivial, runMeets_nil _⟩
  · have hcounted := h.counted
    revert hcounted
    decide

end AxonOS.Ipc.Unix

import AxonOS.Net.Stream

/-! # The stream the reader sees

From the lemmas about the single functions of the receive path: `net_tcp_service` and
`net_tcp_recv` keep `StreamInv`, so that over a whole run of arriving segments and reads nothing is
skipped, repeated or taken from a wrong place.
-/

namespace AxonOS.Net

open Lib List Nat

variable {S out : List Byte} {isn m n off cap : Nat} {c c' : Conn} {seg : Segment}
  {frames : List Arrival} {rounds : List Round} {s : RxState}

/-! ## The position never goes back -/

theorem position_same (h : SameRx c c') : position out c' = position out c := by
  unfold position Conn.finBit
  rw [h.rx, h.peerFin]

theorem position_completeFin (c : Conn) : position out c ≤ position out (tcpTryCompleteFin c) := by
  unfold tcpTryCompleteFin
  split
  · exact le_refl _
  split
  · exact le_refl _
  · exact Nat.add_le_add_left (finBit_le c) _

theorem mergeBest_cases (b : Nat) (c : Conn) :
          mergeBest b c = (false, c) ∨ ∃ go bs r k ooo, mergeBest b c
          = (go, { c with rx := c.rx ++ bs, rcvNxt := r, ooo := ooo, oooValid := k }) := by
  unfold mergeBest
  dsimp only
  generalize c.ooo.getD b ⟨false, 0, []⟩ = s
  generalize sub32 c.rcvNxt s.seq = skip
  generalize sub64 s.data.length skip = available
  generalize (if available > rxRoom c then rxRoom c else available) = cp
  split
  next => exact .inl rfl
  next =>
    refine .inr ?_
    split
    next => exact ⟨true, _, _, _, _, rfl⟩
    next => exact ⟨false, _, _, _, _, rfl⟩

/-- `tcp_try_merge_ooo` appends to the buffer and changes the slots, nothing else. -/
theorem mergeLoop_eq (h : mergeLoop n c = some c') :
    ∃ bs r k ooo, c' = { c with rx := c.rx ++ bs, rcvNxt := r, ooo := ooo, oooValid := k } := by
  induction n generalizing c c' with
  | zero => cases h
  | succ n ih =>
    unfold mergeLoop at h
    dsimp only at h
    generalize mergeScan c.rcvNxt c.ooo 0 c.oooValid none = r at h
    have hscan : ({ c with ooo := r.slots, oooValid := r.count } : Conn)
        = { c with rx := c.rx ++ [], ooo := r.slots, oooValid := r.count } := by simp
    cases hb : r.best with
    | none =>
      rw [hb] at h
      injection h with h
      exact ⟨[], c.rcvNxt, r.count, r.slots, h.symm.trans hscan⟩
    | some bq =>
      rw [hb] at h
      dsimp only at h
      rcases mergeBest_cases bq.1 { c with ooo := r.slots, oooValid := r.count } with
        he | ⟨go, bs, q, k, ooo, he⟩
      · rw [he] at h
        injection h with h
        exact ⟨[], c.rcvNxt, r.count, r.slots, h.symm.trans hscan⟩
      rw [he] at h
      cases go with
      | false =>
        injection h with h
        exact ⟨bs, q, k, ooo, h.symm⟩
      | true =>
        obtain ⟨bs', q', k', ooo', rfl⟩ := ih h
        exact ⟨bs ++ bs', q', k', ooo', by simp⟩

theorem mergeOoo_eq (c : Conn) : ∃ bs r k ooo,
      tcpTryMergeOoo c = { c with rx := c.rx ++ bs, rcvNxt := r, ooo := ooo, oooValid := k } := by
  unfold tcpTryMergeOoo
  cases h : mergeLoop (c.ooo.length + 1) c with
  | none => exact ⟨[], c.rcvNxt, c.oooValid, c.ooo, by simp⟩
  | some c' => exact mergeLoop_eq h

theorem position_mergeOoo (c : Conn) : position out c ≤ position out (tcpTryMergeOoo c) := by
  obtain ⟨bs, r, k, ooo, he⟩ := mergeOoo_eq c
  rw [he]
  exact (le_add_right _ _).trans_eq (position_append bs r).symm

theorem position_storeOoo (seq : Nat) (payload : List Byte) (c : Conn) :
    position out (tcpStoreOoo seq payload c) = position out c := by
  obtain ⟨ooo, k, he, -⟩ := storeOoo_eq seq payload c
  rw [he]
  rfl

/-! ## One segment -/

theorem rxEnsure_inv (kmallocOk : Nat → Bool) (h : StreamInv S isn out m c) :
    StreamInv S isn out m (netTcpRxEnsure kmallocOk c).2
      ∧ position out (netTcpRxEnsure kmallocOk c).2 = position out c := by
  unfold netTcpRxEnsure
  by_cases hb : c.rxBuf = true ∧ c.rxCap ≠ 0
  · rw [if_pos hb]
    exact ⟨h, rfl⟩
  rw [if_neg hb]
  -- without a buffer nothing is buffered
  have hrx : c.rx = [] := by
    have hf := h.fits
    refine length_eq_zero_iff.mp ?_
    cases hbuf : c.rxBuf with
    | false =>
      rw [hbuf] at hf
      simpa using hf
    | true =>
      rw [hbuf, if_pos rfl] at hf
      have : c.rxCap = 0 := by
        by_contra h0
        exact hb ⟨hbuf, h0⟩
      omega
  cases firstAllocated kmallocOk [256 * 1024, 128 * 1024, 64 * 1024] with
  | none =>
    refine ⟨{ h with fits := ?_ }, rfl⟩
    rw [hrx]
    exact zero_le _
  | some k =>
    obtain ⟨hstream, hrcv, hfin, hpending, hslots, -, hconnect⟩ := h
    rw [hrx] at hstream hrcv hfin hpending hslots
    refine ⟨⟨hstream, hrcv, hfin, hpending, hslots, zero_le _, hconnect⟩, ?_⟩
    unfold position
    rw [hrx]
    rfl

theorem servicePayload_inv (h : StreamInv S isn out NET_TCP_OOO_BYTES c)
    (hseq : seg.seq = serial (isn + 1 + off)) (hp : seg.payload <+: S.drop off)
    (hne : seg.payload ≠ []) (hlen : seg.payload.length ≤ 1994) (h1 : off < position out c + 2 ^ 31)
    (h2 : position out c < off + 2 ^ 31) :
    StreamInv S isn out NET_TCP_OOO_BYTES (servicePayload seg c)
      ∧ position out c ≤ position out (servicePayload seg c) := by
  have hend := prefix_drop_length hp hne
  have hafter : serialAfter seg.seq c.rcvNxt = true ↔ position out c < off := by
    rw [hseq, h.rcv_position, serialAfter_iff (by omega) (by omega)]
    omega
  have hfinish : ∀ {c1 : Conn}, StreamInv S isn out NET_TCP_OOO_BYTES c1 →
      position out c ≤ position out c1 →
        StreamInv S isn out NET_TCP_OOO_BYTES (tcpSendSeg ACK (tcpTryCompleteFin c1))
      ∧ position out c ≤ position out (tcpSendSeg ACK (tcpTryCompleteFin c1)) := by
    intro c1 hinv hle
    refine ⟨(completeFin_inv hinv).same (sameRx_send _ _), ?_⟩
    rw [position_same (sameRx_send _ _)]
    exact hle.trans (position_completeFin c1)
  unfold servicePayload
  by_cases hin : seg.seq = c.rcvNxt ∨ serialAfter seg.seq c.rcvNxt = false
  · rw [if_pos hin]
    -- both tests say that the segment does not start ahead
    have hle : off ≤ position out c := by
      by_contra hlt
      have ht := hafter.mpr (by omega)
      rcases hin with he | hf
      · rw [hseq, h.rcv_position] at he
        have := serial_inj he (by omega) (by omega)
        omega
      · rw [ht] at hf
        cases hf
    obtain ⟨acc, c0, hacc, hinv1, hsome, hpos1, hfin1⟩ := acceptInorder_inv h hseq hp hne hle h2
    rw [hacc]
    dsimp only
    have hstored : ∃ c1, (if acc < seg.payload.length ∧ serialAfter seg.seq c.rcvNxt = false then
          if (if seg.seq = c.rcvNxt then acc else sub32 c.rcvNxt seg.seq + acc) < seg.payload.length
          then tcpStoreOoo c0.rcvNxt (seg.payload.drop
            (if seg.seq = c.rcvNxt then acc else sub32 c.rcvNxt seg.seq + acc)) c0
          else c0 else c0) = c1
        ∧ StreamInv S isn out (NET_TCP_OOO_BYTES + acc) c1
        ∧ position out c ≤ position out c1 := by
      refine ⟨_, rfl, ?_⟩
      have hkeep : StreamInv S isn out (NET_TCP_OOO_BYTES + acc) c0
          ∧ position out c ≤ position out c0 := ⟨hinv1, by omega⟩
      split
      next hcond =>
        -- the offset of the first byte that was not accepted
        have hoff : (if seg.seq = c.rcvNxt then acc else sub32 c.rcvNxt seg.seq + acc)
            = position out c - off + acc := by
          split
          next he =>
            rw [hseq, h.rcv_position] at he
            have := serial_inj he (by omega) (by omega)
            omega
          next =>
            rw [hseq, h.rcv_position, sub32_serial (by omega) (by omega)]
            omega
        rw [hoff]
        split
        next hlt =>
          have hopen : c0.peerFin = false := by
            rw [hfin1]
            exact h.open_of_lt hend (by omega)
          have hD : position out c0 = (out ++ c0.rx).length := position_open hopen
          have hdrop := drop_prefix_drop (position out c - off + acc) hp
          rw [show off + (position out c - off + acc) = position out c0 by omega] at hdrop
          rw [hinv1.rcv_position]
          refine ⟨storeOoo_inv hinv1 hdrop (by omega) (by omega), ?_⟩
          rw [position_storeOoo]
          exact hkeep.2
        next => exact hkeep
      next => exact hkeep
    obtain ⟨c1, he1, hinv2, hpos2⟩ := hstored
    rw [he1]
    refine hfinish (mergeOoo_inv hinv2 ?_) (hpos2.trans (position_mergeOoo c1))
    unfold NET_TCP_OOO_BYTES
    omega
  · -- ahead of what is expected: kept for later
    rw [if_neg hin]
    obtain ⟨-, hin2⟩ := not_or.mp hin
    have hlt : position out c < off := hafter.mp (by simpa using hin2)
    have hopen := h.open_of_lt (show off ≤ S.length by omega) (by omega)
    have hD2 : position out c = (out ++ c.rx).length := position_open hopen
    rw [hseq]
    exact hfinish (storeOoo_inv h hp (by omega) (by omega)) (position_storeOoo _ _ _).ge

theorem serviceFin_inv (h : StreamInv S isn out m c) (hseq : seg.seq = serial (isn + 1 + off))
    (hend : off + seg.payload.length = S.length) (hclose : S.length < position out c + 2 ^ 32) :
    StreamInv S isn out m (serviceFin seg c) := by
  have hbit := finBit_le c
  have hpos := position_le h
  have hfinseq : (seg.seq + seg.payload.length) % 2 ^ 32 = serial (isn + 1 + S.length) := by
    rw [hseq, serial_add]
    exact congrArg serial (by omega)
  unfold serviceFin
  by_cases hoff : c.established = false ∧ c.peerFinPending = false ∧ c.peerFin = false
  · rw [if_pos hoff]; exact h
  rw [if_neg hoff]
  rw [hfinseq]
  by_cases heq : serial (isn + 1 + S.length) = c.rcvNxt
  · rw [if_pos heq]
    rw [h.rcv_position] at heq
    have hat := serial_inj heq (by omega) (by omega)
    have hopen := h.open_of_lt (le_refl S.length) (by omega)
    refine (h.close hopen ?_).same (sameRx_send _ _)
    rw [position_open hopen] at hat
    omega
  · rw [if_neg heq]
    by_cases hafter : serialAfter (serial (isn + 1 + S.length)) c.rcvNxt = false
    · rw [if_pos hafter]
      split
      · exact h.same (sameRx_send _ _)
      · exact h
    · -- a FIN ahead of a gap is remembered
      rw [if_neg hafter]
      have hlt : position out c < S.length := by
        have ht : serialAfter (serial (isn + 1 + S.length)) c.rcvNxt = true := by
          simpa using hafter
        rw [h.rcv_position] at ht
        have := lt_of_serialAfter ht (by omega)
        omega
      have hopen := h.open_of_lt (le_refl S.length) (by omega)
      refine completeFin_inv (StreamInv.same ?_ (sameRx_send ACK _))
      refine { h with pending := fun _ => ⟨hopen, rfl, ?_⟩ }
      rwa [position_open hopen] at hclose

theorem serviceRst_inv (seg : Segment) (h : StreamInv S isn out m c) :
    StreamInv S isn out m (serviceRst seg c) := by
  unfold serviceRst
  have hconn := h.connect
  split
  next hc =>
    rw [hconn] at hc
    cases hc.1
  next =>
  split
  · split
    · exact { h with connect := rfl }
    · split
      · exact h.same (sameRx_send _ _)
      · exact h
  · exact h

/-- **One segment of the peer** keeps the invariant. -/
theorem serviceSegment_inv (kmallocOk : Nat → Bool) (h : StreamInv S isn out NET_TCP_OOO_BYTES c)
    (hok : SegOk S isn (position out c) seg) :
    StreamInv S isn out NET_TCP_OOO_BYTES (serviceSegment kmallocOk seg c) := by
  unfold serviceSegment
  split
  · exact serviceRst_inv seg h
  split
  · -- no handshake is pending
    unfold serviceSynAck
    rw [if_pos (.inl h.connect)]
    exact h
  dsimp only
  have hack := sameRx_applyAck seg.ack c
  have h1 := h.same hack
  have hpos1 : position out (tcpApplyAck seg.ack c) = position out c := position_same hack
  set c1 := tcpApplyAck seg.ack c
  split
  · exact h1
  rcases hok with ⟨hnil, hnofin⟩ | ⟨off, hseq, hp, hlen, hlo, hhi, hfin⟩
  · rw [if_neg (not_not.mpr hnil), if_neg (by rw [hnofin]; decide)]
    exact h1
  split
  next hne =>
    obtain ⟨h2, hpos2⟩ := rxEnsure_inv kmallocOk h1
    split
    · exact h2.same (sameRx_send _ _)
    obtain ⟨h3, hpos3⟩ := servicePayload_inv h2 hseq hp hne hlen (by omega) (by omega)
    split
    next hf =>
      have hend := hfin hf
      exact serviceFin_inv h3 hseq hend (by omega)
    next => exact h3
  next =>
    split
    next hf => exact serviceFin_inv h1 hseq (hfin hf) (by have := hfin hf; omega)
    next => exact h1

/-! ## Queued segments -/

def FramesOk (S : List Byte) (isn : Nat) (out : List Byte) : List Arrival → Conn → Prop
  | [], _ => True
  | a :: as, c =>
    SegOk S isn (position out c) a.seg ∧ FramesOk S isn out as (serviceSegment a.kmallocOk a.seg c)

theorem frames_inv (h : StreamInv S isn out NET_TCP_OOO_BYTES c)
    (hok : FramesOk S isn out frames c) :
    StreamInv S isn out NET_TCP_OOO_BYTES
    (frames.foldl (fun c a => serviceSegment a.kmallocOk a.seg c) c) := by
  induction frames generalizing c with
  | nil => exact h
  | cons a as ih => exact ih (serviceSegment_inv a.kmallocOk h hok.1) hok.2

theorem service_inv {budget : Nat} (h : StreamInv S isn out NET_TCP_OOO_BYTES c)
    (hok : FramesOk S isn out (frames.take budget) c) :
    StreamInv S isn out NET_TCP_OOO_BYTES (netTcpService budget frames c) :=
  frames_inv h hok

/-! ## Reading -/

theorem takeRx_inv (cap : Nat) (h : StreamInv S isn out m c) :
    StreamInv S isn (out ++ (takeRx cap c).1) m (takeRx cap c).2 := by
  have hmove : (out ++ (takeRx cap c).1) ++ (takeRx cap c).2.rx = out ++ c.rx := by
    unfold takeRx
    rw [append_assoc, take_append_drop]
  have hless : (takeRx cap c).2.rx.length ≤ c.rx.length := by
    unfold takeRx
    rw [length_drop]
    exact sub_le _ _
  refine ⟨?_, ?_, ?_, ?_, ?_, le_trans hless h.fits, h.connect⟩
  all_goals rw [hmove]
  · exact h.stream
  · exact h.rcv
  · exact h.fin
  · exact h.pending
  · exact h.slots

theorem mergeFin_inv (h : StreamInv S isn out NET_TCP_OOO_BYTES c) :
    StreamInv S isn out NET_TCP_OOO_BYTES (tcpTryCompleteFin (tcpTryMergeOoo c)) :=
  completeFin_inv (mergeOoo_inv h (by decide))

theorem windowUpdate_inv (h : StreamInv S isn out NET_TCP_OOO_BYTES c) :
    StreamInv S isn out NET_TCP_OOO_BYTES (netTcpWindowUpdate c) := by
  unfold netTcpWindowUpdate
  split
  · exact h
  · exact (mergeFin_inv h).same (sameRx_send _ _)

/-- The segments that arrive while the reader waits are the peer's. -/
def RoundsOk (S : List Byte) (isn : Nat) (out : List Byte) : List Round → Conn → Prop
  | [], _ => True
  | r :: rs, c =>
    FramesOk S isn out (r.frames.take 16) c
          ∧ ((netTcpService 16 r.frames c).rx = [] → RoundsOk S isn out rs
          (if r.windowDue then netTcpWindowUpdate (netTcpService 16 r.frames c)
            else netTcpService 16 r.frames c))

theorem recvLoop_inv (h : StreamInv S isn out NET_TCP_OOO_BYTES c)
    (hok : RoundsOk S isn out rounds c) :
    StreamInv S isn (out ++ (recvLoop cap rounds c).1.bytes) NET_TCP_OOO_BYTES
    (recvLoop cap rounds c).2 := by
  induction rounds generalizing c with
  | nil =>
    rw [show (recvLoop cap [] c).1.bytes = [] from rfl, append_nil]
    exact h
  | cons r rs ih =>
    have h1 := service_inv h hok.1
    unfold recvLoop
    by_cases hrx : (netTcpService 16 r.frames c).rx ≠ []
    · rw [if_pos hrx]
      exact windowUpdate_inv (takeRx_inv cap h1)
    rw [if_neg hrx]
    by_cases hrst : (netTcpService 16 r.frames c).peerRst = true
    · rw [if_pos hrst, show RecvResult.reset.bytes = [] from rfl, append_nil]
      exact h1
    rw [if_neg hrst]
    by_cases hfin : (netTcpService 16 r.frames c).peerFin = true
    · rw [if_pos hfin, show RecvResult.eof.bytes = [] from rfl, append_nil]
      exact h1
    rw [if_neg hfin]
    refine ih ?_ (hok.2 (not_not.mp hrx))
    split
    · exact windowUpdate_inv h1
    · exact h1

/-- **`net_tcp_recv`** keeps the invariant, with what it returns counted as read. -/
theorem recv_inv {first : Round} (h : StreamInv S isn out NET_TCP_OOO_BYTES c)
    (hok : (tcpTryCompleteFin (tcpTryMergeOoo c)).rx = [] →
      RoundsOk S isn out (first :: rounds) (tcpTryCompleteFin (tcpTryMergeOoo c))) :
    StreamInv S isn (out ++ (netTcpRecv cap first rounds c).1.bytes) NET_TCP_OOO_BYTES
      (netTcpRecv cap first rounds c).2 := by
  have h1 := mergeFin_inv h
  unfold netTcpRecv
  by_cases hcap : cap = 0
  · rw [if_pos hcap, show RecvResult.invalid.bytes = [] from rfl, append_nil]
    exact h
  rw [if_neg hcap]
  by_cases hrx : (tcpTryCompleteFin (tcpTryMergeOoo c)).rx ≠ []
  · rw [if_pos hrx]
    exact windowUpdate_inv (mergeFin_inv (takeRx_inv cap h1))
  · rw [if_neg hrx]
    exact recvLoop_inv h1 (hok (not_not.mp hrx))

/-! ## Runs -/

/-- What happens to a connection: segments are taken from the queue, or a thread reads. -/
inductive RxStep where
  | service (budget : Nat) (frames : List Arrival)
  | recv (cap : Nat) (first : Round) (rounds : List Round)

/-- A connection and what has been read from it. -/
structure RxState where
  conn : Conn
  out : List Byte

def RxStep.run (s : RxState) : RxStep → RxState
  | .service budget frames => { s with conn := netTcpService budget frames s.conn }
  | .recv cap first rounds =>
    let r := netTcpRecv cap first rounds s.conn
    { conn := r.2, out := s.out ++ r.1.bytes }

/-- The segments that the step processes are the peer's. -/
def RxStep.Ok (S : List Byte) (isn : Nat) (s : RxState) : RxStep → Prop
  | .service budget frames => FramesOk S isn s.out (frames.take budget) s.conn
  | .recv cap first rounds =>
    0 < cap ∧ ((tcpTryCompleteFin (tcpTryMergeOoo s.conn)).rx = [] →
      RoundsOk S isn s.out (first :: rounds) (tcpTryCompleteFin (tcpTryMergeOoo s.conn)))

def runRx (steps : List RxStep) (s : RxState) : RxState := steps.foldl RxStep.run s

def RxStepsOk (S : List Byte) (isn : Nat) : List RxStep → RxState → Prop
  | [], _ => True
  | e :: es, s => e.Ok S isn s ∧ RxStepsOk S isn es (e.run s)

/-- An established connection before the first byte of the peer. -/
structure Established (isn : Nat) (c : Conn) : Prop where
  established : c.established = true
  connect : c.connectPending = false
  rcv : c.rcvNxt = serial (isn + 1)
  rx : c.rx = []
  slots : c.ooo.length = NET_TCP_OOO_SLOTS ∧ ∀ s ∈ c.ooo, s.valid = false
  fin : c.peerFin = false ∧ c.peerFinPending = false

theorem established_inv (S : List Byte) (h : Established isn c) :
    StreamInv S isn [] NET_TCP_OOO_BYTES c := by
  have hbit : c.finBit = 0 := by rw [Conn.finBit, h.fin.1]; rfl
  refine ⟨?_, ?_, ?_, ?_, ?_, ?_, h.connect⟩
  · rw [h.rx]
    exact nil_prefix
  · rw [h.rcv, h.rx, hbit]
    rfl
  · intro hf
    rw [h.fin.1] at hf
    cases hf
  · intro hf
    rw [h.fin.2] at hf
    cases hf
  · intro s hs hv
    rw [h.slots.2 s hs] at hv
    cases hv
  · rw [h.rx]
    exact zero_le _

theorem rxStep_inv {e : RxStep} (h : StreamInv S isn s.out NET_TCP_OOO_BYTES s.conn)
    (hok : e.Ok S isn s) :
    StreamInv S isn (e.run s).out NET_TCP_OOO_BYTES (e.run s).conn := by
  cases e with
  | service budget frames => exact service_inv h hok
  | recv cap first rounds => exact recv_inv h hok.2

theorem runRx_inv {steps : List RxStep} (h : StreamInv S isn s.out NET_TCP_OOO_BYTES s.conn)
    (hok : RxStepsOk S isn steps s) : StreamInv S isn (runRx steps s).out NET_TCP_OOO_BYTES
    (runRx steps s).conn := by
  induction steps generalizing s with
  | nil => exact h
  | cons e es ih => exact ih (rxStep_inv h hok.1) hok.2

/-- **The reader sees the peer's stream.** `S` is what the peer sends before its FIN. After any run
of segments of `S`, in any order and with any overlap, and of reads, the bytes read and the bytes
buffered are a prefix of `S`; `rcv_nxt` counts them and the FIN; and the FIN has been taken only
behind all of `S`. -/
theorem stream_integrity (S : List Byte) (isn : Nat) (c : Conn) (steps : List RxStep)
    (hc : Established isn c) (hok : RxStepsOk S isn steps ⟨c, []⟩) :
    (runRx steps ⟨c, []⟩).out ++ (runRx steps ⟨c, []⟩).conn.rx <+: S
      ∧ sub32 (runRx steps ⟨c, []⟩).conn.rcvNxt (serial (isn + 1))
          = (((runRx steps ⟨c, []⟩).out ++ (runRx steps ⟨c, []⟩).conn.rx).length
              + (runRx steps ⟨c, []⟩).conn.peerFin.toNat) % 2 ^ 32
      ∧ ((runRx steps ⟨c, []⟩).conn.peerFin = true →
          (runRx steps ⟨c, []⟩).out ++ (runRx steps ⟨c, []⟩).conn.rx = S) := by
  have h := runRx_inv (established_inv S hc) hok
  refine ⟨h.stream, ?_, h.fin⟩
  rw [h.rcv]
  unfold sub32 serial Conn.finBit
  omega

/-- A connection whose sequence numbers wrap after two bytes. -/
def wrappingConn : Conn :=
  { established := true, connectPending := false, connectRefused := false, peerFin := false
    peerFinPending := false, peerFinSeq := 0, peerRst := false, synIsn := 7, sndUna := 8
    sndNxt := 8, rcvNxt := 2 ^ 32 - 2, rxBuf := false, rxCap := 0, rx := [], rcvWscale := 0
    ooo := List.replicate NET_TCP_OOO_SLOTS ⟨false, 0, []⟩, oooValid := 0, sent := [] }

/-- The end of the stream with its FIN, then the start, then a read of everything. -/
def reorderedSteps : List RxStep :=
  [.service 1 [⟨⟨1, 8, ACK + FIN, [4, 5]⟩, fun _ => true⟩],
   .service 1 [⟨⟨2 ^ 32 - 2, 8, ACK, [1, 2, 3]⟩, fun _ => true⟩],
   .recv 16 ⟨[], false⟩ []]

theorem stream_integrity_reordered : Established (2 ^ 32 - 3) wrappingConn
      ∧ RxStepsOk [1, 2, 3, 4, 5] (2 ^ 32 - 3) reorderedSteps ⟨wrappingConn, []⟩
      ∧ (runRx reorderedSteps ⟨wrappingConn, []⟩).out = [1, 2, 3, 4, 5]
      ∧ (runRx reorderedSteps ⟨wrappingConn, []⟩).out
          ++ (runRx reorderedSteps ⟨wrappingConn, []⟩).conn.rx <+: [1, 2, 3, 4, 5] := by
  have hc : Established (2 ^ 32 - 3) wrappingConn := by
    refine ⟨rfl, rfl, by decide, rfl, ⟨by decide, ?_⟩, rfl, rfl⟩
    intro s hs
    rw [eq_of_mem_replicate hs]
  suffices hok : _ from ⟨hc, hok, by decide +kernel, (stream_integrity _ _ _ _ hc hok).1⟩
  refine ⟨⟨.inr ⟨3, by decide, by decide, by decide, by decide +kernel, by decide +kernel,
      fun _ => by decide⟩, trivial⟩,
    ⟨.inr ⟨0, by decide, by decide, by decide, by decide +kernel, by decide +kernel,
      fun hf => absurd hf (by decide)⟩, trivial⟩, ⟨by decide, ?_⟩, trivial⟩
  exact fun hrx => absurd hrx (by decide +kernel)

end AxonOS.Net

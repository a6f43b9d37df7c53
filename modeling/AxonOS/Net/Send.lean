import AxonOS.Lib.Run
import AxonOS.Net.Receive

/-! # The send side of a TCP connection

The functions of `net/tcp.c` that account for what has been sent: the SYN-ACK of a server with
`net_tcp_server_complete_ack`, and `net_tcp_send` with `net_tcp_flush_tx`. Both compare sequence
numbers, in some places by the sign of their difference and in others by their values. The second
kind is right as long as the numbers have not wrapped.
-/

namespace AxonOS.Net

open Lib List Nat

/-! ## The handshake of a server -/

/-- An entry of the socket table. -/
structure Sock where
  used : Bool
  conn : Conn
  deriving DecidableEq, Repr

/-- `memset(c, 0, sizeof(*c))`. -/
def Conn.zero : Conn where
  established := false
  connectPending := false
  connectRefused := false
  peerFin := false
  peerFinPending := false
  peerFinSeq := 0
  peerRst := false
  synIsn := 0
  sndUna := 0
  sndNxt := 0
  rcvNxt := 0
  rxBuf := false
  rxCap := 0
  rx := []
  rcvWscale := 0
  ooo := List.replicate NET_TCP_OOO_SLOTS ⟨false, 0, []⟩
  oooValid := 0
  sent := []

def netTcpReset (s : Sock) : Sock where
  used := false
  conn := { s.conn with
    rxBuf := false
    rxCap := 0
    rx := []
    established := false
    connectPending := false
    connectRefused := false
    peerFin := false
    peerFinPending := false
    peerFinSeq := 0
    peerRst := false
    sndUna := 0
    sndNxt := 0
    synIsn := 0
    rcvNxt := 0
    oooValid := 0
    ooo := s.conn.ooo.map OooSlot.clear }

/-- The initial sequence number a server takes at the time `timeMs`. -/
def serverIsn (timeMs : Nat) : Nat := (timeMs ^^^ 0x81A5D77D) % 2 ^ 32

/-- `net_tcp_server_reply_syn`; `true` stands for the result 0. `sendOk` says whether the segment
can be sent. -/
def netTcpServerReplySyn (timeMs : Nat) (kmallocOk : Nat → Bool) (sendOk : Bool) (clientSeq : Nat)
    (s : Sock) : Bool × Sock :=
  let isn := serverIsn timeMs
  let r := netTcpRxEnsure kmallocOk (netTcpReset s).conn
  if r.1 = false then (false, ⟨true, r.2⟩)
  else
    let c := { r.2 with
      synIsn := isn
      sndUna := isn
      sndNxt := isn
      rcvNxt := (clientSeq + 1) % 2 ^ 32 }
    if sendOk = false then (false, ⟨true, c⟩)
    else (true, ⟨true, { tcpSendSeg (SYN ||| ACK) c with sndNxt := (isn + 1) % 2 ^ 32 }⟩)

def netTcpServerCompleteAck (ack : Nat) (s : Sock) : Bool × Sock :=
  if s.used = false ∨ s.conn.established = true then (false, s)
  else if ack ≠ (s.conn.synIsn + 1) % 2 ^ 32 ∨ ack ≠ s.conn.sndNxt then (false, s)
  else
    (true, { s with conn := { s.conn with
      sndUna := ack
      established := true
      connectPending := false } })

def netTcpRejectAck (sendOk : Bool) (ack : Nat) (s : Sock) : Bool × Sock :=
  let saved := s.conn.sndNxt
  let c := { s.conn with sndNxt := ack }
  let c := if sendOk then tcpSendSeg RST c else c
  (sendOk, { s with conn := { c with sndNxt := saved } })

def netTcpServerResendSynack (sendOk : Bool) (s : Sock) : Bool × Sock :=
  if s.used = false then (false, s)
  else
    let saveSnd := s.conn.sndNxt
    let c := { s.conn with sndNxt := s.conn.synIsn }
    let c := if sendOk then tcpSendSeg (SYN ||| ACK) c else c
    let c := if saveSnd > c.synIsn then { c with sndNxt := saveSnd } else c
    (sendOk, { s with conn := c })

/-- What can be done with a connection while the ACK of the client is awaited. -/
inductive HandshakeOp where
  | resend (sendOk : Bool)
  | reject (sendOk : Bool) (ack : Nat)
  deriving DecidableEq, Repr

def HandshakeOp.run (s : Sock) : HandshakeOp → Sock
  | .resend sendOk => (netTcpServerResendSynack sendOk s).2
  | .reject sendOk ack => (netTcpRejectAck sendOk ack s).2

/-- The SYN-ACK with the number `isn` has been sent, its ACK has not come. -/
structure HalfOpen (isn : Nat) (s : Sock) : Prop where
  used : s.used = true
  waiting : s.conn.established = false
  synIsn : s.conn.synIsn = isn
  nxt : s.conn.sndNxt = (isn + 1) % 2 ^ 32

/-- Whatever is sent again or rejected, the ACK that is accepted is the one of the SYN. -/
def HandshakeLaw (isn : Nat) (s : Sock) : Prop :=
  ∀ ops : List HandshakeOp, (ops.foldl HandshakeOp.run s).conn.sndNxt = (isn + 1) % 2 ^ 32
      ∧ ∀ ack, (netTcpServerCompleteAck ack (ops.foldl HandshakeOp.run s)).1 = true ↔
      ack = (isn + 1) % 2 ^ 32

section Handshake

variable {isn : Nat} {s : Sock}

theorem rxEnsure_established (kmallocOk : Nat → Bool) (c : Conn) :
    (netTcpRxEnsure kmallocOk c).2.established = c.established := by
  unfold netTcpRxEnsure
  split
  · rfl
  · cases firstAllocated kmallocOk [256 * 1024, 128 * 1024, 64 * 1024] <;> rfl

theorem replySyn_halfOpen {timeMs clientSeq : Nat} {kmallocOk : Nat → Bool} {sendOk : Bool}
    (h : (netTcpServerReplySyn timeMs kmallocOk sendOk clientSeq s).1 = true) :
    HalfOpen (serverIsn timeMs) (netTcpServerReplySyn timeMs kmallocOk sendOk clientSeq s).2 := by
  unfold netTcpServerReplySyn at h ⊢
  dsimp only at h ⊢
  split at h
  · cases h
  next hbuf =>
  rw [if_neg hbuf]
  split at h
  · cases h
  next hsend =>
    rw [if_neg hsend]
    refine ⟨rfl, ?_, rfl, rfl⟩
    exact rxEnsure_established kmallocOk (netTcpReset s).conn

theorem HalfOpen.reject (h : HalfOpen isn s) (sendOk : Bool) (ack : Nat) :
    HalfOpen isn (netTcpRejectAck sendOk ack s).2 := by
  cases sendOk <;> exact { h with }

/-- What sending the SYN-ACK again leaves: the comparison with `syn_isn` is one of values. -/
theorem resendSynack_eq (sendOk : Bool) (hused : s.used = true) :
    ∃ sent, (netTcpServerResendSynack sendOk s).2 = { s with conn := { s.conn with
      sndNxt := if s.conn.sndNxt > s.conn.synIsn then s.conn.sndNxt else s.conn.synIsn
      sent := sent } } := by
  have hu : ¬ s.used = false := by simp [hused]
  rw [netTcpServerResendSynack, if_neg hu]
  cases sendOk with
  | false =>
    refine ⟨s.conn.sent, ?_⟩
    simp only [Bool.false_eq_true, if_false]
    split <;> rfl
  | true =>
    refine ⟨(tcpSendSeg (SYN ||| ACK) { s.conn with sndNxt := s.conn.synIsn }).sent, ?_⟩
    simp only [if_true, tcpSendSeg]
    split <;> rfl

section

variable (h : HalfOpen isn s)

include h

theorem HalfOpen.resend_nxt (sendOk : Bool) : (netTcpServerResendSynack sendOk s).2.conn.sndNxt
      = if (isn + 1) % 2 ^ 32 > isn then (isn + 1) % 2 ^ 32 else isn := by
  obtain ⟨sent, he⟩ := resendSynack_eq sendOk h.used
  rw [he, ← h.nxt]
  show (if s.conn.sndNxt > s.conn.synIsn then s.conn.sndNxt else s.conn.synIsn) = _
  rw [h.synIsn]

theorem HalfOpen.resend (hisn : isn + 1 < 2 ^ 32) (sendOk : Bool) :
    HalfOpen isn (netTcpServerResendSynack sendOk s).2 := by
  have hnxt := h.resend_nxt sendOk
  rw [mod_eq_of_lt hisn, if_pos (lt_succ_self isn)] at hnxt
  obtain ⟨sent, he⟩ := resendSynack_eq sendOk h.used
  rw [he] at hnxt ⊢
  exact { h with nxt := hnxt.trans (mod_eq_of_lt hisn).symm }

theorem HalfOpen.run (hisn : isn + 1 < 2 ^ 32) (ops : List HandshakeOp) :
    HalfOpen isn (ops.foldl HandshakeOp.run s) := by
  refine foldlRecOn ops _ h fun s hs op _ => ?_
  cases op with
  | resend sendOk => exact hs.resend hisn sendOk
  | reject sendOk ack => exact hs.reject sendOk ack

theorem HalfOpen.completeAck (ack : Nat) :
    (netTcpServerCompleteAck ack s).1 = true ↔ ack = (isn + 1) % 2 ^ 32 := by
  have hopen : ¬ (s.used = false ∨ s.conn.established = true) := by simp [h.used, h.waiting]
  simp only [netTcpServerCompleteAck, if_neg hopen, h.synIsn, h.nxt, or_self]
  split
  next hne => exact iff_of_false nofun hne
  next heq => exact iff_of_true rfl (not_not.mp heq)

/-- **The handshake** goes wrong for the last sequence number only: sending the SYN-ACK again then
leaves `snd_nxt` at the number of the SYN. -/
theorem HalfOpen.law_iff (hisn : isn < 2 ^ 32) : HandshakeLaw isn s ↔ isn ≠ 2 ^ 32 - 1 := by
  constructor
  · rintro hlaw rfl
    have hnxt : (netTcpServerResendSynack true s).2.conn.sndNxt = _ := (hlaw [.resend true]).1
    rw [h.resend_nxt true] at hnxt
    revert hnxt
    decide
  · intro hne ops
    have hrun := h.run (by omega) ops
    exact ⟨hrun.nxt, hrun.completeAck⟩

end

end Handshake

/-! ## Sending -/

/-- A segment whose acknowledgement number is one of 32 bits. -/
structure Incoming extends Arrival where
  ack_lt : seg.ack < 2 ^ 32

/-- A connection together with two positions in the stream of the bytes it sends: `sent` is the one
`snd_nxt` stands for, and `acked` the one `snd_una` stands for. -/
structure TxState where
  conn : Conn
  sent : Nat
  acked : Nat

/-- The positions when the stream starts near `snd_una`. -/
def TxState.start (c : Conn) : TxState := ⟨c, c.sndUna + sub32 c.sndNxt c.sndUna, c.sndUna⟩

/-- The loop body of `net_tcp_service`. -/
def TxState.segment (s : TxState) (a : Incoming) : TxState :=
  let c := serviceSegment a.kmallocOk a.seg s.conn
  { s with conn := c, acked := s.acked + sub32 c.sndUna s.conn.sndUna }

/-- `net_tcp_service`. -/
def TxState.service (budget : Nat) (frames : List Incoming) (s : TxState) : TxState :=
  (frames.take budget).foldl TxState.segment s

/-- `tcp_send_seg(c, ops, 0x18u, data + off, chunk)` with the step of `snd_nxt`. -/
def TxState.chunk (n : Nat) (s : TxState) : TxState :=
  { s with
    conn := { tcpSendSeg 0x18 s.conn with sndNxt := (s.conn.sndNxt + n) % 2 ^ 32 }
    sent := s.sent + n }

/-- What happens with one chunk: whether it can be sent, and the segments that the polls behind it
find. -/
structure SendTurn where
  sendOk : Bool
  polls : List (List Incoming)

/-- The polls of `net_tcp_send` until the chunk that ends at `target` seems to be acknowledged. -/
def sendPoll (target : Nat) : List (List Incoming) → TxState → TxState
  | [], s => s
  | fs :: rest, s =>
    let s := s.service 8 fs
    if s.conn.sndUna ≥ target then s else sendPoll target rest s

/-- The loop of `net_tcp_send` from the offset `off` on, for at most the given number of rounds. -/
def sendFrom (turns : Nat → SendTurn) (len : Nat) : Nat → Nat → TxState → Int × TxState
  | 0, _, s => (len, s)
  | n + 1, off, s =>
    if off < len then
      let chunk := if len - off > 1460 then 1460 else len - off
      if (turns off).sendOk = false then (if off > 0 then off else -1, s)
      else
        let target := (s.conn.sndNxt + chunk) % 2 ^ 32
        sendFrom turns len n (off + chunk)
        (sendPoll target ((turns off).polls.take 32) (s.chunk chunk))
    else (len, s)

/-- `net_tcp_send`; every round sends a byte at least, so the rounds suffice. -/
def netTcpSend (turns : Nat → SendTurn) (len : Nat) (s : TxState) : Int × TxState :=
  if s.conn.established = false then (-1, s) else sendFrom turns len len 0 s

/-- The loop of `net_tcp_flush_tx`; it ends when the time is up, after the given rounds. -/
def flushLoop : List (List Incoming) → TxState → Int × TxState
  | [], s => (if s.conn.sndUna ≥ s.conn.sndNxt then 0 else -2, s)
  | fs :: rest, s =>
    let s := s.service 16 fs
    if s.conn.sndUna ≥ s.conn.sndNxt then (0, s) else flushLoop rest s

def netTcpFlushTx (rounds : List (List Incoming)) (s : TxState) : Int × TxState :=
  if s.conn.established = false ∨ s.conn.sndUna ≥ s.conn.sndNxt then (0, s) else flushLoop rounds s

/-- A chunk of `net_tcp_send`, or a segment that comes in. -/
inductive TxOp where
  | chunk (n : Nat)
  | segment (a : Incoming)

def TxOp.run (s : TxState) : TxOp → TxState
  | .chunk n => s.chunk n
  | .segment a => s.segment a

/-! ### What a segment does to the send side -/

/-- The fields of the send side are the same. -/
structure SameTx (c c' : Conn) : Prop where
  una : c'.sndUna = c.sndUna
  nxt : c'.sndNxt = c.sndNxt
  pending : c'.connectPending = c.connectPending

section Segment

variable {c c' c'' : Conn}

theorem SameTx.refl (c : Conn) : SameTx c c := ⟨rfl, rfl, rfl⟩

theorem SameTx.trans (h1 : SameTx c c') (h2 : SameTx c' c'') : SameTx c c'' :=
  ⟨h2.una.trans h1.una, h2.nxt.trans h1.nxt, h2.pending.trans h1.pending⟩

theorem sameTx_send (flags : Nat) (c : Conn) : SameTx c (tcpSendSeg flags c) := ⟨rfl, rfl, rfl⟩

theorem sameTx_completeFin (c : Conn) : SameTx c (tcpTryCompleteFin c) := by
  unfold tcpTryCompleteFin
  split
  · exact SameTx.refl c
  · split
    · exact SameTx.refl c
    · exact ⟨rfl, rfl, rfl⟩

theorem sameTx_storeOoo (seq : Nat) (payload : List Byte) (c : Conn) :
    SameTx c (tcpStoreOoo seq payload c) := by
  obtain ⟨ooo, k, he, -⟩ := storeOoo_eq seq payload c
  rw [he]
  exact ⟨rfl, rfl, rfl⟩

theorem sameTx_mergeOoo (c : Conn) : SameTx c (tcpTryMergeOoo c) := by
  obtain ⟨bs, r, k, ooo, he⟩ := mergeOoo_eq c
  rw [he]
  exact ⟨rfl, rfl, rfl⟩

theorem sameTx_rxEnsure (kmallocOk : Nat → Bool) (c : Conn) :
    SameTx c (netTcpRxEnsure kmallocOk c).2 := by
  unfold netTcpRxEnsure
  split
  · exact SameTx.refl c
  · cases firstAllocated kmallocOk [256 * 1024, 128 * 1024, 64 * 1024] <;> exact ⟨rfl, rfl, rfl⟩

theorem sameTx_acceptInorder (seq : Nat) (payload : List Byte) (c : Conn) :
    SameTx c (tcpAcceptInorder seq payload c).2 := by
  rcases acceptInorder_cases seq payload c with he | ⟨skip, cp, -, -, -, he⟩
  · rw [he]
    exact SameTx.refl c
  · rw [he]
    exact ⟨rfl, rfl, rfl⟩

theorem sameTx_payload (seg : Segment) (c : Conn) : SameTx c (servicePayload seg c) := by
  unfold servicePayload
  dsimp only
  refine SameTx.trans ?_ ((sameTx_completeFin _).trans (sameTx_send ACK _))
  split
  · have hacc := sameTx_acceptInorder seg.seq seg.payload c
    refine SameTx.trans ?_ (sameTx_mergeOoo _)
    split
    · generalize (if seg.seq = c.rcvNxt then _ else _) = off
      split
      · exact hacc.trans (sameTx_storeOoo _ _ _)
      · exact hacc
    · exact hacc
  · exact sameTx_storeOoo seg.seq seg.payload c

theorem sameTx_fin (seg : Segment) (c : Conn) : SameTx c (serviceFin seg c) := by
  unfold serviceFin
  dsimp only
  split
  · exact SameTx.refl c
  split
  · exact ⟨rfl, rfl, rfl⟩
  split
  · split
    · exact sameTx_send ACK c
    · exact SameTx.refl c
  · refine SameTx.trans ?_ (sameTx_completeFin _)
    exact ⟨rfl, rfl, rfl⟩

theorem sameTx_rst (seg : Segment) (hpend : c.connectPending = false) :
    SameTx c (serviceRst seg c) := by
  unfold serviceRst
  rw [if_neg (by simp [hpend])]
  split
  · split
    · exact ⟨rfl, rfl, hpend.symm⟩
    · split
      · exact sameTx_send ACK c
      · exact SameTx.refl c
  · exact SameTx.refl c

/-- Behind `tcp_apply_ack` the rest of a segment does not touch the send side. -/
theorem serviceSegment_acks (kmallocOk : Nat → Bool) {seg : Segment} (hrst : seg.has RST = false)
    (hsyn : ¬ (seg.has SYN = true ∧ seg.has ACK = true ∧ c.established = false)) :
    SameTx (tcpApplyAck seg.ack c) (serviceSegment kmallocOk seg c) := by
  unfold serviceSegment
  rw [if_neg (by simp [hrst]), if_neg hsyn]
  dsimp only
  generalize tcpApplyAck seg.ack c = c'
  have hens := sameTx_rxEnsure kmallocOk c'
  split
  · exact SameTx.refl c'
  split
  · split
    · exact hens.trans (sameTx_send ACK _)
    · have hpay := hens.trans (sameTx_payload seg _)
      split
      · exact hpay.trans (sameTx_fin seg _)
      · exact hpay
  · split
    · exact sameTx_fin seg c'
    · exact SameTx.refl c'

theorem serviceSegment_cases (kmallocOk : Nat → Bool) (seg : Segment)
    (hpend : c.connectPending = false) :
    SameTx c (serviceSegment kmallocOk seg c)
      ∨ SameTx (tcpApplyAck seg.ack c) (serviceSegment kmallocOk seg c) := by
  cases hrst : seg.has RST with
  | true =>
    refine .inl ?_
    rw [serviceSegment, if_pos hrst]
    exact sameTx_rst seg hpend
  | false =>
    by_cases hsyn : seg.has SYN = true ∧ seg.has ACK = true ∧ c.established = false
    · refine .inl ?_
      rw [serviceSegment, if_neg (by simp [hrst]), if_pos hsyn, serviceSynAck, if_pos (.inl hpend)]
      exact SameTx.refl c
    · exact .inr (serviceSegment_acks kmallocOk hrst hsyn)

end Segment

/-! ### The positions of a run -/

/-- A connection that `net_tcp_server_complete_ack` or a SYN-ACK has established, at any later
time. -/
structure Opened (c : Conn) : Prop where
  established : c.established = true
  pending : c.connectPending = false
  una_lt : c.sndUna < 2 ^ 32
  nxt_lt : c.sndNxt < 2 ^ 32

/-- The fields of the connection are the serial numbers of the positions. -/
structure TxInv (s : TxState) : Prop where
  pending : s.conn.connectPending = false
  una : s.conn.sndUna = serial s.acked
  nxt : s.conn.sndNxt = serial s.sent
  le : s.acked ≤ s.sent

theorem txInv_start {c : Conn} (h : Opened c) : TxInv (TxState.start c) := by
  have h1 := h.una_lt
  have h2 := h.nxt_lt
  refine ⟨h.pending, (mod_eq_of_lt h1).symm, ?_, le_add_right _ _⟩
  show c.sndNxt = (c.sndUna + (c.sndNxt + 2 ^ 32 - c.sndUna) % 2 ^ 32) % 2 ^ 32
  omega

section Positions

variable {s : TxState}

theorem TxInv.chunk (h : TxInv s) (n : Nat) : TxInv (s.chunk n) := by
  refine ⟨h.pending, h.una, ?_, le_trans h.le (le_add_right _ _)⟩
  show (s.conn.sndNxt + n) % 2 ^ 32 = serial (s.sent + n)
  rw [h.nxt, serial_add]

/-- **What `tcp_apply_ack` does**, said with positions: nothing, or a step of less than `2^31` that
does not go beyond what has been sent. -/
theorem TxInv.applyAck (h : TxInv s) {ack : Nat} (hack : ack < 2 ^ 32) :
      tcpApplyAck ack s.conn = s.conn
      ∨ ∃ d, 0 < d ∧ d < 2 ^ 31 ∧ s.acked + d ≤ s.sent
          ∧ tcpApplyAck ack s.conn = { s.conn with sndUna := serial (s.acked + d) } := by
  unfold tcpApplyAck
  split
  · exact .inl rfl
  split
  next hacc =>
    rw [Bool.and_eq_true, Bool.not_eq_true', h.una, h.nxt] at hacc
    obtain ⟨hafter, hbefore⟩ := hacc
    refine .inr ⟨sub32 ack (serial s.acked), ?_, ?_, ?_, ?_⟩
    all_goals
      unfold serialAfter sub32 serial at *
      simp only [Bool.and_eq_true, Bool.and_eq_false_iff, decide_eq_true_eq,
        decide_eq_false_iff_not] at hafter hbefore
    · omega
    · omega
    · have hle := h.le
      omega
    · congr 1
      omega
  next => exact .inl rfl

/-- A segment leaves the positions alone or moves `acked` forward. -/
theorem TxInv.segment_cases (h : TxInv s) (a : Incoming) :
    SameTx s.conn (s.segment a).conn ∧ (s.segment a).acked = s.acked
      ∨ ∃ d, 0 < d ∧ s.acked + d ≤ s.sent
          ∧ SameTx { s.conn with sndUna := serial (s.acked + d) } (s.segment a).conn
          ∧ (s.segment a).acked = s.acked + d := by
  have hsame : SameTx s.conn (s.segment a).conn → (s.segment a).acked = s.acked := by
    intro hs
    show s.acked + sub32 (s.segment a).conn.sndUna s.conn.sndUna = s.acked
    rw [hs.una, h.una, sub32_serial (le_refl _) (by omega)]
    omega
  rcases serviceSegment_cases a.kmallocOk a.seg h.pending with hc | hc
  · exact .inl ⟨hc, hsame hc⟩
  rcases h.applyAck a.ack_lt with he | ⟨d, hpos, hlt, hle, he⟩
  · rw [he] at hc
    exact .inl ⟨hc, hsame hc⟩
  rw [he] at hc
  refine .inr ⟨d, hpos, hle, hc, ?_⟩
  show s.acked + sub32 (serviceSegment a.kmallocOk a.seg s.conn).sndUna s.conn.sndUna = _
  have hstep := sub32_serial (le_add_right s.acked d) (by omega)
  rw [hc.una, h.una, hstep]
  omega

theorem TxInv.segment (h : TxInv s) (a : Incoming) : TxInv (s.segment a) := by
  rcases h.segment_cases a with ⟨hs, hack⟩ | ⟨d, -, hle, hs, hack⟩
  · exact ⟨hs.pending.trans
      h.pending, by rw [hs.una, hack, h.una], hs.nxt.trans h.nxt, hack.trans_le h.le⟩
  · exact ⟨hs.pending.trans h.pending, by rw [hs.una, hack], hs.nxt.trans h.nxt, hack.trans_le hle⟩

theorem TxInv.step (h : TxInv s) (op : TxOp) : TxInv (op.run s) := by
  cases op with
  | chunk n => exact h.chunk n
  | segment a => exact h.segment a

theorem TxInv.run (h : TxInv s) (ops : List TxOp) : TxInv (ops.foldl TxOp.run s) :=
  foldlRecOn ops _ h fun _ hs op _ => hs.step op

end Positions

/-! ### `net_tcp_send` is such a run -/

theorem service_run (budget : Nat) (frames : List Incoming) (s : TxState) :
    s.service budget frames = ((frames.take budget).map TxOp.segment).foldl TxOp.run s := by
  rw [foldl_map]
  rfl

theorem sendPoll_run (target : Nat) (polls : List (List Incoming)) (s : TxState) :
    ∃ ops : List TxOp, sendPoll target polls s = ops.foldl TxOp.run s := by
  induction polls generalizing s with
  | nil => exact ⟨[], rfl⟩
  | cons fs rest ih =>
    unfold sendPoll
    dsimp only
    rw [service_run 8 fs s]
    split
    · exact ⟨_, rfl⟩
    · obtain ⟨ops, he⟩ := ih (((fs.take 8).map TxOp.segment).foldl TxOp.run s)
      exact ⟨(fs.take 8).map TxOp.segment ++ ops, by rw [he, foldl_append]⟩

theorem sendFrom_run (turns : Nat → SendTurn) (len n off : Nat) (s : TxState) :
    ∃ ops : List TxOp, (sendFrom turns len n off s).2 = ops.foldl TxOp.run s := by
  induction n generalizing off s with
  | zero => exact ⟨[], rfl⟩
  | succ n ih =>
    unfold sendFrom
    split
    · dsimp only
      generalize (if len - off > 1460 then 1460 else len - off) = chunk
      split
      · exact ⟨[], rfl⟩
      obtain ⟨polled, hpoll⟩ := sendPoll_run ((s.conn.sndNxt + chunk) % 2 ^ 32)
        ((turns off).polls.take 32) (s.chunk chunk)
      obtain ⟨ops, he⟩ := ih (off + chunk) (polled.foldl TxOp.run (s.chunk chunk))
      refine ⟨.chunk chunk :: (polled ++ ops), ?_⟩
      rw [hpoll, he, foldl_cons, foldl_append]
      rfl
    · exact ⟨[], rfl⟩

/-- **A call of `net_tcp_send`** is a run of chunks and segments. -/
theorem netTcpSend_run (turns : Nat → SendTurn) (len : Nat) (s : TxState) :
    ∃ ops : List TxOp, (netTcpSend turns len s).2 = ops.foldl TxOp.run s := by
  unfold netTcpSend
  split
  · exact ⟨[], rfl⟩
  · exact sendFrom_run turns len len 0 s

/-- **Acknowledgements stay within what has been sent**, whatever segments come in before and during
the call. -/
theorem netTcpSend_positions {c : Conn} (h : Opened c) (ops : List TxOp)
    (turns : Nat → SendTurn) (len : Nat) :
    TxInv (netTcpSend turns len (ops.foldl TxOp.run (TxState.start c))).2 := by
  obtain ⟨more, hrun⟩ := netTcpSend_run turns len (ops.foldl TxOp.run (TxState.start c))
  rw [hrun]
  exact ((txInv_start h).run ops).run more

/-! ### When the accounting is right -/

/-- Every byte sent has been acknowledged. -/
structure AllAcked (s : TxState) : Prop where
  fields : s.conn.sndUna = s.conn.sndNxt
  positions : s.acked = s.sent

/-- On an established connection `net_tcp_flush_tx` returns 0 only if every byte sent has been
acknowledged, and a segment that acknowledges `snd_nxt` acknowledges every byte. -/
structure TxLaw (s : TxState) : Prop where
  flush : ∀ rounds, (netTcpFlushTx rounds s).1 = 0 → AllAcked (netTcpFlushTx rounds s).2
  ack : ∀ a : Incoming, a.seg.has RST = false → a.seg.ack = s.conn.sndNxt → AllAcked (s.segment a)

/-- Nothing is outstanding, or what is outstanding does not reach over the wrap and is less than
`2^31` bytes. -/
def Unwrapped (s : TxState) : Prop :=
  s.acked = s.sent ∨ s.conn.sndUna < s.conn.sndNxt ∧ s.sent < s.acked + 2 ^ 31

section Law

variable {s : TxState}

section

variable (h : TxInv s)

include h

theorem TxInv.allAcked (heq : s.acked = s.sent) : AllAcked s :=
  ⟨by rw [h.una, h.nxt, heq], heq⟩

/-- Without a wrap the comparison of values decides. -/
theorem TxInv.allAcked_of_le (hun : Unwrapped s) (hle : s.conn.sndUna ≥ s.conn.sndNxt) :
    AllAcked s := by
  rcases hun with heq | ⟨hlt, -⟩
  · exact h.allAcked heq
  · omega

theorem TxInv.unwrapped_segment (hun : Unwrapped s) (a : Incoming) : Unwrapped (s.segment a) := by
  rcases h.segment_cases a with ⟨hs, hack⟩ | ⟨d, hpos, hle, hs, hack⟩
  · unfold Unwrapped
    rw [hs.una, hs.nxt, hack]
    exact hun
  have hsent : (s.segment a).sent = s.sent := rfl
  unfold Unwrapped
  rw [hs.una, hs.nxt, hsent]
  dsimp only
  rcases hun with heq | ⟨hlt, hfew⟩
  · omega
  · -- the distance of the numbers is the distance of the positions
    rw [h.una, h.nxt] at hlt
    rw [h.nxt]
    unfold serial at *
    omega

theorem TxInv.unwrapped_service (hun : Unwrapped s) (budget : Nat) (frames : List Incoming) :
    TxInv (s.service budget frames) ∧ Unwrapped (s.service budget frames) := by
  unfold TxState.service
  generalize frames.take budget = fs
  induction fs generalizing s with
  | nil => exact ⟨h, hun⟩
  | cons a fs ih => exact ih (h.segment a) (h.unwrapped_segment hun a)

theorem TxInv.flushLoop (hun : Unwrapped s) (rounds : List (List Incoming))
    (hret : (flushLoop rounds s).1 = 0) : AllAcked (Net.flushLoop rounds s).2 := by
  induction rounds generalizing s with
  | nil =>
    unfold Net.flushLoop at hret ⊢
    split at hret
    next hle => exact h.allAcked_of_le hun hle
    next => cases hret
  | cons fs rest ih =>
    obtain ⟨h', hun'⟩ := h.unwrapped_service hun 16 fs
    unfold Net.flushLoop at hret ⊢
    dsimp only at hret ⊢
    split at hret
    next hle =>
      rw [if_pos hle]
      exact h'.allAcked_of_le hun' hle
    next hlt =>
      rw [if_neg hlt]
      exact ih h' hun' hret

theorem TxInv.flushTx (hest : s.conn.established = true) (hun : Unwrapped s)
    (rounds : List (List Incoming)) (hret : (netTcpFlushTx rounds s).1 = 0) :
    AllAcked (netTcpFlushTx rounds s).2 := by
  unfold netTcpFlushTx at hret ⊢
  split at hret
  next hstop =>
    rw [if_pos hstop]
    refine h.allAcked_of_le hun (hstop.resolve_left ?_)
    simp [hest]
  next hgo =>
    rw [if_neg hgo]
    exact h.flushLoop hun rounds hret

/-- What an acknowledgement of `snd_nxt` does. -/
theorem TxInv.ack_nxt (hest : s.conn.established = true) (hun : Unwrapped s) {a : Incoming}
    (hrst : a.seg.has RST = false) (hack : a.seg.ack = s.conn.sndNxt) : AllAcked (s.segment a) := by
  have hinv := h.segment a
  have hsame : SameTx (tcpApplyAck a.seg.ack s.conn) (s.segment a).conn :=
    serviceSegment_acks a.kmallocOk hrst (by simp [hest])
  refine hinv.allAcked ?_
  have hpos : (s.segment a).acked
      = s.acked + sub32 (tcpApplyAck a.seg.ack s.conn).sndUna s.conn.sndUna := by
    rw [← hsame.una]
    rfl
  show _ = s.sent
  rw [hpos, hack]
  rcases hun with heq | ⟨hlt, hfew⟩
  · -- nothing is outstanding: the acknowledgement is an old one
    have hstay : (tcpApplyAck s.conn.sndNxt s.conn).sndUna = s.conn.sndUna := by
      unfold tcpApplyAck
      split
      · rfl
      · split
        · rw [h.una, h.nxt, heq]
        · rfl
    rw [hstay, h.una, sub32_serial (le_refl _) (by omega)]
    omega
  · have hle := h.le
    have hne : ¬ s.conn.sndNxt = 0 := by omega
    have hmove : (tcpApplyAck s.conn.sndNxt s.conn).sndUna = s.conn.sndNxt := by
      unfold tcpApplyAck
      rw [if_neg hne, if_pos]
      rw [h.una, h.nxt] at hlt ⊢
      rw [Bool.and_eq_true, serialAfter_iff (by omega) (by omega)]
      refine ⟨?_, ?_⟩
      · by_contra hge
        have heq : s.acked = s.sent := by omega
        rw [heq] at hlt
        exact lt_irrefl _ hlt
      · unfold serialAfter
        rw [sub32_serial (le_refl _) (by omega)]
        simp
    rw [hmove, h.una, h.nxt, sub32_serial hle (by omega)]
    omega

/-- The segment that acknowledges `snd_nxt` and nothing else. -/
def ackOf (s : TxState) (h : TxInv s) : Incoming where
  seg := ⟨0, s.conn.sndNxt, ACK, []⟩
  kmallocOk := fun _ => true
  ack_lt := by
    show s.conn.sndNxt < 2 ^ 32
    rw [h.nxt]
    exact Nat.mod_lt _ (by decide)

theorem ackOf_rst : (ackOf s h).seg.has RST = false := by
  show (ACK &&& RST != 0) = false
  decide

/-- **The accounting** of an established connection is right exactly if nothing wraps. -/
theorem TxInv.law_iff (hest : s.conn.established = true) : TxLaw s ↔ Unwrapped s := by
  constructor
  · intro hlaw
    by_cases hle : s.conn.sndUna ≥ s.conn.sndNxt
    · -- `net_tcp_flush_tx` returns at once
      have hnow : netTcpFlushTx [] s = (0, s) := if_pos (.inr hle)
      have hall := hlaw.flush [] (by rw [hnow])
      rw [hnow] at hall
      exact .inl hall.positions
    · have hall := hlaw.ack (ackOf s h) (ackOf_rst h) rfl
      refine .inr ⟨by omega, ?_⟩
      rcases h.applyAck (ackOf s h).ack_lt with he | ⟨d, -, hlt, -, he⟩
      all_goals
        have hsame : SameTx (tcpApplyAck _ s.conn) (s.segment (ackOf s h)).conn :=
          serviceSegment_acks (ackOf s h).kmallocOk (ackOf_rst h) (by simp [hest])
        rw [he] at hsame
      · have hfield := hall.fields
        rw [hsame.una, hsame.nxt] at hfield
        omega
      · have hfix : s.acked + sub32 (s.segment (ackOf s h)).conn.sndUna s.conn.sndUna = s.sent :=
          hall.positions
        rw [hsame.una, h.una, sub32_serial (le_add_right s.acked d) (by omega)] at hfix
        omega
  · exact fun hun => ⟨h.flushTx hest hun, fun a => h.ack_nxt hest hun⟩

end

end Law

/-- **Wraparound.** A server accepts the ACK of its SYN after any number of repetitions exactly if
its initial sequence number is not the last one. And in every state that an established connection
reaches by sending chunks and receiving segments, the accounting of the send side is right exactly
if what is outstanding does not reach over the wrap. -/
theorem tcp_sequence_iff (timeMs clientSeq : Nat) (kmallocOk : Nat → Bool) (s : Sock) (c : Conn)
    (ops : List TxOp) : ((netTcpServerReplySyn timeMs kmallocOk true clientSeq s).1 = true →
      (HandshakeLaw (serverIsn timeMs) (netTcpServerReplySyn timeMs kmallocOk true clientSeq s).2
        ↔ serverIsn timeMs ≠ 2 ^ 32 - 1))
    ∧ (Opened c → (ops.foldl TxOp.run (TxState.start c)).conn.established = true →
      (TxLaw (ops.foldl TxOp.run (TxState.start c)) ↔
      Unwrapped (ops.foldl TxOp.run (TxState.start c)))) := by
  constructor
  · intro hok
    exact (replySyn_halfOpen hok).law_iff (mod_lt _ (by decide))
  · intro hopen hest
    exact ((txInv_start hopen).run ops).law_iff hest

/-- The connection of a server whose initial sequence number is taken at the time `timeMs`. -/
def answered (timeMs : Nat) : Sock :=
  (netTcpServerReplySyn timeMs (fun _ => true) true 0 ⟨false, Conn.zero⟩).2

/-- The connection of that server once the client has acknowledged the SYN. -/
def accepted (timeMs : Nat) : TxState :=
  TxState.start (netTcpServerCompleteAck ((serverIsn timeMs + 1) % 2 ^ 32) (answered timeMs)).2.conn

theorem tcp_sequence_early :
    HandshakeLaw (serverIsn 0) (answered 0) ∧ TxLaw ((accepted 0).chunk 2) := by
  have hopen : Opened (netTcpServerCompleteAck ((serverIsn 0 + 1) % 2 ^ 32) (answered 0)).2.conn :=
    ⟨rfl, rfl, by decide, by decide⟩
  obtain ⟨hsyn, htx⟩ := tcp_sequence_iff 0 0 (fun _ => true) ⟨false, Conn.zero⟩ _ [.chunk 2]
  exact ⟨(hsyn (by decide)).mpr (by decide), (htx hopen (by decide)).mpr (.inr (by decide))⟩

theorem netTcpSend_positions_early : TxInv (netTcpSend (fun _ => ⟨true, []⟩) 2 (accepted 0)).2 :=
  netTcpSend_positions ⟨rfl, rfl, by decide, by decide⟩ [] _ 2

/-- With the last sequence number a server that has sent its SYN-ACK again does not accept the ACK
of the client. With the one before it, two bytes take `snd_nxt` from `2^32 - 1` to 1, and
`net_tcp_flush_tx` returns 0 though none of them has been acknowledged. -/
theorem tcp_sequence_last : serverIsn 0x7E5A2882 = 2 ^ 32 - 1
      ∧ (netTcpServerCompleteAck 0 ((HandshakeOp.resend true).run (answered 0x7E5A2882))).1 = false
      ∧ serverIsn 0x7E5A2883 = 2 ^ 32 - 2 ∧ (netTcpFlushTx [] ((accepted 0x7E5A2883).chunk 2)).1 = 0
      ∧ (netTcpFlushTx [] ((accepted 0x7E5A2883).chunk 2)).2.acked + 2
          = (netTcpFlushTx [] ((accepted 0x7E5A2883).chunk 2)).2.sent := by
  decide

end AxonOS.Net

import AxonOS.Lib.Seq32

/-! # The receive side of a TCP connection

The receive path of `net/tcp.c`: `net_tcp_service` for a segment that has passed the header and
checksum tests, with the in-order accept, the out-of-order slots, the pending FIN, and
`net_tcp_recv`. Sequence numbers are 32-bit and `size_t` differences 64-bit. A buffer is the list of
the bytes in it: `rx` is `rx_buf[0..rx_len)` and the data of a slot is `ooo_buf[i][0..ooo_len[i])`.

The frame the segment came in, its options and the log messages are left out. Of the segments sent
in return, the header fields that depend on the connection are recorded in `sent`.
-/

namespace AxonOS.Net

open Lib

abbrev Byte := UInt8

def NET_TCP_OOO_SLOTS : Nat := 64
def NET_TCP_OOO_BYTES : Nat := 1600

/-- One slot of the reassembly queue. -/
structure OooSlot where
  valid : Bool
  seq : Nat
  data : List Byte
  deriving DecidableEq, Repr

/-- The header fields of a segment without payload that is sent. -/
structure Sent where
  flags : Nat
  seq : Nat
  ack : Nat
  wnd : Nat
  deriving DecidableEq, Repr

/-- The fields of `net_tcp_conn_t` the receive side uses. `rxBuf` says that `rx_buf` is not null. -/
structure Conn where
  established : Bool
  connectPending : Bool
  connectRefused : Bool
  peerFin : Bool
  peerFinPending : Bool
  peerFinSeq : Nat
  peerRst : Bool
  synIsn : Nat
  sndUna : Nat
  sndNxt : Nat
  rcvNxt : Nat
  rxBuf : Bool
  rxCap : Nat
  rx : List Byte
  rcvWscale : Nat
  ooo : List OooSlot
  oooValid : Nat
  sent : List Sent
  deriving DecidableEq, Repr

/-- A segment that has passed the tests of the headers and the checksum. -/
structure Segment where
  seq : Nat
  ack : Nat
  flags : Nat
  payload : List Byte
  deriving DecidableEq, Repr

def Segment.has (s : Segment) (mask : Nat) : Bool := s.flags &&& mask != 0

def FIN : Nat := 0x01
def SYN : Nat := 0x02
def RST : Nat := 0x04
def ACK : Nat := 0x10

def sub64 (a b : Nat) : Nat := (a + 2 ^ 64 - b) % 2 ^ 64

def tcpSeqInWindow (seq rcvNxt wnd : Nat) : Bool :=
  if wnd = 0 then decide (seq = rcvNxt)
  else
    let last := (rcvNxt + wnd + 2 ^ 32 - 1) % 2 ^ 32
    !serialAfter rcvNxt seq && !serialAfter seq last

/-- `net_tcp_rx_room`. -/
def rxRoom (c : Conn) : Nat :=
  if c.rxBuf = false ∨ c.rxCap ≤ c.rx.length then 0 else c.rxCap - c.rx.length

def tcpApplyAck (ack : Nat) (c : Conn) : Conn :=
  if ack = 0 then c
  else if serialAfter ack c.sndUna && !serialAfter ack c.sndNxt then { c with sndUna := ack }
  else c

/-- The loop of `tcp_select_window_scaling`, which makes at most 14 steps. -/
def windowScalingFrom (space : Nat) : Nat → Nat → Nat
  | 0, w => w
  | n + 1, w => if space / 2 ^ w > 65535 then windowScalingFrom space n (w + 1) else w

def tcpSelectWindowScaling (space : Nat) : Nat := windowScalingFrom space 14 0

/-- The first of the buffer sizes that can be allocated. -/
def firstAllocated (kmallocOk : Nat → Bool) : List Nat → Option Nat
  | [] => none
  | n :: ns => if kmallocOk n then some n else firstAllocated kmallocOk ns

/-- `net_tcp_rx_ensure`; `kmallocOk n` says whether `kmalloc(n)` succeeds. -/
def netTcpRxEnsure (kmallocOk : Nat → Bool) (c : Conn) : Bool × Conn :=
  if c.rxBuf = true ∧ c.rxCap ≠ 0 then (true, c)
  else
    match firstAllocated kmallocOk [256 * 1024, 128 * 1024, 64 * 1024] with
    | some n =>
      (true, { c with rxBuf := true, rxCap := n, rx := [], rcvWscale := tcpSelectWindowScaling n })
    | none => (false, { c with rxBuf := false, rxCap := 0, rcvWscale := 0 })

/-- `tcp_send_seg(c, ops, flags, NULL, 0)`. -/
def tcpSendSeg (flags : Nat) (c : Conn) : Conn :=
  let free := rxRoom c
  let free := if flags &&& SYN = 0 ∧ c.rcvWscale ≠ 0 then free / 2 ^ c.rcvWscale else free
  { c with sent := c.sent ++ [⟨flags, c.sndNxt, c.rcvNxt, min free 65535⟩] }

/-! ## The reassembly queue -/

/-- The slot after its data has been used up. -/
def OooSlot.clear (s : OooSlot) : OooSlot := { s with valid := false, data := [] }

/-- The result of the scan in `tcp_try_merge_ooo`: the slots, their count, and the best slot with
its sequence number. -/
structure MergeScan where
  slots : List OooSlot
  count : Nat
  best : Option (Nat × Nat)
  deriving DecidableEq, Repr

/-- The `for` loop of `tcp_try_merge_ooo` from slot `i` on: slots that are behind `rcv_nxt` are
cleared, and the earliest one that covers it is found. -/
def mergeScan (rcvNxt : Nat) : List OooSlot → Nat → Nat → Option (Nat × Nat) → MergeScan
  | [], _, n, best => ⟨[], n, best⟩
  | s :: ss, i, n, best =>
    if s.valid = false ∨ s.data = [] then
      let r := mergeScan rcvNxt ss (i + 1) n best
      { r with slots := s :: r.slots }
    else if serialAfter ((s.seq + s.data.length) % 2 ^ 32) rcvNxt = false then
      let r := mergeScan rcvNxt ss (i + 1) (n - 1) best
      { r with slots := s.clear :: r.slots }
    else if serialAfter s.seq rcvNxt then
      let r := mergeScan rcvNxt ss (i + 1) n best
      { r with slots := s :: r.slots }
    else
      let best := match best with
        | none => some (i, s.seq)
        | some (j, q) => if serialAfter q s.seq then some (i, s.seq) else some (j, q)
      let r := mergeScan rcvNxt ss (i + 1) n best
      { r with slots := s :: r.slots }

/-- What `tcp_try_merge_ooo` does with the best slot; `true` if the loop goes on. -/
def mergeBest (b : Nat) (c : Conn) : Bool × Conn :=
  let s := c.ooo.getD b ⟨false, 0, []⟩
  let skip := sub32 c.rcvNxt s.seq
  let available := sub64 s.data.length skip
  let room := rxRoom c
  let cp := if available > room then room else available
  if cp = 0 then (false, c)
  else
    let c := { c with
      rx := c.rx ++ (s.data.drop skip).take cp
      rcvNxt := (c.rcvNxt + cp) % 2 ^ 32 }
    if cp = available then
      (true, { c with ooo := c.ooo.set b s.clear, oooValid := c.oooValid - 1 })
    else
      let consumed := skip + cp
      (false, { c with
        ooo := c.ooo.set b { s with data := s.data.drop consumed, seq := c.rcvNxt } })

/-- The outer loop of `tcp_try_merge_ooo`, for at most the given number of rounds. -/
def mergeLoop : Nat → Conn → Option Conn
  | 0, _ => none
  | n + 1, c =>
    let r := mergeScan c.rcvNxt c.ooo 0 c.oooValid none
    let c := { c with ooo := r.slots, oooValid := r.count }
    match r.best with
    | none => some c
    | some (b, _) =>
      let r := mergeBest b c
      if r.1 then mergeLoop n r.2 else some r.2

/-- `tcp_try_merge_ooo`. Every round but the last one clears a slot, so the rounds suffice. -/
def tcpTryMergeOoo (c : Conn) : Conn := (mergeLoop (c.ooo.length + 1) c).getD c

/-- The loop of `tcp_store_ooo` from slot `i` on, with the slot to use and the slot that is farthest
ahead. The outer `none` is the early return: the bytes are there already. -/
def storeScan (seq len : Nat) : List OooSlot → Nat → Option Nat → Option (Nat × Nat) →
    Option (Option Nat × Option (Nat × Nat))
  | [], _, slot, farthest => some (slot, farthest)
  | s :: ss, i, slot, farthest =>
    if s.valid = false then storeScan seq len ss (i + 1) (slot.or (some i)) farthest
    else if s.seq = seq then
      if len ≤ s.data.length then none else some (some i, farthest)
    else
      let farthest := match farthest with
        | none => some (i, s.seq)
        | some (j, q) => if serialAfter s.seq q then some (i, s.seq) else some (j, q)
      storeScan seq len ss (i + 1) slot farthest

/-- The slot `tcp_store_ooo` writes to. -/
def storeTarget (seq : Nat) : Option Nat × Option (Nat × Nat) → Option Nat
  | (some i, _) => some i
  | (none, some (j, q)) => if serialAfter q seq then some j else none
  | (none, none) => none

def tcpStoreOoo (seq : Nat) (payload : List Byte) (c : Conn) : Conn :=
  if payload = [] then c
  else if payload.length > NET_TCP_OOO_BYTES then c
  else
    match storeScan seq payload.length c.ooo 0 none none with
    | none => c
    | some r =>
      match storeTarget seq r with
      | none => c
      | some i =>
        let fresh := (c.ooo.getD i ⟨false, 0, []⟩).valid = false
        { c with
          ooo := c.ooo.set i ⟨true, seq, payload⟩
          oooValid := if fresh then c.oooValid + 1 else c.oooValid }

/-! ## Segments -/

/-- `tcp_accept_inorder`: the number of bytes accepted. -/
def tcpAcceptInorder (seq : Nat) (payload : List Byte) (c : Conn) : Nat × Conn :=
  if c.rxBuf = false ∨ c.rxCap = 0 then (0, c)
  else if seq = c.rcvNxt then
    let room := rxRoom c
    let cp := if payload.length > room then room else payload.length
    (cp, { c with rx := c.rx ++ payload.take cp, rcvNxt := (c.rcvNxt + cp) % 2 ^ 32 })
  else if seq < c.rcvNxt then
    let skip := sub32 c.rcvNxt seq
    if skip < payload.length then
      let room := rxRoom c
      let tail := payload.length - skip
      let cp := if tail > room then room else tail
      (cp, { c with
        rx := c.rx ++ (payload.drop skip).take cp
        rcvNxt := (c.rcvNxt + cp) % 2 ^ 32 })
    else (0, c)
  else (0, c)

def tcpTryCompleteFin (c : Conn) : Conn :=
  if c.peerFinPending = false ∨ c.peerFin = true then c
  else if c.rcvNxt ≠ c.peerFinSeq then c
  else
    tcpSendSeg ACK { c with
      peerFin := true
      peerFinPending := false
      rcvNxt := (c.rcvNxt + 1) % 2 ^ 32
      established := false }

/-- A segment with the RST flag. -/
def serviceRst (seg : Segment) (c : Conn) : Conn :=
  let close (c : Conn) : Conn :=
    { c with established := false, connectPending := false, peerRst := true }
  if c.connectPending = true ∧ c.established = false then
    if seg.has ACK = true ∧ seg.ack = (c.synIsn + 1) % 2 ^ 32 then
      close { c with connectRefused := true }
    else c
  else if c.established then
    if seg.seq = c.rcvNxt then close c
    else if tcpSeqInWindow seg.seq c.rcvNxt (rxRoom c % 2 ^ 32) then tcpSendSeg ACK c
    else c
  else c

/-- A segment with SYN and ACK on a connection that is not established. -/
def serviceSynAck (seg : Segment) (c : Conn) : Conn :=
  if c.connectPending = false ∨ seg.ack ≠ (c.synIsn + 1) % 2 ^ 32 then c
  else
    tcpSendSeg ACK { c with
      rcvNxt := (seg.seq + 1) % 2 ^ 32
      sndUna := seg.ack
      sndNxt := seg.ack
      established := true
      connectPending := false }

/-- The payload of a segment, with a receive buffer at hand. -/
def servicePayload (seg : Segment) (c : Conn) : Conn :=
  let c :=
    if seg.seq = c.rcvNxt ∨ serialAfter seg.seq c.rcvNxt = false then
      let rcvBefore := c.rcvNxt
      let r := tcpAcceptInorder seg.seq seg.payload c
      let c :=
        if r.1 < seg.payload.length ∧ serialAfter seg.seq rcvBefore = false then
          let off := if seg.seq = rcvBefore then r.1 else sub32 rcvBefore seg.seq + r.1
          if off < seg.payload.length then tcpStoreOoo r.2.rcvNxt (seg.payload.drop off) r.2
          else r.2
        else r.2
      tcpTryMergeOoo c
    else tcpStoreOoo seg.seq seg.payload c
  tcpSendSeg ACK (tcpTryCompleteFin c)

/-- The FIN flag of a segment. -/
def serviceFin (seg : Segment) (c : Conn) : Conn :=
  if c.established = false ∧ c.peerFinPending = false ∧ c.peerFin = false then c
  else
    let finSeq := (seg.seq + seg.payload.length) % 2 ^ 32
    if finSeq = c.rcvNxt then
      tcpSendSeg ACK { c with
        peerFin := true
        peerFinPending := false
        rcvNxt := (c.rcvNxt + 1) % 2 ^ 32
        established := false }
    else if serialAfter finSeq c.rcvNxt = false then
      if c.peerFin = true ∨ c.peerFinPending = true then tcpSendSeg ACK c else c
    else
      tcpTryCompleteFin (tcpSendSeg ACK { c with peerFinPending := true, peerFinSeq := finSeq })

/-- The body of the loop of `net_tcp_service` behind the tests of the headers and the checksum. -/
def serviceSegment (kmallocOk : Nat → Bool) (seg : Segment) (c : Conn) : Conn :=
  if seg.has RST then serviceRst seg c
  else if seg.has SYN = true ∧ seg.has ACK = true ∧ c.established = false then serviceSynAck seg c
  else
    let c := tcpApplyAck seg.ack c
    if seg.payload = [] ∧ seg.has ACK = true ∧ seg.has SYN = false ∧ seg.has FIN = false then c
    else if seg.payload ≠ [] then
      let r := netTcpRxEnsure kmallocOk c
      if r.1 = false then tcpSendSeg ACK r.2
      else
        let c := servicePayload seg r.2
        if seg.has FIN then serviceFin seg c else c
    else if seg.has FIN then serviceFin seg c
    else c

/-- A segment as it is taken from the queue, and what `kmalloc` would do at that time. -/
structure Arrival where
  seg : Segment
  kmallocOk : Nat → Bool

/-- `net_tcp_service`: at most `budget` of the segments that are there. -/
def netTcpService (budget : Nat) (frames : List Arrival) (c : Conn) : Conn :=
  (frames.take budget).foldl (fun c a => serviceSegment a.kmallocOk a.seg c) c

/-! ## Reading -/

def netTcpWindowUpdate (c : Conn) : Conn :=
  if c.established = false ∧ c.peerFinPending = false ∧ c.rx = [] ∧ c.oooValid = 0 then c
  else tcpSendSeg ACK (tcpTryCompleteFin (tcpTryMergeOoo c))

/-- What `net_tcp_recv` returns. -/
inductive RecvResult where
  | data (bytes : List Byte)
  | eof
  | reset
  | timeout
  | invalid
  deriving DecidableEq, Repr

/-- The bytes copied to the caller. -/
def RecvResult.bytes : RecvResult → List Byte
  | .data bs => bs
  | _ => []

/-- `memcpy(out, rx_buf, n); memmove(rx_buf, rx_buf + n, rx_len - n); rx_len -= n`. -/
def takeRx (cap : Nat) (c : Conn) : List Byte × Conn :=
  let n := if c.rx.length > cap then cap else c.rx.length
  (c.rx.take n, { c with rx := c.rx.drop n })

/-- One turn of the waiting loop: the segments that `net_tcp_drain_rx` finds, and whether the
window is announced again. -/
structure Round where
  frames : List Arrival
  windowDue : Bool

/-- The waiting loop of `net_tcp_recv`; it ends when the time is up, after the given rounds. -/
def recvLoop (cap : Nat) : List Round → Conn → RecvResult × Conn
  | [], c => (.timeout, c)
  | r :: rs, c =>
    let c := netTcpService 16 r.frames c
    if c.rx ≠ [] then
      let t := takeRx cap c
      (.data t.1, netTcpWindowUpdate t.2)
    else if c.peerRst then (.reset, c)
    else if c.peerFin then (.eof, c)
    else recvLoop cap rs (if r.windowDue then netTcpWindowUpdate c else c)

/-- `net_tcp_recv`; the loop makes the first round in any case. -/
def netTcpRecv (cap : Nat) (first : Round) (rounds : List Round) (c : Conn) : RecvResult × Conn :=
  if cap = 0 then (.invalid, c)
  else
    let c := tcpTryCompleteFin (tcpTryMergeOoo c)
    if c.rx ≠ [] then
      let t := takeRx cap c
      (.data t.1, netTcpWindowUpdate (tcpTryCompleteFin (tcpTryMergeOoo t.2)))
    else recvLoop cap (first :: rounds) c

end AxonOS.Net

import AxonOS.Net.Send

/-! # The handshake of a client

`net_tcp_connect` of `net/tcp.c` up to its waiting loop, and the segments that `net_tcp_service`
processes while the SYN-ACK is awaited. Only the FIN of a segment depends on the state of the
connection, its payload does not.
-/

namespace AxonOS.Net

open Lib

/-- The initial sequence number a client takes at the time `timeMs`. -/
def clientIsn (timeMs : Nat) : Nat := (timeMs ^^^ 0x71A9C33D) % 2 ^ 32

/-- `net_tcp_connect` until the SYN has been sent; the receive buffer is kept. -/
def netTcpConnect (timeMs : Nat) (kmallocOk : Nat → Bool) (sendOk : Bool) (c : Conn) :
    Option Conn :=
  let isn := clientIsn timeMs
  let r := netTcpRxEnsure kmallocOk
    { Conn.zero with rxBuf := c.rxBuf, rxCap := c.rxCap, rcvWscale := c.rcvWscale }
  if r.1 = false ∨ sendOk = false then none
  else
    let c :=
      tcpSendSeg SYN
      { r.2 with synIsn := isn, sndUna := isn, sndNxt := isn, connectPending := true }
    some { c with sndNxt := (isn + 1) % 2 ^ 32 }

def Conn.service (c : Conn) (a : Arrival) : Conn := serviceSegment a.kmallocOk a.seg c

abbrev Conn.Pending (c : Conn) : Prop := c.connectPending = true ∧ c.established = false

/-- The stream of the peer: received bytes, the number of the next one, slots and the FIN. -/
def Conn.inbound (c : Conn) : List Byte × Nat × List OooSlot × Nat × Bool × Bool :=
  (c.rx, c.rcvNxt, c.ooo, c.oooValid, c.peerFin, c.peerFinPending)

/-- The segment is a SYN-ACK of the SYN that was sent. -/
def Opens (c : Conn) (seg : Segment) : Prop :=
  seg.has RST = false ∧ seg.has SYN = true ∧ seg.has ACK = true ∧ seg.ack = (c.synIsn + 1) % 2 ^ 32

/-- A segment that is not a RST or SYN-ACK has no payload. -/
def Dataless (seg : Segment) : Prop :=
  seg.payload = [] ∨ seg.has RST = true ∨ (seg.has SYN = true ∧ seg.has ACK = true)

/-- The segment leaves the stream as it is after `net_tcp_connect`, or opens it behind its own
number. -/
def Awaits (c : Conn) (a : Arrival) : Prop :=
  c.inbound = Conn.zero.inbound ∧
  (¬Opens c a.seg → (c.service a).established = false ∧ (c.service a).inbound = Conn.zero.inbound) ∧
  (Opens c a.seg → (c.service a).established = true ∧
    (c.service a).inbound = { Conn.zero with rcvNxt := (a.seg.seq + 1) % 2 ^ 32 }.inbound)

variable {c : Conn} {a : Arrival} {seg : Segment}

theorem netTcpConnect_pending {timeMs : Nat} {kmallocOk : Nat → Bool} {sendOk : Bool} {c' : Conn}
    (h : netTcpConnect timeMs kmallocOk sendOk c = some c') : c'.inbound = Conn.zero.inbound := by
  simp only [netTcpConnect] at h
  split at h
  · cases h
  obtain rfl := Option.some.inj h
  simp only [netTcpRxEnsure]
  split
  · rfl
  · split <;> rfl

theorem serviceRst_pending (hc : c.Pending) :
    (serviceRst seg c).inbound = c.inbound ∧ (serviceRst seg c).established = false := by
  simp only [serviceRst]
  rw [if_pos hc]
  split
  · exact ⟨rfl, rfl⟩
  · exact ⟨rfl, hc.2⟩

theorem serviceFin_pending (hc : c.established = false) (hin : c.inbound = Conn.zero.inbound) :
    serviceFin seg c = c := by
  simp only [Conn.inbound, Conn.zero, Prod.mk.injEq] at hin
  exact if_pos ⟨hc, hin.2.2.2.2.2, hin.2.2.2.2.1⟩

theorem applyAck_inbound (ack : Nat) (c : Conn) :
    (tcpApplyAck ack c).inbound = c.inbound ∧ (tcpApplyAck ack c).established = c.established := by
  unfold tcpApplyAck
  split
  · exact ⟨rfl, rfl⟩
  · split <;> exact ⟨rfl, rfl⟩

/-- **A segment without payload** while the SYN-ACK is awaited. -/
theorem awaits_of_dataless (hc : c.Pending) (hin : c.inbound = Conn.zero.inbound)
    (ha : Dataless a.seg) :
    Awaits c a := by
  have hquiet : ∀ c', c.service a = c' → c'.inbound = c.inbound ∧ c'.established = false →
      ¬Opens c a.seg →
      Awaits c a := by
    rintro c' rfl ⟨hsame, hest⟩ hopens
    exact ⟨hin, fun _ => ⟨hest, hsame.trans hin⟩, fun h => absurd h hopens⟩
  cases hrst : a.seg.has RST with
  | true =>
    refine hquiet _ (if_pos hrst) (serviceRst_pending hc) fun h => ?_
    rw [h.1] at hrst
    cases hrst
  | false =>
  by_cases hsyn : a.seg.has SYN = true ∧ a.seg.has ACK = true
  · have heq : c.service a = serviceSynAck a.seg c := by
      rw [Conn.service, serviceSegment, hrst, if_neg Bool.false_ne_true,
        if_pos ⟨hsyn.1, hsyn.2, hc.2⟩]
    by_cases hack : a.seg.ack = (c.synIsn + 1) % 2 ^ 32
    · have hopen : c.service a = tcpSendSeg ACK { c with
          rcvNxt := (a.seg.seq + 1) % 2 ^ 32, sndUna := a.seg.ack, sndNxt :=
            a.seg.ack, established := true,
          connectPending := false } := by
        rw [heq, serviceSynAck, if_neg (by simp [hc.1, hack])]
      simp only [Conn.inbound, Conn.zero, Prod.mk.injEq] at hin
      refine ⟨by simp [Conn.inbound, Conn.zero, hin],
            fun h => absurd ⟨hrst, hsyn.1, hsyn.2, hack⟩ h, fun _ => ?_⟩
      rw [hopen]
      simp [Conn.inbound, Conn.zero, tcpSendSeg, hin]
    · refine hquiet c ?_ ⟨rfl, hc.2⟩ fun h => hack h.2.2.2
      rw [heq, serviceSynAck, if_pos (.inr hack)]
  · have hpay : a.seg.payload = [] := by
      rcases ha with h | h | h
      · exact h
      · rw [hrst] at h
        cases h
      · exact absurd h hsyn
    obtain ⟨hsame, hest⟩ := applyAck_inbound a.seg.ack c
    have hfin : serviceFin a.seg _ = _ := serviceFin_pending (hest.trans hc.2) (hsame.trans hin)
    refine hquiet (tcpApplyAck a.seg.ack c) ?_ ⟨hsame, hest.trans hc.2⟩ fun h =>
      hsyn ⟨h.2.1, h.2.2.1⟩
    rw [Conn.service, serviceSegment, hrst, if_neg Bool.false_ne_true,
      if_neg fun h => hsyn ⟨h.1, h.2.1⟩]
    simp [hpay, hfin]

/-- **Nothing enters the stream before the handshake** if no segment before the SYN-ACK has a
payload. -/
theorem handshake_first (timeMs : Nat) (kmallocOk : Nat → Bool) (sendOk : Bool) (c c' : Conn)
    (frames : List Arrival) (hconnect : netTcpConnect timeMs kmallocOk sendOk c = some c')
    (hframes : RunMeets Conn.service (fun c a => c.Pending ∧ Dataless a.seg) c' frames) :
    RunMeets Conn.service Awaits c' frames := by
  rintro pre a post rfl
  have hpre :
      ((pre.foldl Conn.service c').Pending → (pre.foldl Conn.service c').inbound
      = Conn.zero.inbound) := by
    refine run_invariant (I := fun c => c.Pending → c.inbound = Conn.zero.inbound) ?_
      (fun _ => netTcpConnect_pending hconnect) hframes.of_append
    intro c a hin ⟨hc, ha⟩ hc'
    have hawaits := awaits_of_dataless hc (hin hc) ha
    by_cases hopens : Opens c a.seg
    · have hest := (hawaits.2.2 hopens).1
      rw [hc'.2] at hest
      cases hest
    · exact (hawaits.2.1 hopens).2
  obtain ⟨hc, ha⟩ := hframes pre a post rfl
  exact awaits_of_dataless hc (hpre hc) ha

/-- A byte with the sequence number 0. -/
def early : Segment := ⟨0, 0, ACK, [65]⟩

def synAck : Segment := ⟨100, (clientIsn 0 + 1) % 2 ^ 32, SYN ||| ACK, []⟩

def connecting : Conn := (netTcpConnect 0 (fun _ => true) true Conn.zero).getD Conn.zero

/-- A stray acknowledgement without data, and a reset with a wrong number. -/
def stray : List Arrival :=
  [⟨⟨7, 9, ACK, []⟩, fun _ => true⟩, ⟨⟨0, 5, RST ||| ACK, [1]⟩, fun _ => true⟩]

/-- The SYN-ACK after segments that are not for the stream. -/
theorem handshake_first_synAck : netTcpConnect 0 (fun _ => true) true Conn.zero = some connecting ∧
    RunMeets Conn.service Awaits connecting (stray ++ [⟨synAck, fun _ => true⟩]) := by
  refine ⟨rfl, handshake_first 0 (fun _ => true) true Conn.zero connecting _ rfl ?_⟩
  simp only [stray, List.cons_append, List.nil_append, runMeets_cons]
  exact ⟨⟨⟨by decide, by decide⟩, .inl rfl⟩, ⟨⟨by decide, by decide⟩, .inr (.inl rfl)⟩,
    ⟨⟨by decide, by decide⟩, .inl rfl⟩, runMeets_nil _⟩

/-- A byte that came before the SYN-ACK is the first one of the stream. -/
theorem handshake_early :
    connecting.rx = [] ∧ (connecting.service ⟨early, fun _ => true⟩).rx = [65] ∧
    ((connecting.service ⟨early, fun _ => true⟩).service ⟨synAck, fun _ => true⟩).established
    = true ∧ ((connecting.service ⟨early, fun _ => true⟩).service ⟨synAck, fun _ => true⟩).rx
    = [65] := by
  decide

end AxonOS.Net

import AxonOS.Lib.Run
import Mathlib.Tactic

/-! # The DHCP client

`dhcp_acquire` and `dhcp_observe_frame`, which `net_rx` calls for every frame, meet in the capture
state. A step is one section under `g_dhcp_cap_lock`, or the sending of a packet.
`dhcp_observe_frame` has two sections: in the first one it reads the transaction id, in the second
one it stores what it has found in the frame.

The client compares the transaction id of an acknowledgement and nothing else, so it binds the
address of the offer whoever has acknowledged whatever address. What is to hold is said of the
frames that came in.
-/

namespace AxonOS.Net.Dhcp

open Lib Option

/-! ## Frames -/

structure Frame where
  len : Nat
  byte : Nat → UInt8

def Frame.get (f : Frame) (i : Nat) : Nat := (f.byte i).toNat

def Frame.be16 (f : Frame) (i : Nat) : Nat := f.get i * 256 + f.get (i + 1)

/-- `dhcp_read_be32`. -/
def Frame.be32 (f : Frame) (i : Nat) : Nat := f.be16 i * 65536 + f.be16 (i + 2)

/-- The loop of `dhcp_find_opt`, over the options from `opts` on. -/
def findOptLoop (f : Frame) (opts optsLen code : Nat) : Nat → Nat → Option (Nat × Nat)
  | 0, _ => none
  | fuel + 1, i =>
    if optsLen ≤ i then none
    else
      let c := f.get (opts + i)
      if c = 0 then findOptLoop f opts optsLen code fuel (i + 1)
      else if c = 255 ∨ optsLen ≤ i + 1 then none
      else
        let l := f.get (opts + i + 1)
        if optsLen < i + 2 + l then none
        else if c = code then some (opts + i + 2, l)
        else findOptLoop f opts optsLen code fuel (i + 2 + l)

/-- `dhcp_find_opt`: where the value of the option is, and its length. Every round moves on, so that
as many rounds as there are bytes are enough. -/
def dhcpFindOpt (f : Frame) (opts optsLen code : Nat) : Option (Nat × Nat) :=
  findOptLoop f opts optsLen code optsLen 0

/-- `dhcp_l2_ipv4_offset`: the ethernet type and where the next header starts, behind a VLAN tag or
not. -/
def dhcpL2Ipv4Offset (f : Frame) : Option (Nat × Nat) :=
  if f.len < 14 then none
  else if (f.be16 12 = 0x8100 ∨ f.be16 12 = 0x88A8) ∧ 18 ≤ f.len then some (f.be16 16, 18)
  else some (f.be16 12, 14)

/-- What both parsers look for: UDP over IPv4 from port 67 to port 68, with a message that is long
enough and has the magic cookie. The result is where the message starts and the length of its
options. -/
def bootpMessage (f : Frame) : Option (Nat × Nat) :=
  match dhcpL2Ipv4Offset f with
  | none => none
  | some (ethType, ipOff) =>
    let udp := ipOff + f.get ipOff % 16 * 4
    let ulen := f.be16 (udp + 4)
    let d := udp + 8
    if ethType ≠ 0x0800 ∨ f.len < ipOff + 20 + 8 + 240 then none
    else if f.get (ipOff + 9) ≠ 17 ∨ f.get ipOff % 16 * 4 < 20 then none
    else if f.be16 udp ≠ 67 ∨ f.be16 (udp + 2) ≠ 68 then none
    else if ulen < 8 + 240 ∨ f.len < udp + ulen then none
    else if f.be32 (d + 236) ≠ 0x63825363 then none
    else some (d, ulen - 8 - 240)

/-- The test of `flags_frag`, which only `dhcp_handle_rx_frame` makes. -/
def fragment (f : Frame) : Bool :=
  (dhcpL2Ipv4Offset f).any fun p => f.be16 (p.2 + 6) % 0x4000 ≠ 0

def msgType (f : Frame) (d optsLen : Nat) : Nat :=
  match dhcpFindOpt f (d + 240) optsLen 53 with
  | some (p, 1) => f.get p
  | _ => 0

/-- An option of four bytes. -/
def option32 (f : Frame) (d optsLen code : Nat) : Option Nat :=
  match dhcpFindOpt f (d + 240) optsLen code with
  | some (p, 4) => some (f.be32 p)
  | _ => none

def optionHead (f : Frame) (d optsLen code : Nat) : Option Nat :=
  match dhcpFindOpt f (d + 240) optsLen code with
  | some (p, l) => if 4 ≤ l then some (f.be32 p) else none
  | none => none

structure Offer where
  ip : Nat
  sid : Nat
  mask : Nat
  gw : Nat
  dns : Nat

def dhcpParseOffer (f : Frame) (d optsLen xid : Nat) : Option Offer :=
  if f.get d ≠ 2 ∨ f.be32 (d + 4) ≠ xid then none
  else if msgType f d optsLen ≠ 0 ∧ msgType f d optsLen ≠ 2 then none
  else
    let addr := if f.be32 (d + 16) ≠ 0 then f.be32 (d + 16) else f.be32 (d + 12)
    let ip := if addr ≠ 0 then addr else (option32 f d optsLen 50).getD 0
    if ip = 0 then none
    else
      some ⟨ip, (option32 f d optsLen 54).getD (f.be32 (d + 20)), (option32 f d optsLen 1).getD 0,
        (optionHead f d optsLen 3).getD 0, (optionHead f d optsLen 6).getD 0⟩

def dhcpHandleRxFrame (f : Frame) (xid : Nat) : Option Offer :=
  if fragment f then none
  else (bootpMessage f).bind fun p => dhcpParseOffer f p.1 p.2 xid

/-- `g_dhcp_cap_kind`, if it is not 0. -/
inductive Kind where
  | offer
  | ack
  | nak
  deriving DecidableEq, Repr

/-- `dhcp_try_ack_frame`. A reply without a type is taken for an acknowledgement. -/
def dhcpTryAckFrame (f : Frame) (xid : Nat) : Option Kind :=
  match bootpMessage f with
  | none => none
  | some (d, optsLen) =>
    if f.be32 (d + 4) ≠ xid then none
    else
      let type := if msgType f d optsLen = 0 ∧ f.get d = 2 then 5 else msgType f d optsLen
      if type = 5 then some .ack else if type = 6 then some .nak else none

/-! ## The client -/

/-- The capture state; `frame` is the one the offer was in, which the code does not keep. -/
structure Capture where
  xid : Nat
  kind : Option Kind
  offer : Offer
  frame : Option Frame

def Capture.reset (xid : Nat) : Capture := ⟨xid, none, ⟨0, 0, 0, 0, 0⟩, none⟩

/-- The second section of `dhcp_observe_frame`; `xid` was read in the first one. -/
def Capture.observe (c : Capture) (f : Frame) (xid : Nat) : Capture :=
  match dhcpHandleRxFrame f xid with
  | some o =>
    if c.xid = xid ∧ c.kind ≠ some .ack ∧ c.kind ≠ some .nak then
      { c with kind := some .offer, offer := o, frame := some f }
    else c
  | none =>
    match dhcpTryAckFrame f xid with
    | none => c
    -- for an acknowledgement `g_dhcp_cap_ip` is set to the address that the offer parser left,
    -- which is 0
    | some kind => if c.xid = xid then { c with kind := some kind } else c

structure Lease where
  ip : Nat
  mask : Nat
  gw : Nat
  dns : Nat
  server : Nat

/-- Where `dhcp_acquire` is: in front of a section or a packet, in the try with this number. -/
inductive Pc where
  | discover (try_ : Nat)
  | sendDiscover (try_ : Nat)
  | waitOffer (try_ : Nat)
  | request (try_ : Nat)
  | restore (try_ : Nat)
  | sendRequest (try_ : Nat)
  | waitAck (try_ : Nat)
  | bound (lease : Lease)
  | failed

/-- The client and the frames that `dhcp_observe_frame` is at work on. Two fields are there to say
what happened: the frame of the offer that was selected, and the frames that came in since the first
`REQUEST` was sent. -/
structure Client where
  pc : Pc
  xid : Nat
  offer : Offer
  cap : Capture
  flying : List (Frame × Nat)
  selected : Option Frame
  heard : Option (List Frame)

/-- The server, the way `dhcp_acquire` fills it in if the offer does not name one. -/
def Offer.completed (o : Offer) : Offer :=
  { o with sid := if o.sid ≠ 0 then o.sid else if o.gw ≠ 0 then o.gw else o.ip }

def Offer.lease (o : Offer) : Lease :=
  ⟨o.ip, if o.mask ≠ 0 then o.mask else 0xFFFFFF00, if o.gw ≠ 0 then o.gw else o.sid,
    if o.dns ≠ 0 then o.dns else o.sid, o.sid⟩

/-- One step of `dhcp_acquire`; `ok` says that the packet was sent, or that there is time to wait
on. -/
def Client.acquire (s : Client) (ticks : Nat) (ok : Bool) : Client :=
  match s.pc with
  | .discover n =>
    if n < 6 then
      let xid := (ticks ^^^ 0xA5F0C31D ^^^ n) % 2 ^ 32
      { s with pc := .sendDiscover n, xid := xid, cap := .reset xid }
    else { s with pc := .failed, cap := .reset 0 }
  | .sendDiscover n => { s with pc := if ok then .waitOffer n else .discover (n + 1) }
  | .waitOffer n =>
    if s.cap.kind = some .offer then
      if s.cap.offer.ip = 0 then { s with pc := .failed, cap := .reset 0 }
      else { s with pc := .request 0, offer := s.cap.offer.completed, selected := s.cap.frame }
    else { s with pc := if ok then .waitOffer n else .discover (n + 1) }
  | .request n =>
    if n < 4 then { s with pc := .restore n, cap := .reset s.xid }
    else { s with pc := .failed, cap := .reset 0 }
  | .restore n =>
    { s with pc := .sendRequest n, cap := { s.cap with xid := s.xid, offer := s.offer } }
  | .sendRequest n =>
    if ok then { s with pc := .waitAck n, heard := some (s.heard.getD []) }
    else { s with pc := .request (n + 1) }
  | .waitAck n =>
    match s.cap.kind with
    | some .ack => { s with pc := .bound s.offer.lease, cap := .reset 0 }
    | some .nak => { s with pc := .failed, cap := .reset 0 }
    | _ => { s with pc := if ok then .waitAck n else .request (n + 1) }
  | _ => s

inductive Op where
  | acquire (ticks : Nat) (ok : Bool)
  /-- A frame comes in: the first section of `dhcp_observe_frame`. -/
  | enter (f : Frame)
  /-- The second section, for one of the frames at work. -/
  | store (i : Nat)

def Client.step (s : Client) : Op → Client
  | .acquire ticks ok => s.acquire ticks ok
  | .enter f =>
    { s with
      flying := if f.len < 14 ∨ s.cap.xid = 0 then s.flying else (f, s.cap.xid) :: s.flying
      heard := s.heard.map (f :: ·) }
  | .store i =>
    match s.flying[i]? with
    | none => s
    | some (f, xid) => { s with cap := s.cap.observe f xid, flying := s.flying.eraseIdx i }

/-! ## What a lease rests on -/

def Frame.server (f : Frame) : Option Nat := (bootpMessage f).bind fun p => option32 f p.1 p.2 54

def Frame.yiaddr (f : Frame) : Nat := ((bootpMessage f).map fun p => f.be32 (p.1 + 16)).getD 0

/-- The frame names the server and the address of the offer in the frame `o`. -/
def Names (o f : Frame) : Prop := f.server = o.server ∧ f.yiaddr = o.yiaddr

/-- `f` is a well-formed `DHCPACK` of the transaction and confirms the offer in the frame `o`. -/
def Confirms (xid : Nat) (o f : Frame) : Prop :=
  (∃ d optsLen, bootpMessage f = some (d, optsLen) ∧ f.get d = 2 ∧ f.be32 (d + 236) = 0x63825363
    ∧ f.be32 (d + 4) = xid ∧ msgType f d optsLen = 5) ∧ Names o f

/-- The address is the one that the offer in the selected frame names. -/
def Offered (xid : Nat) (selected : Option Frame) (ip : Nat) : Prop :=
  ∃ o, selected = some o ∧ (dhcpHandleRxFrame o xid).isSome = true ∧ ip = o.yiaddr

/-- The frame has come in since the `REQUEST` was sent and confirms the selected offer. -/
def Confirmed (s : Client) (f : Frame) : Prop :=
  ∃ o heard, s.selected = some o ∧ s.heard = some heard ∧ f ∈ heard ∧ Confirms s.xid o f

/-- **A lease is the address of the selected offer, and was confirmed.** -/
def LeaseConfirmed (s : Client) : Prop :=
  ∀ lease, s.pc = .bound lease → Offered s.xid s.selected lease.ip ∧ ∃ f, Confirmed s f

/-- A `REQUEST` is being made. -/
def Client.requesting (s : Client) : Prop :=
  match s.pc with
  | .restore _ | .sendRequest _ | .waitAck _ => True
  | _ => False

/-- **What the code does not check** of a message with the transaction id: a reply that is an offer
or has no type names its address in `yiaddr`, one without a type is no fragment, and a message of
type 5 that is looked at while a `REQUEST` is being made is a reply, came in after the `REQUEST` was
sent, and names the server and the address of the selected offer. -/
structure Honest (s : Client) (f : Frame) (d optsLen : Nat) : Prop where
  address : f.get d = 2 → msgType f d optsLen = 0 ∨ msgType f d optsLen = 2 → f.be32 (d + 16) ≠ 0
  whole : f.get d = 2 → msgType f d optsLen = 0 → fragment f = false
  answer : s.requesting → msgType f d optsLen = 5 → f.get d = 2
    ∧ ∃ o heard, s.selected = some o ∧ s.heard = some heard ∧ f ∈ heard ∧ Names o f

/-- The frames of the transaction are honest. -/
def Trusted (s : Client) : Op → Prop
  | .store i =>
    ∀ f xid d optsLen, s.flying[i]? = some (f, xid) → bootpMessage f = some (d, optsLen) →
    f.be32 (d + 4) = s.cap.xid → Honest s f d optsLen
  | _ => True

variable {s : Client} {f : Frame} {xid : Nat}

theorem cookie_of_bootp {d optsLen : Nat} (h : bootpMessage f = some (d, optsLen)) :
    f.be32 (d + 236) = 0x63825363 := by
  unfold bootpMessage at h
  split at h
  · cases h
  · dsimp only at h
    split_ifs at h with _ _ _ _ hcookie
    cases h
    exact not_not.mp hcookie

/-- An offer is a reply of the transaction, and its address the one in `yiaddr` if there is one. -/
theorem handled_some {o : Offer} (h : dhcpHandleRxFrame f xid = some o) :
    ∃ d optsLen, bootpMessage f = some (d, optsLen) ∧ f.be32 (d + 4) = xid ∧ f.get d = 2
      ∧ (msgType f d optsLen = 0 ∨ msgType f d optsLen = 2)
      ∧ (f.be32 (d + 16) ≠ 0 → o.ip = f.yiaddr) := by
  unfold dhcpHandleRxFrame at h
  split at h
  · cases h
  obtain ⟨⟨d, optsLen⟩, hmsg, hparse⟩ := bind_eq_some_iff.mp h
  have hyi : f.yiaddr = f.be32 (d + 16) := by
    unfold Frame.yiaddr
    rw [hmsg]
    rfl
  unfold dhcpParseOffer at hparse
  dsimp only at hparse
  split at hparse
  · cases hparse
  next hreply =>
    split at hparse
    · cases hparse
    next htype =>
      refine ⟨d, optsLen, hmsg, by omega, by omega, by omega, fun hy => ?_⟩
      simp only [if_pos hy, if_neg hy, some.injEq] at hparse
      rw [← hparse, hyi]

/-- A reply of the transaction that could be an offer, and has an address, is taken for one. -/
theorem handled_of_reply {d optsLen : Nat} (hmsg : bootpMessage f = some (d, optsLen))
    (hxid : f.be32 (d + 4) = xid) (hreply : f.get d = 2) (htype : msgType f d optsLen = 0)
    (hy : f.be32 (d + 16) ≠ 0) (hwhole : fragment f = false) : dhcpHandleRxFrame f xid ≠ none := by
  simp [dhcpHandleRxFrame, dhcpParseOffer, hwhole, hmsg, hxid, hreply, htype, hy]

/-- What is taken for an acknowledgement has the ports, the cookie and the transaction id of one. -/
theorem tryAck_ack (h : dhcpTryAckFrame f xid = some .ack) :
    ∃ d optsLen, bootpMessage f = some (d, optsLen) ∧ f.be32 (d + 4) = xid
      ∧ (msgType f d optsLen = 5 ∨ msgType f d optsLen = 0 ∧ f.get d = 2) := by
  unfold dhcpTryAckFrame at h
  split at h
  · cases h
  next d optsLen hmsg =>
    refine ⟨d, optsLen, hmsg, ?_⟩
    dsimp only at h
    split_ifs at h <;> simp_all

/-- **An honest frame that is taken for an acknowledgement confirms the offer.** -/
theorem confirmed_of_ack (h : ∀ d optsLen, bootpMessage f = some (d, optsLen) →
      f.be32 (d + 4) = s.xid → Honest s f d optsLen) (hnone : dhcpHandleRxFrame f s.xid = none)
    (hack : dhcpTryAckFrame f s.xid = some .ack) (hreq : s.requesting) : Confirmed s f := by
  obtain ⟨d, optsLen, hmsg, hxid, htype⟩ := tryAck_ack hack
  have hhonest := h d optsLen hmsg hxid
  rcases htype with htype | ⟨htype, hreply⟩
  · obtain ⟨hreply, o, heard, hsel, hheard, hmem, hnames⟩ := hhonest.answer hreq htype
    exact ⟨o, heard, hsel, hheard, hmem,
      ⟨d, optsLen, hmsg, hreply, cookie_of_bootp hmsg, hxid, htype⟩, hnames⟩
  · exact absurd hnone
      (handled_of_reply hmsg hxid hreply htype (hhonest.address hreply (.inl htype))
      (hhonest.whole hreply htype))

/-- What holds where the client is. -/
def Inv (s : Client) : Prop :=
  match s.pc with
  | .sendDiscover _ | .waitOffer _ =>
    s.cap.xid = s.xid ∧ (s.cap.kind = some .offer → Offered s.xid s.cap.frame s.cap.offer.ip)
  | .request _ => Offered s.xid s.selected s.offer.ip
  | .restore _ | .sendRequest _ | .waitAck _ =>
    s.cap.xid = s.xid ∧ Offered s.xid s.selected s.offer.ip
      ∧ (s.cap.kind = some .ack → ∃ f, Confirmed s f)
  | .bound lease => Offered s.xid s.selected lease.ip ∧ ∃ f, Confirmed s f
  | _ => True

theorem tryAck_ne_offer (f : Frame) (xid : Nat) : dhcpTryAckFrame f xid ≠ some .offer := by
  unfold dhcpTryAckFrame
  split
  · exact nofun
  · dsimp only
    split_ifs <;> exact nofun

theorem observe_cases (c : Capture) (f : Frame) (xid : Nat) : c.observe f xid = c
      ∨ c.xid = xid ∧ (∃ o, dhcpHandleRxFrame f xid = some o
          ∧ c.observe f xid = { c with kind := some .offer, offer := o, frame := some f })
      ∨ c.xid = xid ∧ dhcpHandleRxFrame f xid = none
          ∧ ∃ kind, dhcpTryAckFrame f xid = some kind
          ∧ c.observe f xid = { c with kind := some kind } := by
  unfold Capture.observe
  split
  next o ho =>
    split
    next h => exact .inr (.inl ⟨h.1, o, ho, rfl⟩)
    next => exact .inl rfl
  next ho =>
    split
    · exact .inl rfl
    next kind hkind =>
      split
      next h => exact .inr (.inr ⟨h, ho, kind, hkind, rfl⟩)
      next => exact .inl rfl

/-! ## Steps and runs -/

theorem acquire_inv (ticks : Nat) (ok : Bool) (h : Inv s) : Inv (s.acquire ticks ok) := by
  obtain ⟨pc, xid, offer, cap, flying, selected, heard⟩ := s
  unfold Client.acquire
  cases pc with
  | discover n =>
    dsimp only
    split
    · exact ⟨rfl, nofun⟩
    · trivial
  | sendDiscover n =>
    cases ok
    · trivial
    · exact h
  | waitOffer n =>
    dsimp only
    split
    next hkind =>
      split
      · trivial
      · exact h.2 hkind
    next =>
      cases ok
      · trivial
      · exact h
  | request n =>
    dsimp only
    split
    · exact ⟨rfl, h, nofun⟩
    · trivial
  | restore n => exact ⟨rfl, h.2⟩
  | sendRequest n =>
    cases ok with
    | false => exact h.2.1
    | true =>
      refine ⟨h.1, h.2.1, fun hkind => ?_⟩
      obtain ⟨f, o, l, hsel, hheard, hf, hc⟩ := h.2.2 hkind
      obtain rfl : heard = some l := hheard
      exact ⟨f, o, l, hsel, rfl, hf, hc⟩
  | waitAck n =>
    dsimp only
    split
    next hkind => exact ⟨h.2.1, h.2.2 hkind⟩
    next => trivial
    next =>
      cases ok
      · exact h.2.1
      · exact h
  | bound lease => exact h
  | failed => trivial

theorem Confirmed.enter (f : Frame) (h : ∃ f, Confirmed s f) :
    ∃ f', Confirmed (s.step (.enter f)) f' := by
  obtain ⟨f', o, l, hsel, hheard, hf, hc⟩ := h
  refine ⟨f', o, f :: l, hsel, ?_, List.mem_cons_of_mem f hf, hc⟩
  change s.heard.map (f :: ·) = some (f :: l)
  rw [hheard]
  rfl

theorem enter_inv (f : Frame) (h : Inv s) : Inv (s.step (.enter f)) := by
  have hheard := Confirmed.enter (s := s) f
  obtain ⟨pc, xid, offer, cap, flying, selected, heard⟩ := s
  cases pc with
  | restore n | sendRequest n | waitAck n => exact ⟨h.1, h.2.1, fun hkind => hheard (h.2.2 hkind)⟩
  | bound lease => exact ⟨h.1, hheard h.2⟩
  | _ => exact h

theorem store_inv {i : Nat} (hget : s.flying[i]? = some (f, xid)) (h : Inv s)
    (ht : Trusted s (.store i)) :
    Inv { s with cap := s.cap.observe f xid, flying := s.flying.eraseIdx i } := by
  rcases observe_cases s.cap f xid with hsame | ⟨rfl, o, ho, heq⟩ | ⟨rfl, ho, kind, hkind, heq⟩
  · rw [hsame]
    exact h
  · obtain ⟨d, optsLen, hmsg, hxid, hreply, htype, hip⟩ := handled_some ho
    replace hip := hip ((ht f _ d optsLen hget hmsg hxid).address hreply htype)
    rw [heq]
    obtain ⟨pc, xid, offer, cap, flying, selected, heard⟩ := s
    have hoffer : cap.xid = xid → Offered xid (some f) o.ip := by
      rintro rfl
      exact ⟨f, rfl, isSome_of_eq_some ho, hip⟩
    cases pc with
    | sendDiscover n | waitOffer n => exact ⟨h.1, fun _ => hoffer h.1⟩
    | restore n | sendRequest n | waitAck n => exact ⟨h.1, h.2.1, nofun⟩
    | _ => exact h
  · rw [heq]
    have hne : kind ≠ .offer := fun hk => tryAck_ne_offer f s.cap.xid (hk ▸ hkind)
    have hheard : s.cap.xid = s.xid → s.requesting → some kind = some Kind.ack → ∃ f,
        Confirmed s f := by
      intro hxid hreq hk
      rw [hxid] at ho hkind
      exact ⟨f, confirmed_of_ack (fun d n hmsg hd => ht f _ d n hget hmsg (hd.trans hxid.symm)) ho
        (hkind.trans hk) hreq⟩
    obtain ⟨pc, xid, offer, cap, flying, selected, heard⟩ := s
    cases pc with
    | sendDiscover n | waitOffer n => exact ⟨h.1, fun hk => absurd (some.inj hk) hne⟩
    | restore n | sendRequest n | waitAck n => exact ⟨h.1, h.2.1, hheard h.1 trivial⟩
    | _ => exact h

theorem step_inv (s : Client) (op : Op) (h : Inv s) (ht : Trusted s op) : Inv (s.step op) := by
  cases op with
  | acquire ticks ok => exact acquire_inv ticks ok h
  | enter f => exact enter_inv f h
  | store i =>
    unfold Client.step
    dsimp only
    split
    · exact h
    next f xid hget => exact store_inv hget h ht

/-- **If the frames can be trusted, a lease is confirmed.** -/
theorem lease_confirmed (s : Client) (ops : List Op) (hstart : s.pc = .discover 0)
    (ht : RunMeets Client.step Trusted s ops) : LeaseConfirmed (ops.foldl Client.step s) := by
  have hinit : Inv s := by
    unfold Inv
    rw [hstart]
    trivial
  have hinv := run_invariant step_inv hinit ht
  intro lease hlease
  unfold Inv at hinv
  rw [hlease] at hinv
  exact hinv

/-! ## An offer and what may follow -/

/-- A reply of the server `10.0.0.server` in transaction 1, of the type and with the address
`10.0.0.host`. -/
def reply (type host server : UInt8) : Frame :=
  ⟨292, fun i =>
    (List.lookup i [(12, 8), (14, 0x45), (23, 17), (35, 67), (37, 68), (38, 1), (39, 2), (42, 2),
    (49, 1), (58, 10), (61, host), (278, 99), (279, 130), (280, 83), (281, 99), (282, 53), (283, 1),
    (284, type), (285, 54), (286, 4), (287, 10), (290, server), (291, 255)]).getD 0⟩

def idle : Client := ⟨.discover 0, 0, ⟨0, 0, 0, 0, 0⟩, .reset 0, [], none, none⟩

/-- The offer of address 10.0.0.9 by server 10.0.0.1 is selected, and `ack` comes in after the
`REQUEST`. -/
def exchange (ack : Frame) : List Op :=
  [.acquire 0xA5F0C31C true, .acquire 0 true, .enter (reply 2 9 1), .store 0, .acquire 0 true,
    .acquire 0 true, .acquire 0 true, .acquire 0 true, .enter ack, .store 0, .acquire 0 true]

/-- The server confirms its offer. -/
theorem lease_confirmed_ack :
    idle.pc = .discover 0 ∧ LeaseConfirmed ((exchange (reply 5 9 1)).foldl Client.step idle) := by
  refine ⟨rfl, lease_confirmed idle _ rfl ?_⟩
  have hoffer : bootpMessage (reply 2 9 1) = some (42, 10) := by decide
  have hack : bootpMessage (reply 5 9 1) = some (42, 10) := by decide
  unfold exchange
  simp only [runMeets_cons]
  refine ⟨trivial, trivial, trivial, ?_, trivial, trivial, trivial, trivial, trivial, ?_,
    trivial, runMeets_nil _⟩
  · intro f xid d optsLen hf hmsg _
    obtain rfl : reply 2 9 1 = f := congrArg Prod.fst (some.inj hf)
    obtain ⟨rfl, rfl⟩ := Prod.mk.inj (some.inj (hmsg.symm.trans hoffer))
    exact ⟨fun _ _ => by decide, by decide, fun hreq => hreq.elim⟩
  · intro f xid d optsLen hf hmsg _
    obtain rfl : reply 5 9 1 = f := congrArg Prod.fst (some.inj hf)
    obtain ⟨rfl, rfl⟩ := Prod.mk.inj (some.inj (hmsg.symm.trans hack))
    exact ⟨by decide, by decide,
      fun _ _ => ⟨by decide, _, _, rfl, rfl, List.mem_singleton_self _, by decide, by decide⟩⟩

/-- Another server acknowledges another address: the offer is bound all the same. -/
theorem foreign_ack_binds :
    ∃ lease, ((exchange (reply 5 77 2)).foldl Client.step idle).pc = .bound lease
      ∧ lease.ip = 0x0A000009
      ∧ ¬ LeaseConfirmed ((exchange (reply 5 77 2)).foldl Client.step idle) := by
  refine ⟨_, rfl, by decide, fun h => ?_⟩
  obtain ⟨_, f, o, heard, hsel, hheard, hf, hc⟩ := h _ rfl
  obtain rfl : reply 2 9 1 = o := some.inj hsel
  obtain rfl : [reply 5 77 2] = heard := some.inj hheard
  obtain rfl := List.mem_singleton.mp hf
  exact absurd hc.2.2 (by decide)

end AxonOS.Net.Dhcp

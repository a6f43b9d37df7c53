import AxonOS.Net.Tcp
import AxonOS.Lib.SlotTable

/-! # Every slot holds a piece of the stream

`S` is the byte stream of the peer, whose first byte has the sequence number `isn + 1`, and `out`
what has been read from the connection. `StreamInv` says that what has been read and what is in the
receive buffer is a prefix of `S`, that `rcv_nxt` is the sequence number of the byte behind it, and
that every out-of-order slot holds the bytes of `S` at its place. The places of slots are positions
in `S`, not sequence numbers; the bounds on them are what makes the 32-bit comparisons of the code
come out right.
-/

namespace AxonOS.Net

open Lib List Nat Bool

/-- The slot holds the bytes of `S` from `o` on. -/
structure SlotAt (S : List Byte) (isn o : Nat) (s : OooSlot) : Prop where
  seq : s.seq = serial (isn + 1 + o)
  data : s.data <+: S.drop o
  short : s.data.length ≤ NET_TCP_OOO_BYTES

/-- A slot in use holds a piece of `S` that starts less than `2^31` ahead of `n` and ends at most
`m` behind it. -/
def SlotOk (S : List Byte) (isn n m : Nat) (s : OooSlot) : Prop :=
  s.valid = true → s.data ≠ [] → ∃ o, SlotAt S isn o s ∧ o < n + 2 ^ 31 ∧ n ≤ o + s.data.length + m

/-- The sequence number a FIN has used up. -/
def Conn.finBit (c : Conn) : Nat := c.peerFin.toNat

structure StreamInv (S : List Byte) (isn : Nat) (out : List Byte) (m : Nat) (c : Conn) : Prop where
  stream : out ++ c.rx <+: S
  rcv : c.rcvNxt = serial (isn + 1 + ((out ++ c.rx).length + c.finBit))
  fin : c.peerFin = true → out ++ c.rx = S
  pending : c.peerFinPending = true → c.peerFin = false
    ∧ c.peerFinSeq = serial (isn + 1 + S.length) ∧ S.length < (out ++ c.rx).length + 2 ^ 32
  slots : ∀ s ∈ c.ooo, SlotOk S isn (out ++ c.rx).length m s
  fits : c.rx.length ≤ if c.rxBuf then c.rxCap else 0
  connect : c.connectPending = false

variable {S out : List Byte} {isn m n m' k : Nat} {c c' : Conn}

theorem StreamInv.length_le (h : StreamInv S isn out m c) : (out ++ c.rx).length ≤ S.length :=
  h.stream.length_le

theorem StreamInv.mono (h : StreamInv S isn out m c) (hm : m ≤ m') : StreamInv S isn out m' c := by
  refine { h with slots := ?_ }
  intro s hs hv hd
  obtain ⟨o, h1, h2, h3⟩ := h.slots s hs hv hd
  exact ⟨o, h1, h2, by omega⟩

/-- The invariant does not depend on the sending side. -/
structure SameRx (c c' : Conn) : Prop where
  rx : c'.rx = c.rx
  rcvNxt : c'.rcvNxt = c.rcvNxt
  peerFin : c'.peerFin = c.peerFin
  peerFinPending : c'.peerFinPending = c.peerFinPending
  peerFinSeq : c'.peerFinSeq = c.peerFinSeq
  ooo : c'.ooo = c.ooo
  rxBuf : c'.rxBuf = c.rxBuf
  rxCap : c'.rxCap = c.rxCap
  connectPending : c'.connectPending = c.connectPending

theorem StreamInv.same (h : StreamInv S isn out m c) (hs : SameRx c c') :
    StreamInv S isn out m c' := by
  obtain ⟨h1, h2, h3, h4, h5, h6, h7⟩ := h
  refine ⟨?_, ?_, ?_, ?_, ?_, ?_, hs.connectPending.trans h7⟩
  · rw [hs.rx]; exact h1
  · rw [hs.rx, hs.rcvNxt, Conn.finBit, hs.peerFin]; exact h2
  · rw [hs.rx, hs.peerFin]; exact h3
  · rw [hs.rx, hs.peerFin, hs.peerFinPending, hs.peerFinSeq]; exact h4
  · rw [hs.rx, hs.ooo]; exact h5
  · rw [hs.rx, hs.rxBuf, hs.rxCap]; exact h6

theorem sameRx_send (flags : Nat) (c : Conn) : SameRx c (tcpSendSeg flags c) :=
  ⟨rfl, rfl, rfl, rfl, rfl, rfl, rfl, rfl, rfl⟩

theorem sameRx_applyAck (ack : Nat) (c : Conn) : SameRx c (tcpApplyAck ack c) := by
  unfold tcpApplyAck
  split
  · exact ⟨rfl, rfl, rfl, rfl, rfl, rfl, rfl, rfl, rfl⟩
  · split <;> exact ⟨rfl, rfl, rfl, rfl, rfl, rfl, rfl, rfl, rfl⟩

/-! ## Appending to the receive buffer -/

theorem le_room (h : c.rx.length ≤ if c.rxBuf then c.rxCap else 0) (hk : k ≤ rxRoom c) :
    c.rx.length + k ≤ if c.rxBuf then c.rxCap else 0 := by
  unfold rxRoom at hk
  split at hk
  · omega
  · next hb =>
      obtain ⟨hb1, hb2⟩ := not_or.mp hb
      rw [if_pos (by simpa using hb1)]
      omega

section

variable (h : StreamInv S isn out m c) (hfin : c.peerFin = false)

include h hfin

/-- **Bytes of the stream at the right place** keep the invariant; the slots may fall behind by as
much as was appended. -/
theorem StreamInv.append {xs : List Byte} (hxs : xs <+: S.drop (out ++ c.rx).length)
    (hroom : xs.length ≤ rxRoom c) : StreamInv S isn out (m + xs.length)
      { c with rx := c.rx ++ xs, rcvNxt := (c.rcvNxt + xs.length) % 2 ^ 32 } := by
  have hlen : (out ++ (c.rx ++ xs)).length = (out ++ c.rx).length + xs.length := by
    rw [← append_assoc, length_append]
  refine ⟨?_, ?_, ?_, ?_, ?_, ?_, h.connect⟩
  · rw [← append_assoc]
    exact prefix_append_of_prefix_drop h.stream hxs
  · rw [h.rcv, serial_add, hlen]
    show serial _ = serial (isn + 1 + ((out ++ c.rx).length + xs.length + c.finBit))
    congr 1
    omega
  · intro hf
    rw [hfin] at hf
    cases hf
  · intro hp
    obtain ⟨h1, h2, h3⟩ := h.pending hp
    exact ⟨h1, h2, by rw [hlen]; omega⟩
  · intro s hs hv hd
    obtain ⟨o, h1, h2, h3⟩ := h.slots s hs hv hd
    rw [hlen]
    exact ⟨o, h1, by omega, by omega⟩
  · rw [length_append]
    exact le_room h.fits hroom

/-! ## The FIN -/

theorem StreamInv.rcv_open : c.rcvNxt = serial (isn + 1 + (out ++ c.rx).length) := by
  have := h.rcv
  rw [Conn.finBit, hfin] at this
  exact this

/-- The FIN is taken when everything before it has been accepted. -/
theorem StreamInv.close (hall : (out ++ c.rx).length = S.length) : StreamInv S isn out m { c with
      peerFin := true
      peerFinPending := false
      rcvNxt := (c.rcvNxt + 1) % 2 ^ 32
      established := false } := by
  refine { h with rcv := ?_, fin := fun _ => h.stream.eq_of_length hall, pending := nofun }
  rw [h.rcv_open hfin, serial_add]
  rfl

end

theorem completeFin_inv (h : StreamInv S isn out m c) :
    StreamInv S isn out m (tcpTryCompleteFin c) := by
  unfold tcpTryCompleteFin
  by_cases hp : c.peerFinPending = false ∨ c.peerFin = true
  · rw [if_pos hp]; exact h
  rw [if_neg hp]
  obtain ⟨hp1, hp2⟩ := not_or.mp hp
  have hpend : c.peerFinPending = true := by simpa using hp1
  have hfin : c.peerFin = false := by simpa using hp2
  by_cases hr : c.rcvNxt ≠ c.peerFinSeq
  · rw [if_pos hr]; exact h
  rw [if_neg hr]
  obtain ⟨-, hseq, hlt⟩ := h.pending hpend
  have hle := h.length_le
  have heq : serial (isn + 1 + (out ++ c.rx).length) = serial (isn + 1 + S.length) := by
    rw [← h.rcv_open hfin, ← hseq]
    exact not_not.mp hr
  have := serial_inj heq (by omega) (by omega)
  exact (h.close hfin (by omega)).same (sameRx_send _ _)

/-! ## The reassembly queue -/

variable {payload : List Byte} {s : OooSlot} {b o seq : Nat}

/-- `tcp_store_ooo` changes the slots only, and no slot but the one it writes. -/
theorem storeOoo_eq (seq : Nat) (payload : List Byte) (c : Conn) : ∃ ooo n,
    tcpStoreOoo seq payload c = { c with ooo := ooo, oooValid := n }
      ∧ ∀ s ∈ ooo, s ∈ c.ooo ∨ s = ⟨true, seq, payload⟩ ∧ payload.length ≤ NET_TCP_OOO_BYTES := by
  unfold tcpStoreOoo
  split
  · exact ⟨c.ooo, c.oooValid, rfl, fun s hs => .inl hs⟩
  split
  · exact ⟨c.ooo, c.oooValid, rfl, fun s hs => .inl hs⟩
  next hlen =>
  split
  · exact ⟨c.ooo, c.oooValid, rfl, fun s hs => .inl hs⟩
  split
  · exact ⟨c.ooo, c.oooValid, rfl, fun s hs => .inl hs⟩
  · refine ⟨_, _, rfl, fun s hs => (mem_or_eq_of_mem_set hs).imp_right fun h => ⟨h, ?_⟩⟩
    exact not_lt.mp hlen

/-- Replacing the slots by slots that hold pieces of the stream. -/
theorem StreamInv.with_slots {ooo : List OooSlot} (h : StreamInv S isn out m c)
    (hslots : ∀ s ∈ ooo, SlotOk S isn (out ++ c.rx).length m' s) :
    StreamInv S isn out m' { c with ooo := ooo, oooValid := k } :=
  { h with slots := hslots }

/-- **`tcp_store_ooo`** of a piece of the stream that is not behind. -/
theorem storeOoo_inv (h : StreamInv S isn out m c) (hp : payload <+: S.drop o)
    (ho : o < (out ++ c.rx).length + 2 ^ 31) (hend : (out ++ c.rx).length ≤ o + payload.length) :
    StreamInv S isn out m (tcpStoreOoo (serial (isn + 1 + o)) payload c) := by
  obtain ⟨ooo, k, he, hmem⟩ := storeOoo_eq (serial (isn + 1 + o)) payload c
  rw [he]
  refine h.with_slots fun s hs => ?_
  rcases hmem s hs with h1 | ⟨rfl, hlen⟩
  · exact h.slots s h1
  · intro _ _
    exact ⟨o, ⟨rfl, hp, hlen⟩, ho, le_add_right_of_le hend⟩

/-- The slot is in use and does not end before `rcv_nxt`. -/
def Ahead (rcvNxt : Nat) (s : OooSlot) : Prop :=
  s.valid = true ∧ s.data ≠ [] ∧ serialAfter ((s.seq + s.data.length) % 2 ^ 32) rcvNxt = true

/-- The slot covers `rcv_nxt`. -/
def Covers (rcvNxt : Nat) (s : OooSlot) : Prop :=
  Ahead rcvNxt s ∧ serialAfter s.seq rcvNxt = false

section Scan

variable {r : Nat}

/-- After the scan every slot is an old one that is still ahead, or out of use. -/
theorem mergeScan_slots (l : List OooSlot) (i k : Nat) (best : Option (Nat × Nat)) (t : OooSlot)
    (ht : t ∈ (mergeScan r l i k best).slots) : (t ∈ l ∧ Ahead r t) ∨ t.valid = false
    ∨ t.data = [] := by
  induction l generalizing i k best with
  | nil => cases ht
  | cons s ss ih =>
    have hrest : ∀ k' best', t ∈ (mergeScan r ss (i + 1) k' best').slots →
        (t ∈ s :: ss ∧ Ahead r t) ∨ t.valid = false ∨ t.data = [] := by
      intro k' best' h1
      rcases ih (i + 1) k' best' h1 with ⟨h2, h3⟩ | h2
      · exact .inl ⟨mem_cons_of_mem s h2, h3⟩
      · exact .inr h2
    unfold mergeScan at ht
    split at ht
    next hoff =>
      rcases mem_cons.mp ht with rfl | ht
      · exact .inr hoff
      · exact hrest _ _ ht
    next hon =>
      obtain ⟨hv, hd⟩ := not_or.mp hon
      split at ht
      next =>
        rcases mem_cons.mp ht with rfl | ht
        · exact .inr (.inl rfl)
        · exact hrest _ _ ht
      next hend =>
        have hahead : Ahead r s := ⟨by simpa using hv, hd, by simpa using hend⟩
        split at ht
        all_goals
          rcases mem_cons.mp ht with rfl | ht
          · exact .inl ⟨mem_cons_self, hahead⟩
          · exact hrest _ _ ht

/-- The best slot covers `rcv_nxt`. -/
theorem mergeScan_best : ∀ (l : List OooSlot) (i k : Nat) (best : Option (Nat × Nat)) {b q : Nat},
      (mergeScan r l i k best).best = some (b, q) → best = some (b, q)
        ∨ ∃ j s, b = i + j ∧ (mergeScan r l i k best).slots[j]? = some s ∧ s ∈ l ∧ Covers r s := by
  intro l
  induction l with
  | nil => intro i k best b q hb; exact .inl hb
  | cons s ss ih =>
    intro i k best b q
    have hrest : ∀ k' best' t, (mergeScan r ss (i + 1) k' best').best = some (b, q) →
        best' = some (b, q) ∨ ∃ j u, b = i + j
          ∧ (t :: (mergeScan r ss (i + 1) k' best').slots)[j]? = some u ∧ u ∈ s :: ss
          ∧ Covers r u := by
      intro k' best' t hb
      rcases ih (i + 1) k' best' hb with h1 | ⟨j, u, rfl, hj, hu, hc⟩
      · exact .inl h1
      · exact .inr
          ⟨j + 1, u, by omega, by rw [getElem?_cons_succ]; exact hj, mem_cons_of_mem s hu, hc⟩
    unfold mergeScan
    split
    next => exact hrest _ _ _
    next hon =>
    obtain ⟨hv, hd⟩ := not_or.mp hon
    split
    next => exact hrest _ _ _
    next hend =>
    split
    next => exact hrest _ _ _
    next hseq =>
    intro hb
    rcases hrest _ _ s hb with h1 | h1
    · -- the slot itself became the best one
      have hcov : Covers r s :=
        ⟨⟨by simpa using hv, hd, by simpa using hend⟩, by simpa using hseq⟩
      have hself : ∀ best', b = i → ∃ j u, b = i + j ∧ (s :: (mergeScan r ss (i + 1) k
          best').slots)[j]? = some u ∧ u ∈ s :: ss ∧ Covers r u :=
        fun _ e => ⟨0, s, e, rfl, mem_cons_self, hcov⟩
      cases best with
      | none =>
        injection h1 with h1
        injection h1 with h1 h2
        exact .inr (hself _ h1.symm)
      | some jq =>
        dsimp only at h1 ⊢
        split at h1
        next hafter =>
          injection h1 with h1
          injection h1 with h1 h2
          exact .inr (hself _ h1.symm)
        next => exact .inl h1
    · exact .inr h1

theorem mergeScan_count (l : List OooSlot) (i k : Nat) (best : Option (Nat × Nat)) :
    (mergeScan r l i k best).slots.countP OooSlot.valid ≤ l.countP OooSlot.valid := by
  induction l generalizing i k best with
  | nil => exact le_refl _
  | cons s ss ih =>
    have hkeep : ∀ k' best', (s :: (mergeScan r ss (i + 1) k' best').slots).countP OooSlot.valid
        ≤ (s :: ss).countP OooSlot.valid := by
      intro k' best'
      have := ih (i + 1) k' best'
      rw [countP_cons_toNat, countP_cons_toNat]
      omega
    unfold mergeScan
    split
    · exact hkeep _ _
    split
    · have := ih (i + 1) (k - 1) best
      rw [countP_cons_toNat, countP_cons_toNat]
      show false.toNat + _ ≤ _
      simp only [toNat_false]
      omega
    · split <;> exact hkeep _ _

end Scan

section

variable (h : StreamInv S isn out m c) (hm : m ≤ 2 ^ 30)

include h hm

/-- A slot that compares as ahead ends behind the byte that is expected next. -/
theorem StreamInv.ahead (hs : s ∈ c.ooo) (ha : Ahead c.rcvNxt s) :
    ∃ o, SlotAt S isn o s ∧ o < (out ++ c.rx).length + 2 ^ 31
      ∧ (out ++ c.rx).length + c.finBit < o + s.data.length := by
  obtain ⟨hv, hd, hafter⟩ := ha
  obtain ⟨o, hat, h1, h2⟩ := h.slots s hs hv hd
  have hbit : c.finBit ≤ 1 := toNat_le c.peerFin
  rw [hat.seq, serial_add, h.rcv] at hafter
  have := lt_of_serialAfter hafter (by omega)
  exact ⟨o, hat, h1, by omega⟩

/-- A slot that covers `rcv_nxt` holds the byte that is expected next. -/
theorem StreamInv.covers (hs : s ∈ c.ooo) (hc : Covers c.rcvNxt s) :
    c.peerFin = false ∧ ∃ o, SlotAt S isn o s ∧ o ≤ (out ++ c.rx).length
      ∧ (out ++ c.rx).length < o + s.data.length := by
  obtain ⟨o, hat, h1, h2⟩ := h.ahead hm hs hc.1
  have hshort := hat.short
  have hend := prefix_drop_length hat.data hc.1.2.1
  have hfin : c.peerFin = false := by
    cases hf : c.peerFin with
    | false => rfl
    | true =>
      rw [h.fin hf] at h2
      omega
  rw [Conn.finBit, hfin, toNat_false] at h2
  unfold NET_TCP_OOO_BYTES at hshort
  have hseq := hc.2
  rw [hat.seq, h.rcv_open hfin, eq_false_iff, ne_eq, serialAfter_iff (by omega) (by omega)] at hseq
  exact ⟨hfin, o, hat, by omega, h2⟩

/-- The scan leaves no slot that is behind. -/
theorem mergeScan_inv (k : Nat) : StreamInv S isn out 0
      { c with ooo := (mergeScan c.rcvNxt c.ooo 0 c.oooValid none).slots, oooValid := k } := by
  refine h.with_slots fun s hs hv hd => ?_
  rcases mergeScan_slots c.ooo 0 c.oooValid none s hs with ⟨h1, h2⟩ | h1 | h1
  · obtain ⟨o, hat, h3, h4⟩ := h.ahead hm h1 h2
    exact ⟨o, hat, h3, by omega⟩
  · rw [h1] at hv
    cases hv
  · exact absurd h1 hd

end

theorem sub64_of_le {a : Nat} (h : b ≤ a) (ha : a < 2 ^ 64) : sub64 a b = a - b := by
  unfold sub64
  omega

section

variable (hb : c.ooo[b]? = some s) (h : StreamInv S isn out 0 c) (hfin : c.peerFin = false)
    (hat : SlotAt S isn o s) (ho : o ≤ (out ++ c.rx).length)
    (hend : (out ++ c.rx).length < o + s.data.length)

include hb h hfin hat ho hend

theorem mergeBest_eq :
        ∃ cp, cp ≤ rxRoom c ∧ cp ≤ o + s.data.length - (out ++ c.rx).length ∧ mergeBest b c =
        if cp = 0 then (false, c)
        else
          let c1 := { c with
            rx := c.rx ++ (s.data.drop ((out ++ c.rx).length - o)).take cp
            rcvNxt := (c.rcvNxt + cp) % 2 ^ 32 }
          if cp = o + s.data.length - (out ++ c.rx).length then
            (true, { c1 with ooo := c.ooo.set b s.clear, oooValid := c.oooValid - 1 })
          else
            (false, { c1 with ooo := c.ooo.set b { s with
              data := s.data.drop ((out ++ c.rx).length - o + cp), seq := c1.rcvNxt } }) := by
  have hshort := hat.short
  unfold NET_TCP_OOO_BYTES at hshort
  have hget : c.ooo.getD b ⟨false, 0, []⟩ = s := getD_of_getElem? hb
  have hskip : sub32 c.rcvNxt s.seq = (out ++ c.rx).length - o := by
    rw [hat.seq, h.rcv_open hfin, sub32_serial (by omega) (by omega)]
    omega
  have hav : sub64 s.data.length ((out ++ c.rx).length - o)
      = o + s.data.length - (out ++ c.rx).length := by
    rw [sub64_of_le (by omega) (by omega)]
    omega
  refine ⟨if o + s.data.length - (out ++ c.rx).length > rxRoom c then rxRoom c
    else o + s.data.length - (out ++ c.rx).length, ?_, ?_, ?_⟩
  · split <;> omega
  · split <;> omega
  · unfold mergeBest
    simp only [hget, hskip, hav]

/-- **Copying from the best slot** keeps the invariant. -/
theorem mergeBest_inv :
          StreamInv S isn out NET_TCP_OOO_BYTES (mergeBest b c).2 ∧ ((mergeBest b c).1 = true →
          (mergeBest b c).2.ooo = c.ooo.set b s.clear) := by
  obtain ⟨cp, hroom, hcp, he⟩ := mergeBest_eq hb h hfin hat ho hend
  have hshort := hat.short
  set D := (out ++ c.rx).length
  rw [he]
  by_cases h0 : cp = 0
  · rw [if_pos h0]
    exact ⟨h.mono (zero_le _), nofun⟩
  rw [if_neg h0]
  have hdrop : s.data.drop (D - o) <+: S.drop D := by
    have := drop_prefix_drop (D - o) hat.data
    rwa [show o + (D - o) = D by omega] at this
  have hlen : ((s.data.drop (D - o)).take cp).length = cp := by
    rw [length_take, length_drop]
    omega
  have happ := h.append hfin ((List.take_prefix _ _).trans hdrop) (by rw [hlen]; exact hroom)
  rw [hlen] at happ
  have hD' : (out ++ (c.rx ++ (s.data.drop (D - o)).take cp)).length = D + cp := by
    rw [← append_assoc, length_append, hlen]
  have hold : ∀ t ∈ c.ooo, SlotOk S isn (D + cp) NET_TCP_OOO_BYTES t := by
    intro t ht hv hd
    obtain ⟨o', h1, h2, h3⟩ := happ.slots t ht hv hd
    rw [hD'] at h2 h3
    exact ⟨o', h1, h2, by omega⟩
  by_cases hall : cp = o + s.data.length - D
  · rw [if_pos hall]
    refine ⟨happ.with_slots fun t ht => ?_, fun _ => rfl⟩
    rw [hD']
    rcases mem_or_eq_of_mem_set ht with h1 | rfl
    · exact hold t h1
    · intro hv
      cases hv
  · rw [if_neg hall]
    refine ⟨happ.with_slots fun t ht => ?_, nofun⟩
    rw [hD']
    rcases mem_or_eq_of_mem_set ht with h1 | rfl
    · exact hold t h1
    -- what is left of the slot starts at the new `rcv_nxt`
    intro _ _
    refine ⟨D + cp, ⟨?_, ?_, ?_⟩, by omega, by omega⟩
    · show (c.rcvNxt + cp) % 2 ^ 32 = _
      rw [h.rcv_open hfin, serial_add]
      exact congrArg serial (by omega)
    · have := drop_prefix_drop (D - o + cp) hat.data
      rwa [show o + (D - o + cp) = D + cp by omega] at this
    · show (s.data.drop (D - o + cp)).length ≤ _
      rw [length_drop]
      omega

end

/-- **The loop of `tcp_try_merge_ooo` ends and keeps the invariant.** -/
theorem mergeLoop_inv (h : StreamInv S isn out m c) (hm : m ≤ 2 ^ 30)
    (hn : c.ooo.countP OooSlot.valid < n) :
    ∃ c', mergeLoop n c = some c' ∧ StreamInv S isn out NET_TCP_OOO_BYTES c' := by
  induction n generalizing c m with
  | zero => omega
  | succ n ih =>
    have hscan := mergeScan_inv h hm (mergeScan c.rcvNxt c.ooo 0 c.oooValid none).count
    have hcount := mergeScan_count (r := c.rcvNxt) c.ooo 0 c.oooValid none
    unfold mergeLoop
    dsimp only
    cases hbest : (mergeScan c.rcvNxt c.ooo 0 c.oooValid none).best with
    | none => exact ⟨_, rfl, hscan.mono (zero_le _)⟩
    | some bq =>
      obtain ⟨b, q⟩ := bq
      obtain ⟨j, s, hbj, hj, hs, hcov⟩ :=
        (mergeScan_best c.ooo 0 c.oooValid none hbest).resolve_left (by simp)
      rw [zero_add] at hbj
      subst hbj
      obtain ⟨hfin, o, hat, ho, hend⟩ := h.covers hm hs hcov
      obtain ⟨hinv, hset⟩ := mergeBest_inv hj hscan hfin hat ho hend
      dsimp only
      split
      next hgo =>
        -- the slot that was used up is no longer counted
        refine ih hinv (by decide) ?_
        rw [hset hgo]
        have hc := countP_set_add hj OooSlot.valid s.clear
        rw [hcov.1.1, show s.clear.valid = false from rfl] at hc
        simp only [toNat_true, toNat_false] at hc
        show (List.set (mergeScan c.rcvNxt c.ooo 0 c.oooValid none).slots b s.clear).countP
          OooSlot.valid < n
        omega
      next => exact ⟨_, rfl, hinv⟩

theorem mergeOoo_inv (h : StreamInv S isn out m c) (hm : m ≤ 2 ^ 30) :
    StreamInv S isn out NET_TCP_OOO_BYTES (tcpTryMergeOoo c) := by
  have hcount : c.ooo.countP OooSlot.valid < c.ooo.length + 1 :=
    lt_succ_of_le (countP_le_length)
  obtain ⟨c', he, hinv⟩ := mergeLoop_inv h hm hcount
  unfold tcpTryMergeOoo
  rw [he]
  exact hinv

/-! ## Segments -/

/-- A segment of the peer that arrives when the position `n` is expected next: its payload is the
piece of `S` at its sequence number, which is less than `2^31` away, and a FIN stands at the end of
`S`. A segment without payload and FIN may have any sequence number. -/
def SegOk (S : List Byte) (isn n : Nat) (seg : Segment) : Prop :=
  (seg.payload = [] ∧ seg.has FIN = false)
    ∨ ∃ off, seg.seq = serial (isn + 1 + off) ∧ seg.payload <+: S.drop off
      ∧ seg.payload.length ≤ 1994 ∧ off < n + 2 ^ 31 ∧ n < off + 2 ^ 31
      ∧ (seg.has FIN = true → off + seg.payload.length = S.length)

/-- The position expected next. -/
def position (out : List Byte) (c : Conn) : Nat := (out ++ c.rx).length + c.finBit

theorem position_le (h : StreamInv S isn out m c) : position out c ≤ S.length + c.finBit :=
  Nat.add_le_add_right h.length_le _

theorem finBit_le (c : Conn) : c.finBit ≤ 1 := toNat_le c.peerFin

theorem position_append (bs : List Byte) (r : Nat) :
    position out { c with rx := c.rx ++ bs, rcvNxt := r } = position out c + bs.length := by
  unfold position Conn.finBit
  dsimp only
  rw [← append_assoc, length_append]
  omega

theorem position_open (hfin : c.peerFin = false) : position out c = (out ++ c.rx).length := by
  unfold position Conn.finBit
  rw [hfin]
  rfl

theorem StreamInv.rcv_position (h : StreamInv S isn out m c) :
    c.rcvNxt = serial (isn + 1 + position out c) := h.rcv

/-- What is not before the position expected next has not been closed by a FIN. -/
theorem StreamInv.open_of_lt (h : StreamInv S isn out m c) (hn : n ≤ S.length)
    (hlt : position out c ≤ n) :
    c.peerFin = false := by
  cases hf : c.peerFin with
  | false => rfl
  | true =>
    unfold position Conn.finBit at hlt
    rw [h.fin hf, hf, toNat_true] at hlt
    omega

/-- What `tcp_accept_inorder` can do: nothing, or copy `cp` bytes behind the `skip` bytes that are
there already. -/
theorem acceptInorder_cases (seq : Nat) (payload : List Byte) (c : Conn) :
    tcpAcceptInorder seq payload c = (0, c) ∨ ∃ skip cp, (seq = c.rcvNxt ∧ skip = 0
          ∨ seq < c.rcvNxt ∧ skip = sub32 c.rcvNxt seq ∧ skip < payload.length)
        ∧ cp ≤ rxRoom c ∧ cp ≤ payload.length - skip
        ∧ tcpAcceptInorder seq payload c = (cp, { c with
            rx := c.rx ++ (payload.drop skip).take cp
            rcvNxt := (c.rcvNxt + cp) % 2 ^ 32 }) := by
  have hmin : ∀ a room : Nat, (if a > room then room else a) ≤ room
      ∧ (if a > room then room else a) ≤ a := by
    intro a room
    split <;> omega
  unfold tcpAcceptInorder
  split
  · exact .inl rfl
  split
  next heq =>
    obtain ⟨hroom, hlen⟩ := hmin payload.length (rxRoom c)
    exact .inr ⟨0, _, .inl ⟨heq, rfl⟩, hroom, hlen, rfl⟩
  split
  next hraw =>
    dsimp only
    split
    next hlt =>
      obtain ⟨hroom, hlen⟩ := hmin (payload.length - sub32 c.rcvNxt seq) (rxRoom c)
      exact .inr ⟨_, _, .inr ⟨hraw, rfl, hlt⟩, hroom, hlen, rfl⟩
    next => exact .inl rfl
  next => exact .inl rfl

/-- **`tcp_accept_inorder`** for a piece that starts at or before the position expected next. -/
theorem acceptInorder_inv {off : Nat} (h : StreamInv S isn out m c)
    (hseq : seq = serial (isn + 1 + off)) (hp : payload <+: S.drop off) (hne : payload ≠ [])
    (hle : off ≤ position out c) (hclose : position out c < off + 2 ^ 31) :
    ∃ acc c', tcpAcceptInorder seq payload c = (acc, c') ∧ StreamInv S isn out (m + acc) c'
      ∧ (acc ≠ 0 → position out c - off + acc ≤ payload.length)
      ∧ position out c' = position out c + acc ∧ c'.peerFin = c.peerFin := by
  rcases acceptInorder_cases seq payload c with he | ⟨skip, cp, hskip, hroom, hcp, he⟩
  · exact ⟨0, c, he, h, fun h0 => absurd rfl h0, rfl, rfl⟩
  have hend := prefix_drop_length hp hne
  -- either way `skip` leads from the start of the piece to the byte that is expected
  have hat : skip = position out c - off := by
    rcases hskip with ⟨heq, h0⟩ | ⟨-, hsub, -⟩
    · rw [hseq, h.rcv_position] at heq
      have := serial_inj heq (by omega) (by omega)
      omega
    · rw [hsub, hseq, h.rcv_position, sub32_serial (by omega) (by omega)]
      omega
  have hfin := h.open_of_lt hend (by omega)
  have hpos : position out c = (out ++ c.rx).length := position_open hfin
  have hdrop : payload.drop skip <+: S.drop (out ++ c.rx).length := by
    have := drop_prefix_drop skip hp
    rwa [show off + skip = (out ++ c.rx).length by omega] at this
  have hlen : ((payload.drop skip).take cp).length = cp := by
    rw [length_take, length_drop]
    omega
  have happ := h.append hfin ((List.take_prefix cp _).trans hdrop) (by rw [hlen]; exact hroom)
  rw [hlen] at happ
  refine ⟨cp, _, he, happ, fun _ => by omega, ?_, rfl⟩
  rw [position_append, hlen]

end AxonOS.Net

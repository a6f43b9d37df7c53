import AxonOS.Lib.CountRing
import AxonOS.Lib.Run
import Mathlib.Data.List.TakeWhile

/-! # The receive queue

`net_rxq_push` and `net_rxq_pop` on a counted ring of frames; the queue's `head` is the `tail` of
the ring. A full queue evicts a frame for a new one: the oldest, or the oldest that is no DNS
message if the new one is. The frames before an evicted one go behind those after it.
-/

namespace AxonOS.Net.Rxq

open Lib List

abbrev Frame := List UInt8

def NET_RXQ_BUF : Nat := 2048

def byteAt (frame : Frame) (i : Nat) : Nat := (frame.getD i 0).toNat

def be16 (frame : Frame) (i : Nat) : Nat := byteAt frame i * 256 + byteAt frame (i + 1)

def netFrameUdpDns (frame : Frame) : Bool :=
  let ihl := byteAt frame 14 % 16 * 4
  14 + 20 + 8 ≤ frame.length ∧ be16 frame 12 = 0x0800 ∧ byteAt frame 23 = 17 ∧ 20 ≤ ihl ∧
    14 + ihl + 8 ≤ frame.length ∧ (be16 frame (14 + ihl) = 53 ∨ be16 frame (14 + ihl + 2) = 53)

/-- One round of `net_rxq_drop_offset_locked`. -/
def rotateOne (q : CountRing Frame) : CountRing Frame := (q.drop 1).push (q.take 1)

def netRxqDropOffsetLocked (q : CountRing Frame) (offset : Nat) : CountRing Frame :=
  if q.count = 0 then q
  else (rotateOne^[if q.count ≤ offset then 0 else offset] q).drop 1

/-- The frame to evict, by its place in the queue. -/
def dropAt (queue : List Frame) (frame : Frame) : Nat :=
  if netFrameUdpDns frame then (queue.findIdx? fun f => !netFrameUdpDns f).getD 0 else 0

def netRxqPush (q : CountRing Frame) (frame : Frame) : CountRing Frame :=
  if frame = [] then q
  else
    let frame := frame.take NET_RXQ_BUF
    let q := if q.buf.size ≤ q.count then netRxqDropOffsetLocked q (dropAt q.contents frame) else q
    q.push [frame]

/-- The bytes copied, none where nothing is. -/
def netRxqPop (q : CountRing Frame) (cap : Nat) : Frame × CountRing Frame :=
  if cap = 0 ∨ q.count = 0 then ([], q) else ((q.take 1).flatten.take cap, q.drop 1)

inductive Op where
  | push (frame : Frame)
  | pop (cap : Nat)

def step (q : CountRing Frame) : Op → CountRing Frame
  | .push frame => netRxqPush q frame
  | .pop cap => (netRxqPop q cap).2

/-- What is to be queued before a new frame: a full queue loses its oldest frame that is no DNS
message if the new frame is one and there is another, and its oldest frame otherwise. -/
def evict (slots : Nat) (queue : List Frame) (frame : Frame) : List Frame :=
  if queue.length < slots then queue
  else if netFrameUdpDns frame ∧ ∃ f ∈ queue, !netFrameUdpDns f then
    queue.eraseP fun f => !netFrameUdpDns f
  else queue.tail

/-- The queue is bounded, and the operation is that of a FIFO that evicts one frame at most. -/
def Fifo (q : CountRing Frame) (op : Op) : Prop :=
  (step q op).contents.length ≤ q.buf.size ∧
  match op with
  | .push frame => frame ≠ [] → (step q op).contents =
      evict q.buf.size q.contents (frame.take NET_RXQ_BUF) ++ [frame.take NET_RXQ_BUF]
  | .pop cap => (netRxqPop q cap).1 = (q.contents.headD []).take cap ∧
      (cap ≠ 0 → (step q op).contents = q.contents.tail)

/-- Two lists that repeat one and the same list. -/
def Powers (a b : List Frame) : Prop :=
  ∃ w i j, a = (replicate i w).flatten ∧ b = (replicate j w).flatten

/-- Where a DNS message comes to a full queue, no DNS message stands before the first other frame,
or nothing stands behind it, or the frames before and behind it repeat one and the same list. -/
def InPlace (q : CountRing Frame) : Op → Prop
  | .push frame => frame ≠ [] → q.count = q.buf.size → netFrameUdpDns (frame.take NET_RXQ_BUF) →
      let older := q.contents.takeWhile netFrameUdpDns
      let newer := (q.contents.dropWhile netFrameUdpDns).tail
      older = [] ∨ newer = [] ∨ Powers older newer
  | .pop _ => True

/-! ## Lists that commute -/

theorem append_comm_of_powers {a b : List Frame} (h : Powers a b) : a ++ b = b ++ a := by
  obtain ⟨w, i, j, rfl, rfl⟩ := h
  rw [← flatten_append, ← flatten_append, replicate_append_replicate,
    replicate_append_replicate, Nat.add_comm]

/-- Two lists that commute are powers of one list: the shorter is a beginning of the longer, and
commutes with the rest of it. -/
theorem powers_of_append_comm (n : Nat) (a b : List Frame) (hn : a.length + b.length ≤ n)
    (h : a ++ b = b ++ a) :
    Powers a b := by
  induction n generalizing a b with
  | zero => exact ⟨[], 0, 0, length_eq_zero_iff.mp (by omega), length_eq_zero_iff.mp (by omega)⟩
  | succ n ih =>
    wlog hle : a.length ≤ b.length with hsymm
    · obtain ⟨w, i, j, hb, ha⟩ := hsymm n ih b a (by omega) h.symm (Nat.le_of_not_le hle)
      exact ⟨w, j, i, ha, hb⟩
    by_cases hnil : a = []
    · exact ⟨b, 0, 1, hnil, by simp⟩
    obtain ⟨c, rfl⟩ : a <+: b := prefix_of_prefix_length_le (h ▸ prefix_append a b)
      (prefix_append b a) hle
    have hc : a ++ c = c ++ a := by
      rw [append_assoc] at h
      exact append_cancel_left h
    have hpos := length_pos_iff.mpr hnil
    rw [length_append] at hn
    obtain ⟨w, i, j, ha, hcw⟩ := ih a c (by omega) hc
    refine ⟨w, i, i + j, ha, ?_⟩
    rw [← replicate_append_replicate, flatten_append, ← ha, ← hcw]

variable {q : CountRing Frame} {i : Nat}

theorem contents_rotateOne (q : CountRing Frame) :
    (rotateOne q).contents = q.contents.rotate 1 := by
  have hle := q.count_le
  have hfits : (q.contents.take 1).length ≤ (q.drop 1).free := by
    simp only [length_take, CountRing.length_contents, CountRing.free, CountRing.drop, RingBuf.drop]
    omega
  rw [rotateOne, CountRing.contents_push, CountRing.contents_drop, CountRing.take_eq,
    take_of_length_le hfits]
  cases q.contents with
  | nil => rfl
  | cons x l => simp

theorem rotations (q : CountRing Frame) (k : Nat) :
    (rotateOne^[k] q).contents = q.contents.rotate k ∧ (rotateOne^[k] q).buf.size = q.buf.size := by
  induction k with
  | zero => exact ⟨(rotate_zero _).symm, rfl⟩
  | succ k ih =>
    rw [Function.iterate_succ_apply', contents_rotateOne, ih.1, rotate_rotate]
    exact ⟨rfl, ih.2⟩

theorem dropOffset (hi : i < q.count) : (netRxqDropOffsetLocked q i).contents =
    q.contents.drop (i + 1) ++ q.contents.take i ∧ (netRxqDropOffsetLocked q i).buf.size
    = q.buf.size := by
  obtain ⟨hcontents, hsize⟩ := rotations q i
  have hlen : i < q.contents.length := by rwa [CountRing.length_contents]
  rw [netRxqDropOffsetLocked, if_neg (by omega), if_neg (by omega)]
  refine ⟨?_, hsize⟩
  rw [CountRing.contents_drop, hcontents, rotate_eq_drop_append_take hlen.le,
    drop_append_of_le_length, drop_drop]
  rw [length_drop]
  omega

theorem dropAt_lt {queue : List Frame} (frame : Frame) (h : queue ≠ []) :
    dropAt queue frame < queue.length := by
  have hpos := length_pos_iff.mpr h
  unfold dropAt
  split
  · cases hfind : queue.findIdx? fun f => !netFrameUdpDns f with
    | none => exact hpos
    | some i => exact (findIdx?_eq_some_iff_getElem.mp hfind).1
  · exact hpos

/-- The queue behind the eviction is the one that is wanted exactly under the condition. -/
theorem rotated_eq_iff {queue : List Frame} {slots : Nat} (hfull : slots ≤ queue.length)
    (frame : Frame) :
    queue.drop (dropAt queue frame + 1) ++ queue.take (dropAt queue frame) = evict slots queue frame
      ↔ (netFrameUdpDns frame → queue.takeWhile netFrameUdpDns = []
        ∨ (queue.dropWhile netFrameUdpDns).tail = []
        ∨ Powers (queue.takeWhile netFrameUdpDns) (queue.dropWhile netFrameUdpDns).tail) := by
  rw [evict, if_neg (Nat.not_lt.mpr hfull), dropAt]
  by_cases hdns : netFrameUdpDns frame = true
  · rw [if_pos hdns, imp_iff_right hdns]
    by_cases hother : ∃ f ∈ queue, !netFrameUdpDns f
    · obtain ⟨g, hg, hgp⟩ := hother
      rw [if_pos ⟨hdns, g, hg, hgp⟩]
      obtain ⟨f, older, newer, holder, hf, rfl, herase⟩ :=
        exists_of_eraseP (p := fun f => !netFrameUdpDns f) hg hgp
      replace holder : ∀ b ∈ older, netFrameUdpDns b = true := by simpa using holder
      replace hf : netFrameUdpDns f = false := by simpa using hf
      have hidx : (older ++ f :: newer).findIdx? (fun f => !netFrameUdpDns f)
          = some older.length := by
        rw [findIdx?_eq_some_iff_findIdx_eq]
        grind
      rw [herase, hidx, takeWhile_append_of_pos holder, dropWhile_append_of_pos holder,
        takeWhile_cons_of_neg (by simp [hf]), dropWhile_cons_of_neg (by simp [hf]), append_nil,
        tail_cons, Option.getD_some]
      constructor
      · exact fun h =>
          .inr (.inr (powers_of_append_comm _ older newer le_rfl (by simpa using h.symm)))
      · rintro (rfl | rfl | h)
        · simp
        · simp
        · simpa using (append_comm_of_powers h).symm
    · rw [if_neg (fun h => hother h.2)]
      simp only [not_exists, not_and, Bool.not_eq_true', Bool.not_eq_false] at hother
      rw [findIdx?_eq_none_iff.mpr (by simpa using hother), dropWhile_eq_nil_iff.mpr hother]
      simp
  · simp [hdns]

theorem contents_push_one {x : Frame} (h : q.count < q.buf.size) :
    (q.push [x]).contents = q.contents ++ [x] := by
  rw [CountRing.contents_push, take_of_length_le]
  unfold CountRing.free
  exact Nat.sub_pos_of_lt h

theorem fifo_push_iff (q : CountRing Frame) (frame : Frame) :
    Fifo q (.push frame) ↔ InPlace q (.push frame) := by
  simp only [Fifo, InPlace, step, netRxqPush]
  by_cases hnil : frame = []
  · simp [hnil, q.count_le]
  rw [if_neg hnil]
  generalize frame.take NET_RXQ_BUF = f
  by_cases hfull : q.buf.size ≤ q.count
  · have hcount : q.count = q.buf.size := le_antisymm q.count_le hfull
    have hpos := q.buf.head_lt
    have hne : q.contents ≠ [] := by
      rw [← length_pos_iff, CountRing.length_contents]
      omega
    have hlt := dropAt_lt f hne
    rw [CountRing.length_contents] at hlt
    obtain ⟨hcontents, hsize⟩ := dropOffset hlt
    have hlen := congrArg length hcontents
    simp only [length_append, length_drop, length_take, CountRing.length_contents] at hlen
    rw [if_pos hfull, contents_push_one (by omega), hcontents, append_cancel_right_eq,
      rotated_eq_iff (by rw [CountRing.length_contents]; omega)]
    refine ⟨fun h _ _ => h.2 hnil, fun h => ⟨?_, fun _ => h hnil hcount⟩⟩
    simp only [length_append, length_drop, length_take, CountRing.length_contents, length_singleton]
    omega
  · rw [if_neg hfull, contents_push_one (by omega), evict, if_pos (by simp; omega)]
    refine iff_of_true ⟨?_, fun _ => rfl⟩ fun _ h => absurd h.ge hfull
    rw [length_append, CountRing.length_contents]
    exact Nat.lt_of_not_le hfull

theorem fifo_pop (q : CountRing Frame) (cap : Nat) : Fifo q (.pop cap) := by
  have hle := q.count_le
  simp only [Fifo, step, netRxqPop]
  split
  next h =>
    refine ⟨by simpa using hle, ?_⟩
    rcases h with h | h
    · exact ⟨by simp [h], fun hcap => absurd h hcap⟩
    · have hnil : q.contents = [] := length_eq_zero_iff.mp ((CountRing.length_contents q).trans h)
      simp [hnil]
  next h =>
    refine ⟨?_, ?_, fun _ => ?_⟩
    · rw [CountRing.contents_drop, length_drop, CountRing.length_contents]
      omega
    · rw [CountRing.take_eq]
      cases q.contents <;> simp
    · rw [CountRing.contents_drop, drop_one]

/-- **The queue is a bounded FIFO where evictions leave the order.** In a run of pushes and pops
from an empty queue, every operation is that of the FIFO if and only if every push on a full queue
is `InPlace`. -/
theorem rxq_fifo_iff (cell : Nat → Frame) (n : Nat) (ops : List Op) :
    RunMeets step Fifo (CountRing.empty cell n) ops ↔
      RunMeets step InPlace (CountRing.empty cell n) ops := by
  have hop : ∀ q op, Fifo q op ↔ InPlace q op := by
    rintro q (frame | cap)
    · exact fifo_push_iff q frame
    · exact iff_of_true (fifo_pop q cap) trivial
  exact forall_congr' fun _ => forall_congr' fun _ => forall_congr' fun _ =>
    imp_congr_right fun _ => hop _ _

def dnsFrame : Frame :=
  replicate 12 0 ++ [8, 0, 0x45] ++ replicate 8 0 ++ [17] ++ replicate 10 0 ++ [0, 53]
    ++ replicate 6 0

/-- A queue of two slots: the second DNS message takes the place of the frame that is none. -/
theorem rxq_fifo_twoSlots : RunMeets step Fifo (CountRing.empty (fun _ => []) 1)
    [.push [1], .push dnsFrame, .push dnsFrame, .pop 64] := by
  refine (rxq_fifo_iff (fun _ => []) 1 [.push [1], .push dnsFrame, .push dnsFrame, .pop 64]).mpr ?_
  simp only [runMeets_cons, InPlace, runMeets_nil, and_true]
  exact ⟨fun _ h => absurd h (by decide), fun _ h => absurd h (by decide),
    fun _ _ _ => .inl (by decide)⟩

/-- A DNS message and 127 other frames fill the queue of 128. -/
def filled : CountRing Frame :=
  (dnsFrame :: replicate 127 [1]).foldl netRxqPush (CountRing.empty (fun _ => []) 127)

/-- **An eviction from the middle changes the order**: the oldest frame is the newest but one after
the next push. -/
theorem rxq_reordered : filled.contents = dnsFrame :: replicate 127 [1] ∧
    (netRxqPush filled dnsFrame).contents = replicate 126 [1] ++ [dnsFrame, dnsFrame] := by
  decide +kernel

end AxonOS.Net.Rxq

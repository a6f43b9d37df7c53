import AxonOS.Arch.Word
import AxonOS.Net.Tcp
import Mathlib.Tactic

/-! # Names of the DNS resolver

`net_dns_encode_qname`, `build_query` and `skip_name` of `net/dns.c`. The encoder writes a length
for every label of the host, for an empty one too, and `skip_name` takes the first zero for the end
of the name.
-/

namespace AxonOS.Net.Dns

open List

def DOT : Byte := 46

/-- The end of a label: its length and its bytes are written. -/
def flushLabel (cap : Nat) (label out : List Byte) : Option (List Byte) :=
  if 63 < label.length ∨ cap ≤ out.length + 1 + label.length then none
  else some (out ++ UInt8.ofNat label.length :: label)

def encodeLoop (cap : Nat) : List Byte → List Byte → List Byte → Option (List Byte)
  | [], label, out => flushLabel cap label out
  | c :: host, label, out =>
    if c = DOT then (flushLabel cap label out).bind fun out => encodeLoop cap host [] out
    else encodeLoop cap host (label ++ [c]) out

/-- The value that is returned, and the bytes that were written. -/
def netDnsEncodeQname (host : List Byte) (cap : Nat) : Int × List Byte :=
  if cap = 0 then (-1, [])
  else
    match encodeLoop cap host [] [] with
    | none => (-1, [])
    | some out => if cap ≤ out.length then (-1, []) else (toInt (out.length + 1), out ++ [0])

def buildQuery (host : List Byte) (id cap : Nat) : Int × List Byte :=
  let q := netDnsEncodeQname host (cap - 12)
  if q.1 < 0 ∨ cap < 12 + q.1.toNat + 4 then (-1, [])
  else
    (toInt (12 + q.1.toNat + 4), [UInt8.ofNat (id / 256), UInt8.ofNat id, 1, 0, 0, 1, 0, 0, 0, 0, 0,
      0] ++ (q.2.take q.1.toNat ++ [0, 1, 0, 1]))

def skipNameLoop (msg : List Byte) : Nat → Nat → Int
  | 0, _ => -1
  | fuel + 1, off =>
    match msg[off]? with
    | none => -1
    | some b =>
      if b = 0 then toInt (off + 1)
      else if b.toNat &&& 0xC0 = 0xC0 then if msg.length ≤ off + 1 then -1 else toInt (off + 2)
      else if 63 < b.toNat ∨ msg.length < off + 1 + b.toNat then -1
      else skipNameLoop msg fuel (off + 1 + b.toNat)

/-- Every round moves on, so that as many rounds as there are bytes are enough. -/
def skipName (msg : List Byte) (off : Nat) : Int := skipNameLoop msg (msg.length - off) off

/-- The labels as they are written. -/
def frames (ls : List (List Byte)) : List Byte := ls.flatMap fun l => UInt8.ofNat l.length :: l

/-- The written name is well formed and has the labels of the host, and the parser finds its end. -/
structure Agrees (host : List Byte) (n : Int) (out : List Byte) : Prop where
  written : n = out.length
  skipped : skipName out 0 = n
  labels : ∃ ls, out = frames ls ++ [0] ∧ (∀ l ∈ ls, 1 ≤ l.length ∧ l.length ≤ 63) ∧
    ([DOT].intercalate ls = host ∨ [DOT].intercalate ls ++ [DOT] = host)
  question : ∀ id cap, 0 ≤ (buildQuery host id cap).1 →
      skipName (buildQuery host id cap).2 12 = 12 + n

variable {host label out out' : List Byte} {ls : List (List Byte)} {cap fuel : Nat}

theorem flushLabel_some (h : flushLabel cap label out = some out') :
    label.length ≤ 63 ∧ out' = out ++ UInt8.ofNat label.length :: label := by
  unfold flushLabel at h
  split at h
  · cases h
  · exact ⟨by omega, (Option.some.inj h).symm⟩

theorem modifyHead_nil_append (ls : List (List Byte)) : ls.modifyHead ([] ++ ·) = ls := by
  cases ls <;> rfl

/-- **The encoder** writes every label between two dots. -/
theorem encodeLoop_some (h : encodeLoop cap host label out = some out') :
    out' = out ++ frames ((host.splitOn DOT).modifyHead (label ++ ·)) ∧
      ∀ l ∈ (host.splitOn DOT).modifyHead (label ++ ·), l.length ≤ 63 := by
  induction host generalizing label out with
  | nil =>
    obtain ⟨hlen, rfl⟩ := flushLabel_some h
    simpa [frames] using hlen
  | cons c host ih =>
    rw [splitOn, splitOnP_cons_eq_if_modifyHead]
    unfold encodeLoop at h
    split at h
    next hc =>
      obtain ⟨mid, hmid, h⟩ := Option.bind_eq_some_iff.mp h
      obtain ⟨hlen, rfl⟩ := flushLabel_some hmid
      obtain ⟨rfl, hall⟩ := ih h
      rw [modifyHead_nil_append] at hall ⊢
      rw [if_pos (by simpa using hc)]
      exact ⟨by simp [frames, splitOn], by simpa using ⟨hlen, hall⟩⟩
    next hc =>
      rw [if_neg (by simpa using hc), modifyHead_modifyHead]
      simpa [Function.comp_def, splitOn] using ih h

theorem encode_some {n : Int} (h : netDnsEncodeQname host cap = (n, out)) (hn : 0 ≤ n) :
    n = toInt out.length ∧ out = frames (host.splitOn DOT) ++ [0] ∧ ∀ l ∈ host.splitOn DOT,
    l.length ≤ 63 := by
  have hfail : ∀ {o}, (-1, o) ≠ (n, out) := fun heq => by cases heq; omega
  unfold netDnsEncodeQname at h
  split at h
  · exact absurd h hfail
  split at h
  · exact absurd h hfail
  next bytes henc =>
  split at h
  · exact absurd h hfail
  obtain ⟨rfl, rfl⟩ := Prod.mk.inj h
  have hspec := encodeLoop_some henc
  rw [modifyHead_nil_append] at hspec
  refine ⟨by simp, ?_, hspec.2⟩
  rw [hspec.1]
  rfl

/-- **The parser** stops behind the first zero after labels that are not empty. -/
theorem skipNameLoop_frames (hls : ∀ l ∈ ls, l ≠ [] ∧ l.length ≤ 63) (pre post : List Byte)
    (hfuel : (frames ls).length < fuel) :
      skipNameLoop (pre ++ (frames ls ++ 0 :: post)) fuel pre.length =
      toInt (pre.length + (frames ls).length + 1) := by
  induction ls generalizing pre fuel with
  | nil =>
    obtain ⟨fuel, rfl⟩ := Nat.exists_eq_succ_of_ne_zero (Nat.ne_zero_of_lt hfuel)
    simp [skipNameLoop, frames]
  | cons l ls ih =>
    obtain ⟨⟨hne, hlen⟩, hls⟩ := forall_mem_cons.mp hls
    have hpos := length_pos_iff.mpr hne
    have hb : (UInt8.ofNat l.length).toNat = l.length :=
      UInt8.toNat_ofNat_of_lt' (show l.length < 256 by omega)
    have hget : (pre ++ (frames (l :: ls) ++ 0 :: post))[pre.length]?
        = some (UInt8.ofNat l.length) := by
      simp [frames]
    have hzero : UInt8.ofNat l.length ≠ 0 := by
      intro h
      rw [h] at hb
      exact hpos.ne hb
    have hpointer : ∀ n < 64, n &&& 0xC0 ≠ 0xC0 := by decide
    have hmsg : pre ++ (frames (l :: ls) ++ 0 :: post) =
        (pre ++ UInt8.ofNat l.length :: l) ++ (frames ls ++ 0 :: post) := by simp [frames]
    have hoff : (pre ++ UInt8.ofNat l.length :: l).length = pre.length + 1 + l.length := by
      simp
      omega
    have hsize : (frames (l :: ls)).length = 1 + l.length + (frames ls).length := by
      simp [frames]
      omega
    obtain ⟨fuel, rfl⟩ := Nat.exists_eq_succ_of_ne_zero (Nat.ne_zero_of_lt hfuel)
    have hrest := @ih fuel hls (pre ++ UInt8.ofNat l.length :: l) (by omega)
    rw [← hmsg, hoff] at hrest
    have hfits :
        ¬(63 < l.length
          ∨ (pre ++ (frames (l :: ls) ++ 0 :: post)).length < pre.length + 1 + l.length) := by
      rw [length_append, length_append, hsize]
      omega
    rw [skipNameLoop, hget]
    dsimp only
    rw [if_neg hzero, hb, if_neg (hpointer _ (by omega)), if_neg hfits, hrest, hsize]
    congr 1
    omega

theorem skipName_frames (hls : ∀ l ∈ ls, l ≠ [] ∧ l.length ≤ 63) (pre post : List Byte) :
    skipName (pre ++ (frames ls ++ 0 :: post)) pre.length
      = toInt (pre.length + (frames ls).length + 1) := by
  refine skipNameLoop_frames hls pre post ?_
  simp

/-- Each label takes one byte more than it has, and all but the last have a dot behind them. -/
theorem frames_length (l : List Byte) (ls : List (List Byte)) :
    (frames (l :: ls)).length = ([DOT].intercalate (l :: ls)).length + 1 := by
  induction ls generalizing l with
  | nil => simp [frames, intercalate]
  | cons l' ls ih =>
    have := ih l'
    simp [frames, intercalate] at this ⊢
    omega

/-- **The encoder and the parser agree** if and only if no label of the host is empty and the size
fits an `int`. -/
theorem qname_agrees_iff (host : List Byte) (cap : Nat) (n : Int) (out : List Byte)
    (h : netDnsEncodeQname host cap = (n, out)) (hn : 0 ≤ n) :
    Agrees host n out ↔ [] ∉ host.splitOn DOT ∧ host.length + 2 < 2 ^ 31 := by
  obtain ⟨hcint, hout, hlen⟩ := encode_some h hn
  have hhost : (frames (host.splitOn DOT)).length = host.length + 1 := by
    obtain ⟨l, ls, hls⟩ := exists_cons_of_ne_nil (splitOn_ne_nil DOT host)
    rw [hls, frames_length, ← hls, intercalate_splitOn]
  rw [show host.length + 2 = out.length by rw [hout, length_append, hhost, length_singleton]]
  have hsize : out.length = (frames (host.splitOn DOT)).length + 1 := by
    rw [hout, length_append, length_singleton]
  constructor
  · intro ha
    have hsmall : out.length < 2 ^ 31 := toInt_eq_iff.mp (hcint.symm.trans ha.written)
    refine ⟨fun hmem => ?_, hsmall⟩
    -- the parser stops at the first empty label
    obtain ⟨good, rest, hsplit, hgood⟩ := eq_append_cons_of_mem hmem
    have hls : ∀ l ∈ good, l ≠ [] ∧ l.length ≤ 63 := by
      refine fun l hl => ⟨fun hnil => hgood (hnil ▸ hl), hlen l ?_⟩
      rw [hsplit]
      exact mem_append_left _ hl
    have heq : out = [] ++ (frames good ++ 0 :: (frames rest ++ [0])) := by
      rw [hout, hsplit]
      simp [frames]
    have hshort : (frames good).length + 1 < out.length := by
      rw [heq]
      simp
    have hskip := skipName_frames hls [] (frames rest ++ [0])
    rw [← heq, length_nil, ha.skipped, ha.written, Nat.zero_add,
      toInt_eq_iff.mpr (hshort.trans hsmall)] at hskip
    omega
  · rintro ⟨hmem, hsmall⟩
    have hn' : n = out.length := hcint.trans (toInt_eq_iff.mpr hsmall)
    have hls : ∀ l ∈ host.splitOn DOT, l ≠ [] ∧ l.length ≤ 63 :=
      fun l hl => ⟨fun hnil => hmem (hnil ▸ hl), hlen l hl⟩
    refine ⟨hn', ?_, ⟨_, hout, fun l hl => ⟨?_, hlen l hl⟩, .inl (intercalate_splitOn DOT)⟩,
      fun id cap' hq => ?_⟩
    · have hskip := skipName_frames hls [] []
      rw [nil_append, ← hout, length_nil, Nat.zero_add, ← hsize, ← hcint] at hskip
      exact hskip
    · exact length_pos_iff.mpr (hls l hl).1
    · unfold buildQuery at hq ⊢
      dsimp only at hq ⊢
      generalize henc : netDnsEncodeQname host (cap' - 12) = q at hq ⊢
      split at hq
      · cases hq
      next hok =>
      obtain ⟨hcint', hout', -⟩ := encode_some (henc.trans (Prod.mk.eta (p := q)).symm) (by omega)
      rw [← hout] at hout'
      rw [hout', ← hcint, hn'] at hcint'
      rw [hcint', Int.toNat_natCast] at hq
      have hskip := skipName_frames hls
        [UInt8.ofNat (id / 256), UInt8.ofNat id, 1, 0, 0, 1, 0, 0, 0, 0, 0, 0] [0, 1, 0, 1]
      have hmsg : frames (host.splitOn DOT) ++ 0 :: [0, 1, 0, 1] = out ++ [0, 1, 0, 1] := by
        rw [hout, append_assoc]
        rfl
      rw [hmsg] at hskip
      rw [if_neg hok, hout', hcint', Int.toNat_natCast, take_length]
      refine hskip.trans ?_
      rw [hn', hsize]
      unfold toInt at hq ⊢
      simp only [length_cons, length_nil]
      omega

/-- The host "a.b". -/
theorem qname_agrees_pair : netDnsEncodeQname [97, DOT, 98] 16 = (5, [1, 97, 1, 98, 0])
    ∧ Agrees [97, DOT, 98] 5 [1, 97, 1, 98, 0] :=
  ⟨by decide, (qname_agrees_iff [97, DOT, 98] 16 5 _ (by decide) (by decide)).mpr (by decide)⟩

/-- With a dot at its end the host has an empty label, and the name ends one byte before what was
written. -/
theorem qname_trailing_dot :
    netDnsEncodeQname [97, DOT] 16 = (4, [1, 97, 0, 0]) ∧ skipName [1, 97, 0, 0] 0 = 3 ∧
    (buildQuery [97, DOT] 7 64).1 = 20 ∧ skipName (buildQuery [97, DOT] 7 64).2 12 = 15 := by
  decide

end AxonOS.Net.Dns

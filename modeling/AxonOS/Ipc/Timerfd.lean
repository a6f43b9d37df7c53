import AxonOS.Lib.Run

/-! # Timers

`timerfd_update_at` counts the expirations of a timer up to a time and moves its deadline behind
that time. `poll`, `timerfd_gettime` and `read` call it with the current time, and `read` takes the
count. The main result: what is counted does not depend on when it is asked for.
-/

namespace AxonOS.Ipc

open Lib

def UINT64_MAX : Nat := 2 ^ 64 - 1

/-! ## The calls -/

/-- A time that `timerfd_spec_valid` accepts. -/
structure Timespec where
  sec : Nat
  nsec : Nat
  valid : nsec < 1000000000

def timerfdTimespecNs (ts : Timespec) : Nat :=
  if ts.sec > (UINT64_MAX - ts.nsec) / 1000000000 then UINT64_MAX
  else (ts.sec * 1000000000 + ts.nsec) % 2 ^ 64

/-- `timerfd_state_k`, without its lock and its clock. -/
structure TimerfdState where
  intervalNs : Nat
  deadlineNs : Nat
  expirations : Nat
  armed : Bool
  deriving DecidableEq

/-- A sum that is cut off where it would wrap. -/
def addCut (a b : Nat) : Nat := if b > UINT64_MAX - a then UINT64_MAX else (a + b) % 2 ^ 64

def timerfdUpdateAt (t : TimerfdState) (now : Nat) : TimerfdState :=
  if !t.armed || now < t.deadlineNs then t
  else if t.intervalNs ≠ 0 then
    let count := (1 + (now - t.deadlineNs) / t.intervalNs) % 2 ^ 64
    let deadline := if count > (UINT64_MAX - t.deadlineNs) / t.intervalNs then UINT64_MAX
      else (t.deadlineNs + count * t.intervalNs) % 2 ^ 64
    { t with deadlineNs := deadline, expirations := addCut t.expirations count }
  else { t with armed := false, expirations := addCut t.expirations 1 }

/-- What `timerfd_settime` assigns. -/
def timerfdSettime (t : TimerfdState) (abstime : Bool) (interval value : Timespec) (now : Nat) :
    TimerfdState :=
  let v := timerfdTimespecNs value
  let deadline := if abstime then v else addCut now v
  let armed := value.sec ≠ 0 || value.nsec ≠ 0
  ⟨timerfdTimespecNs interval, if armed then deadline else t.deadlineNs, 0, armed⟩

/-- A timer, with what has been read from it and the time of the last call. -/
structure Timer where
  t : TimerfdState
  got : Nat
  last : Nat

/-- A call at the time `x.2`; a `read` if `x.1`. -/
def Timer.sample (s : Timer) (x : Bool × Fin (2 ^ 64)) : Timer :=
  let t := timerfdUpdateAt s.t x.2
  if x.1 then ⟨{ t with expirations := 0 }, s.got + t.expirations, x.2⟩ else ⟨t, s.got, x.2⟩

/-! ## Arithmetic without a bound -/

/-- The expirations up to `now` of a timer with the first deadline `d` and the interval `i`. -/
def expired (d i now : Nat) : Nat := if now < d then 0 else if i = 0 then 1 else 1 + (now - d) / i

def TimerfdState.due (t : TimerfdState) (now : Nat) : Nat :=
  if t.armed then expired t.deadlineNs t.intervalNs now else 0

/-- An update, cut off at the end. -/
def TimerfdState.later (t : TimerfdState) (now : Nat) : TimerfdState :=
  ⟨t.intervalNs, min UINT64_MAX (t.deadlineNs + t.due now * t.intervalNs),
    min UINT64_MAX (t.expirations + t.due now), t.armed && (t.due now == 0 || t.intervalNs != 0)⟩

/-- The fields are words, and no timer is armed for the time 0. -/
structure TimerfdState.Words (t : TimerfdState) : Prop where
  deadline : t.deadlineNs ≤ UINT64_MAX
  expirations : t.expirations ≤ UINT64_MAX
  early : t.armed = true → t.deadlineNs ≠ 0

variable {t : TimerfdState} {now : Nat}

theorem addCut_eq {a : Nat} (ha : a ≤ UINT64_MAX) (b : Nat) :
    addCut a b = min UINT64_MAX (a + b) := by
  unfold addCut
  split
  · omega
  · rw [Nat.mod_eq_of_lt (by unfold UINT64_MAX at *; omega)]
    omega

theorem updateAt_eq (ht : t.Words) (hnow : now ≤ UINT64_MAX) :
    timerfdUpdateAt t now = t.later now := by
  obtain ⟨i, d, e, armed⟩ := t
  obtain ⟨hd, he, hpos⟩ := ht
  dsimp only at hd he hpos
  unfold timerfdUpdateAt TimerfdState.later TimerfdState.due
  cases armed with
  | false => simp [hd, he]
  | true =>
    by_cases hlt : now < d
    · simp [hlt, hd, he, expired]
    by_cases h0 : i = 0
    · simp [hlt, hd, h0, addCut_eq he, expired]
    have hcount : (1 + (now - d) / i) % 2 ^ 64 = expired d i now := by
      have := hpos rfl
      have := Nat.div_le_self (now - d) i
      rw [expired, if_neg hlt, if_neg h0, Nat.mod_eq_of_lt (by unfold UINT64_MAX at *; omega)]
    have hfar : (UINT64_MAX - d) / i < expired d i now ↔ UINT64_MAX < d + expired d i now * i := by
      rw [Nat.div_lt_iff_lt_mul (Nat.pos_of_ne_zero h0)]
      omega
    have hnext :
        (if expired d i now > (UINT64_MAX - d) / i then UINT64_MAX
        else (d + expired d i now * i) % 2 ^ 64)
        = min UINT64_MAX (d + expired d i now * i) := by
      by_cases hf : UINT64_MAX < d + expired d i now * i
      · rw [if_pos (hfar.mpr hf), min_eq_left hf.le]
      · rw [if_neg (mt hfar.mp hf), min_eq_right (not_lt.mp hf),
          Nat.mod_eq_of_lt (by unfold UINT64_MAX at hf; omega)]
    simp only [hcount, hnext, addCut_eq he]
    simp [hlt, h0]

theorem later_words (ht : t.Words) (now : Nat) : (t.later now).Words := by
  refine ⟨min_le_left _ _, min_le_left _ _, fun harmed => ?_⟩
  have := ht.early (Bool.and_eq_true_iff.mp harmed).1
  simp only [TimerfdState.later, UINT64_MAX]
  omega

theorem timespecNs_eq (ts : Timespec) :
    timerfdTimespecNs ts = min UINT64_MAX (ts.sec * 1000000000 + ts.nsec) := by
  have := ts.valid
  unfold timerfdTimespecNs UINT64_MAX
  split <;> omega

theorem settime_words (t : TimerfdState) (abstime : Bool) (interval value : Timespec)
    (hnow : now ≤ UINT64_MAX)
    (harmed : (timerfdSettime t abstime interval value now).armed = true) :
    (timerfdSettime t abstime interval value now).Words := by
  have : value.sec ≠ 0 ∨ value.nsec ≠ 0 := by simpa [timerfdSettime] using harmed
  simp only [timerfdSettime, timespecNs_eq, addCut_eq hnow] at *
  refine ⟨?_, Nat.zero_le _, fun _ => ?_⟩
  all_goals
    simp only [harmed, UINT64_MAX, if_true]
    split <;> omega

/-! ## What is counted -/

/-- The state at the time `s.last` of a timer with the first deadline `d` and the interval `i`. -/
structure Timer.Counted (d i : Nat) (s : Timer) : Prop where
  words : s.t.Words
  interval : s.t.intervalNs = i
  on : s.t.armed = true → s.last < s.t.deadlineNs ∧
    s.t.deadlineNs = d + (s.got + s.t.expirations) * i
    ∧ (s.got + s.t.expirations ≠ 0 → s.t.deadlineNs ≤ s.last + i)
  off : s.t.armed = false → s.got + s.t.expirations = 1 ∧ i = 0 ∧ d ≤ s.last

/-- The call comes after the others, and nothing is cut off. -/
def Timer.Fits (s : Timer) (x : Bool × Fin (2 ^ 64)) : Prop :=
  s.last ≤ x.2 ∧ s.t.deadlineNs + s.t.due x.2 * s.t.intervalNs ≤ UINT64_MAX ∧
    s.t.expirations + s.t.due x.2 ≤ UINT64_MAX

section Counted

variable {s : Timer} {d i : Nat} {x : Bool × Fin (2 ^ 64)}

theorem Timer.Counted.eq (h : s.Counted d i) : s.got + s.t.expirations = expired d i s.last := by
  obtain ⟨-, -, hon, hoff⟩ := h
  generalize s.got + s.t.expirations = k at hon hoff ⊢
  cases harmed : s.t.armed with
  | false =>
    obtain ⟨rfl, hi, hd⟩ := hoff harmed
    simp [expired, hi, hd]
  | true =>
    obtain ⟨hlt, hk, hle⟩ := hon harmed
    cases k with
    | zero => simp [expired, show s.last < d by omega]
    | succ k =>
      have hle := hle k.succ_ne_zero
      rw [hk, Nat.succ_mul] at hlt hle
      have hquot : (s.last - d) / i = k :=
        Nat.div_eq_of_lt_le (by omega) (by rw [Nat.succ_mul]; omega)
      have hi : i ≠ 0 := by
        rintro rfl
        simp at hlt hle
        omega
      rw [expired, if_neg (by omega), if_neg hi, hquot, Nat.add_comm]

theorem sample_words (hw : s.t.Words) (x : Bool × Fin (2 ^ 64)) : (s.sample x).t.Words := by
  obtain ⟨hd, he, hpos⟩ := later_words hw x.2
  rw [Timer.sample, updateAt_eq hw (Nat.le_of_lt_succ x.2.isLt)]
  split
  · exact ⟨hd, Nat.zero_le _, hpos⟩
  · exact ⟨hd, he, hpos⟩

theorem sample_fits (hw : s.t.Words) (hx : s.Fits x) :
    (s.sample x).last = x.2 ∧ (s.sample x).t.intervalNs = s.t.intervalNs ∧
      (s.sample x).t.deadlineNs = s.t.deadlineNs + s.t.due x.2 * s.t.intervalNs ∧
      (s.sample x).got + (s.sample x).t.expirations = s.got + s.t.expirations + s.t.due x.2 ∧
      (s.sample x).t.armed = (s.t.armed && (s.t.due x.2 == 0 || s.t.intervalNs != 0)) := by
  obtain ⟨-, hd, he⟩ := hx
  rw [Timer.sample, updateAt_eq hw (Nat.le_of_lt_succ x.2.isLt)]
  split
  all_goals
    refine ⟨rfl, rfl, min_eq_right hd, ?_, rfl⟩
    simp only [TimerfdState.later, min_eq_right he]
    omega

theorem Timer.Counted.sample (h : s.Counted d i) (hx : s.Fits x) : (s.sample x).Counted d i := by
  have hw := sample_words h.words x
  obtain ⟨hlast, hi, hd, hcount, harmed⟩ := sample_fits h.words hx
  have hle := hx.1
  rw [h.interval] at hi hd harmed
  have hdue : s.t.due x.2 = if s.t.armed then expired s.t.deadlineNs i x.2 else 0 := by
    rw [TimerfdState.due, h.interval]
  rw [← hlast] at *
  generalize s.sample x = s' at *
  cases hs : s.t.armed with
  | false =>
    rw [hs, if_neg Bool.false_ne_true] at hdue
    obtain ⟨hone, hzero, hfirst⟩ := h.off hs
    exact ⟨hw, hi, by simp [harmed, hs], by omega⟩
  | true =>
    rw [hs, if_pos rfl] at hdue
    obtain ⟨hlt, hdead, hnext⟩ := h.on hs
    have hdead' : s'.t.deadlineNs = d + (s'.got + s'.t.expirations) * i := by
      rw [hd, hcount, hdead, Nat.add_assoc, ← Nat.add_mul]
    by_cases hlt' : s'.last < s.t.deadlineNs
    · -- nothing is due
      rw [expired, if_pos hlt'] at hdue
      rw [hdue] at hd hcount
      exact ⟨hw, hi, fun _ => ⟨by omega, hdead', by omega⟩, by simp [harmed, hs, hdue]⟩
    by_cases h0 : i = 0
    · -- the only expiration
      rw [expired, if_neg hlt', if_pos h0] at hdue
      refine ⟨hw, hi, by simp [harmed, hs, hdue, h0], fun _ => ⟨?_, h0, ?_⟩⟩
      all_goals
        simp only [h0, Nat.mul_zero] at hdead hnext
        omega
    · rw [expired, if_neg hlt', if_neg h0] at hdue
      have hquot := Nat.div_add_mod (s'.last - s.t.deadlineNs) i
      have hrest := Nat.mod_lt (s'.last - s.t.deadlineNs) (Nat.pos_of_ne_zero h0)
      rw [hdue, Nat.add_mul, Nat.one_mul, Nat.mul_comm _ i] at hd
      exact ⟨hw, hi, fun _ => ⟨by omega, hdead', by omega⟩, by simp [harmed, hs, h0]⟩

end Counted

/-- **What is read and what is left are the expirations up to the last call**, however often a timer
is asked, if the calls come in order and nothing is cut off. And no step of a run wraps: it does
what it would do without a bound. -/
theorem timerfd_expirations (t0 t : TimerfdState) (s : Timer) (abstime : Bool)
    (interval value : Timespec) (now : Fin (2 ^ 64)) (samples : List (Bool × Fin (2 ^ 64)))
    (hset : timerfdSettime t0 abstime interval value now = t) (harmed : t.armed = true)
    (hrun : samples.foldl Timer.sample ⟨t, 0, 0⟩ = s) :
    (RunMeets Timer.sample Timer.Fits ⟨t, 0, 0⟩ samples →
      s.got + s.t.expirations = expired t.deadlineNs t.intervalNs s.last ∧
        (s.t.armed = true → s.last < s.t.deadlineNs ∧
        s.t.deadlineNs ≡ t.deadlineNs [MOD t.intervalNs])) ∧
      ∀ now' : Fin (2 ^ 64), timerfdUpdateAt s.t now' = s.t.later now' := by
  have hw : t.Words := hset ▸ settime_words t0 abstime interval value
    (Nat.le_of_lt_succ now.isLt) (hset ▸ harmed)
  have hzero : t.expirations = 0 := by rw [← hset]; rfl
  subst hrun
  refine ⟨fun hfits => ?_, fun now' => updateAt_eq ?_ (Nat.le_of_lt_succ now'.isLt)⟩
  · have hstart : Timer.Counted t.deadlineNs t.intervalNs ⟨t, 0, 0⟩ :=
      ⟨hw, rfl,
        fun _ =>
        ⟨Nat.pos_of_ne_zero (hw.early harmed), by simp [hzero], by simp [hzero]⟩, by simp [harmed]⟩
    have h := run_invariant (fun s x hs hx => hs.sample hx) hstart hfits
    refine ⟨h.eq, fun hon => ⟨(h.on hon).1, ?_⟩⟩
    rw [(h.on hon).2.1, Nat.ModEq, Nat.add_mul_mod_self_right]
  · exact run_invariant (I := fun s : Timer => s.t.Words) (C := fun _ _ => True)
      (fun s x hs _ => sample_words hs x) hw fun _ _ _ _ => trivial

/-- A timer is set for 2 s with an interval of 3 s, read at 9 s, and polled at 12 s. -/
theorem timerfd_expirations_read :
    ([(true, 9000000000), (false, 12000000000)].foldl Timer.sample
      ⟨⟨3000000000, 2000000000, 0, true⟩, 0, 0⟩).got
      + ([(true, 9000000000), (false, 12000000000)].foldl Timer.sample
        ⟨⟨3000000000, 2000000000, 0, true⟩, 0, 0⟩).t.expirations
          = expired 2000000000 3000000000 12000000000 := by
  refine ((timerfd_expirations ⟨0, 0, 0, false⟩ _ _ true ⟨3, 0, by decide⟩ ⟨2, 0, by decide⟩ 0
    [(true, 9000000000), (false, 12000000000)] (by decide) rfl rfl).1 ?_).1
  rw [runMeets_cons, runMeets_cons]
  exact ⟨⟨by decide, by decide, by decide⟩, ⟨by decide, by decide, by decide⟩, runMeets_nil _⟩

end AxonOS.Ipc

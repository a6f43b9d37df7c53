import AxonOS.Arch.Word

/-! # The wall clock

`timekeeping.c`: CLOCK_REALTIME is the monotonic clock, in microseconds, plus an offset, which
`adjtime` slews by at most one microsecond in 2000. The calls of a run read the monotonic clock one
after the other; each comes with the time since the one before it.
-/

namespace AxonOS.Cpu

/-- The `tk_` variables. -/
structure Tk where
  offsReal : Int
  slewRemaining : Int
  slewLast : Nat

/-- `timekeeping_set_real_us`, and `timekeeping_init` with the time of the RTC. -/
def setReal (real : Int) (mono : Nat) : Tk := ⟨int64 (real - mono), 0, mono⟩

/-- `timekeeping_apply_slew_locked`. -/
def Tk.applySlew (k : Tk) (mono : Nat) : Tk :=
  if mono ≤ k.slewLast ∨ k.slewRemaining = 0 then { k with slewLast := mono }
  else
    let budget := (mono - k.slewLast) / 2000
    if budget = 0 then k
    else
      let last := k.slewLast + budget * 2000
      let budget : Int := if 0x7FFFFFFFFFFFFFFF < budget then 0x7FFFFFFFFFFFFFFF else budget
      let step := if k.slewRemaining < 0 then -budget else budget
      if (0 < k.slewRemaining ∧ k.slewRemaining ≤ step) ∨
          (k.slewRemaining < 0 ∧ step ≤ k.slewRemaining) then
        ⟨int64 (k.offsReal + k.slewRemaining), 0, last⟩
      else ⟨int64 (k.offsReal + step), int64 (k.slewRemaining - step), last⟩

def Tk.adjtime (k : Tk) (mono : Nat) (offset : Int) : Tk :=
  { k.applySlew mono with slewRemaining := offset, slewLast := mono }

/-- The seconds and the nanoseconds that a read returns. -/
def Tk.realTs64 (k : Tk) (mono : Nat) : Int × Int :=
  let real := int64 (mono + k.offsReal)
  let real := if real < 0 then 0 else real
  (real / 1000000, real % 1000000 * 1000)

/-- `ktime_get_real_ts64`. -/
def Tk.getReal (k : Tk) (mono : Nat) : Tk × Int × Int :=
  (k.applySlew mono, (k.applySlew mono).realTs64 mono)

/-- An `adjtime` by some offset, or a read of the clock. -/
abbrev ClockOp := Nat × Option Int

def clockStep (s : Tk × Nat) (op : ClockOp) : Tk × Nat :=
  (match op.2 with
    | some offset => s.1.adjtime (s.2 + op.1) offset
    | none => (s.1.getReal (s.2 + op.1)).1, s.2 + op.1)

def clockRun (real : Int) (mono : Nat) (ops : List ClockOp) : Tk × Nat :=
  ops.foldl clockStep (setReal real mono, mono)

/-! ## One slew -/

/-- `x`, but at most `b` either way. -/
def clamp (b x : Int) : Int := max (-b) (min b x)

/-- The offset moves by what is left of the adjustment, but at most by the budget. -/
theorem applySlew_eq (k : Tk) {m b : Nat} (hm : k.slewLast ≤ m) (hb : (m - k.slewLast) / 2000 = b)
    (hoffs : k.offsReal.natAbs < 2 ^ 62) (hlate : m < 2 ^ 61)
    (hrem : int64 k.slewRemaining = k.slewRemaining) :
    k.applySlew m = ⟨k.offsReal + clamp b k.slewRemaining,
      k.slewRemaining - clamp b k.slewRemaining,
      if k.slewRemaining = 0 then m else k.slewLast + b * 2000⟩ := by
  obtain ⟨offs, rem, last⟩ := k
  dsimp only at hm hb hoffs hrem
  simp only [Tk.applySlew, clamp, int64, hb] at hrem ⊢
  split_ifs <;> rw [Tk.mk.injEq] <;> omega

/-- From `s` to `s'` the offset has moved by one microsecond at most in 2000 of the time slewed. -/
structure Slewed (s s' : Tk × Nat) : Prop where
  time : s.2 ≤ s'.2
  late : s'.1.slewLast ≤ s'.2
  near : s'.2 < s'.1.slewLast + 2000
  slow : s.1.slewLast + 2000 * (s'.1.offsReal - s.1.offsReal).natAbs ≤ s'.1.slewLast
  fits : int64 s'.1.slewRemaining = s'.1.slewRemaining

theorem applySlew_slewed (k : Tk) {m : Nat} (h : k.slewLast ≤ m)
    (hoffs : k.offsReal.natAbs < 2 ^ 62) (hlate : m < 2 ^ 61)
    (hrem : int64 k.slewRemaining = k.slewRemaining) :
    Slewed (k, m) (k.applySlew m, m) := by
  rw [applySlew_eq k h rfl hoffs hlate hrem]
  refine ⟨le_rfl, ?_, ?_, ?_, ?_⟩ <;> simp only [clamp, int64] at hrem ⊢ <;> grind

/-- The offset that an `adjtime` is called with is an `int64_t`. -/
def ClockOp.Fits (op : ClockOp) : Prop := ∀ offset, op.2 = some offset → int64 offset = offset

theorem Slewed.step {a s : Tk × Nat} (h : Slewed a s) (ha : a.1.offsReal.natAbs < 3 * 2 ^ 60)
    {op : ClockOp} (hop : op.Fits) (hlate : (clockStep s op).2 < 2 ^ 61) :
    Slewed a (clockStep s op) := by
  obtain ⟨htime, hlast, -, hslow, hfits⟩ := h
  obtain ⟨d, offset⟩ := op
  have hend : s.2 + d < 2 ^ 61 := hlate
  obtain ⟨-, hlast', hnear', hslow', hfits'⟩ :=
    applySlew_slewed s.1 (m := s.2 + d) (by omega) (by omega) hend hfits
  cases offset with
  | none =>
    refine ⟨htime.trans (Nat.le_add_right _ d), hlast', hnear', ?_, hfits'⟩
    simp only [clockStep, Tk.getReal] at *
    omega
  | some offset =>
    refine ⟨htime.trans (Nat.le_add_right _ d),
      le_rfl, by simp [clockStep, Tk.adjtime], ?_, hop offset rfl⟩
    simp only [clockStep, Tk.adjtime] at *
    omega

theorem clockStep_time (s : Tk × Nat) (ops : List ClockOp) : s.2 ≤ (ops.foldl clockStep s).2 :=
  List.foldlRecOn (motive := fun s' : Tk × Nat => s.2 ≤ s'.2) ops _ le_rfl fun _ h op _ =>
    h.trans (Nat.le_add_right _ op.1)

theorem Slewed.run {a s : Tk × Nat} (h : Slewed a s) (ha : a.1.offsReal.natAbs < 3 * 2 ^ 60)
    {ops : List ClockOp} (hops : ∀ op ∈ ops, op.Fits) (hlate : (ops.foldl clockStep s).2 < 2 ^ 61) :
    Slewed a (ops.foldl clockStep s) := by
  induction ops generalizing s with
  | nil => exact h
  | cons op ops ih =>
    have hstep := h.step ha (hops op List.mem_cons_self) ((clockStep_time _ ops).trans_lt hlate)
    exact ih hstep (fun op' hop => hops op' (List.mem_cons_of_mem _ hop)) hlate

/-! ## Runs -/

/-- The clock shows in `b` no less than in `a`, and has gained or lost one microsecond at most in
2000. -/
def Steady (a b : Tk × Nat) : Prop :=
  toLex (a.1.realTs64 a.2) ≤ toLex (b.1.realTs64 b.2) ∧
    2000 * (b.1.offsReal - a.1.offsReal).natAbs < b.2 - a.2 + 2000

/-- **CLOCK_REALTIME never goes back**, whatever is adjusted and whenever it is read, while both
clocks are below `2 ^ 60` microseconds (about 36500 years). -/
theorem realtime_steady (real : Int) (mono : Nat) (pre post : List ClockOp)
    (hreal : real.natAbs < 2 ^ 60) (hops : ∀ op ∈ pre ++ post, op.Fits)
    (hlate : (clockRun real mono (pre ++ post)).2 < 2 ^ 60) :
    Steady (clockRun real mono pre) (clockRun real mono (pre ++ post)) := by
  have hmono : mono < 2 ^ 60 := (clockStep_time _ (pre ++ post)).trans_lt hlate
  have hset : (setReal real mono).offsReal = real - mono := by
    simp only [setReal, int64]
    omega
  have hrun : clockRun real mono (pre ++ post) = post.foldl clockStep (clockRun real mono pre) :=
    List.foldl_append
  rw [hrun] at hlate ⊢
  have hpre : (clockRun real mono pre).2 < 2 ^ 60 := (clockStep_time _ post).trans_lt hlate
  have ha : Slewed (setReal real mono, mono) (clockRun real mono pre) :=
    Slewed.run ⟨le_rfl, le_rfl, Nat.lt_add_of_pos_right (by decide), by simp [setReal], rfl⟩
      (by rw [hset]; omega) (fun op hop => hops op (List.mem_append_left _ hop))
      (hpre.trans (by decide))
  have hslow := ha.slow
  have hnear := ha.near
  have hfar := ha.late
  rw [hset] at hslow
  have hb : Slewed (clockRun real mono pre) (post.foldl clockStep (clockRun real mono pre)) :=
    Slewed.run ⟨le_rfl, ha.late, ha.near, by simp, ha.fits⟩ (by omega)
      (fun op hop => hops op (List.mem_append_right _ hop)) (hlate.trans (by decide))
  generalize clockRun real mono pre = s at *
  generalize post.foldl clockStep s = s' at *
  obtain ⟨htime, hlate', -, hslow', -⟩ := hb
  simp only [Steady, Tk.realTs64, Prod.Lex.toLex_le_toLex, int64]
  constructor
  · split_ifs <;> omega
  · omega

/-- An hour, with an adjustment by a second in its middle. -/
theorem realtime_steady_hour :
    Steady (clockRun (10 ^ 15) 0 [(1800000000, some (-1000000))])
      (clockRun (10 ^ 15) 0 [(1800000000, some (-1000000)), (1800000000, none)]) :=
  realtime_steady (10 ^ 15) 0 [(1800000000, some (-1000000))] [(1800000000, none)] (by decide)
    (by simp [ClockOp.Fits, int64]) (by decide)

/-- **An adjustment is made in full**, one microsecond in 2000, however often the clock is read on
the way. -/
theorem adjtime_exact (k : Tk) (m : Nat) (offset : Int) (delays : List Nat)
    (hoffset : int64 offset = offset) (hrem : int64 k.slewRemaining = k.slewRemaining)
    (hoffs : k.offsReal.natAbs < 2 ^ 61) (hlate : m + delays.sum < 2 ^ 61) :
    ((delays.map fun d => (d, none)).foldl clockStep (k.adjtime m offset, m)).1.offsReal
      = (k.applySlew m).offsReal + clamp (delays.sum / 2000 : Nat) offset := by
  have hstart : (k.applySlew m).offsReal.natAbs < 3 * 2 ^ 60 := by
    by_cases hlast : k.slewLast ≤ m
    · obtain ⟨-, hend, -, hslow, -⟩ := applySlew_slewed k hlast (by omega) (by omega) hrem
      dsimp only at hend hslow
      omega
    · rw [Tk.applySlew, if_pos (.inl (Nat.le_of_not_le hlast))]
      exact hoffs.trans (by decide)
  suffices hrun : ∃ last c, (delays.map fun d => (d, none)).foldl clockStep (k.adjtime m offset, m)
      = (⟨(k.applySlew m).offsReal + c, offset - c, last⟩, m + delays.sum) ∧
      c = clamp (delays.sum / 2000 : Nat) offset ∧ last ≤ m + delays.sum ∧
      (offset ≠ c → last = m + delays.sum / 2000 * 2000) by
    obtain ⟨last, c, hrun, rfl, -⟩ := hrun
    rw [hrun]
  induction delays using List.reverseRecOn with
  | nil => exact ⟨m, 0, by simp [Tk.adjtime], by simp [clamp]⟩
  | append_singleton delays d ih =>
    rw [List.sum_append, List.sum_singleton] at hlate
    obtain ⟨last, c, hrun, hc, hlast, hslewing⟩ := ih (by omega)
    simp only [List.map_append, List.foldl_append, hrun, List.map_singleton, List.foldl_cons,
      List.foldl_nil, clockStep, Tk.getReal, List.sum_append, List.sum_singleton]
    have hbound : c.natAbs ≤ delays.sum / 2000 ∧ int64 (offset - c) = offset - c := by
      simp only [clamp, int64] at hc hoffset ⊢
      omega
    have hnear : ((k.applySlew m).offsReal + c).natAbs < 2 ^ 62 :=
      (Int.natAbs_add_le _ _).trans_lt (by omega)
    rw [applySlew_eq _ (Nat.le_add_right_of_le hlast) rfl hnear (by omega) hbound.2]
    refine ⟨_, _, by rw [add_assoc, sub_sub, add_assoc], ?_⟩
    simp only [clamp] at *
    split_ifs <;> omega

theorem adjtime_exact_half :
    ((clockRun 0 0 [(0, some 3), (1999, none), (2001, none)]).1.offsReal) = 2 :=
  (adjtime_exact (setReal 0 0) 0 3 [1999, 2001] (by decide) (by decide) (by decide)
    (by decide)).trans (by decide)

end AxonOS.Cpu

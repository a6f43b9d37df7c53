import AxonOS.Vma.FindUnmapped

/-! # The searches find what there is

Both searches jump past a record that overlaps the place they look at. Every place they skip
overlaps the same record, so they miss none; and the record overlaps no place they look at later, so
that they look at no more places than there are records, and one. The upward search returns the
lowest place and the downward search the highest one.
-/

namespace AxonOS.Vma

open Lib List Nat

/-! ## Rounding -/

theorem and_mask (x : Nat) {k : Nat} (hk : k ≤ 64) :
    x &&& (2 ^ 64 - 2 ^ k) = x % 2 ^ 64 / 2 ^ k * 2 ^ k := by
  have hmask : 2 ^ 64 - 2 ^ k = (2 ^ (64 - k) - 1) <<< k := by
    rw [Nat.shiftLeft_eq, Nat.sub_mul, Nat.one_mul, ← Nat.pow_add, Nat.sub_add_cancel hk]
  rw [hmask, ← shiftRight_eq_div_pow, ← shiftLeft_eq]
  refine eq_of_testBit_eq fun i => ?_
  simp only [testBit_and, testBit_shiftLeft, testBit_shiftRight, testBit_two_pow_sub_one,
    testBit_mod_two_pow]
  by_cases hi : k ≤ i
  · have h64 : i - k < 64 - k ↔ i < 64 := by omega
    simp [hi, h64, Bool.and_comm]
  · simp [hi]

/-- Rounding up gives the lowest multiple from `v` on. -/
theorem alignUp_spec {v k : Nat} (hk : k ≤ 64) (hv : v + (2 ^ k - 1) < 2 ^ 64) :
    2 ^ k ∣ userMmAlignUp v (2 ^ k) ∧ v ≤ userMmAlignUp v (2 ^ k)
      ∧ ∀ a, 2 ^ k ∣ a → v ≤ a → userMmAlignUp v (2 ^ k) ≤ a := by
  unfold userMmAlignUp
  rw [and_mask _ hk, mod_mod, mod_eq_of_lt hv]
  have hpos := Nat.two_pow_pos k
  refine ⟨dvd_mul_left _ _, ?_, ?_⟩
  · have hdiv := div_add_mod (v + (2 ^ k - 1)) (2 ^ k)
    rw [mul_comm] at hdiv
    omega
  · rintro a ⟨m, rfl⟩ hle
    rw [mul_comm (2 ^ k) m] at hle ⊢
    refine Nat.mul_le_mul_right _ (Nat.lt_succ_iff.mp ((Nat.div_lt_iff_lt_mul hpos).mpr ?_))
    rw [Nat.succ_mul]
    omega

/-- Rounding down gives the highest multiple up to `v`. -/
theorem alignDown_spec {v k : Nat} (hk : k ≤ 64) (hv : v < 2 ^ 64) :
    userMmAlignDown v (2 ^ k) ≤ v ∧ ∀ a, 2 ^ k ∣ a → a ≤ v → a ≤ userMmAlignDown v (2 ^ k) := by
  unfold userMmAlignDown
  rw [and_mask _ hk, mod_eq_of_lt hv]
  refine ⟨div_mul_le_self _ _, ?_⟩
  rintro a ⟨m, rfl⟩ hle
  rw [mul_comm (2 ^ k) m] at hle ⊢
  exact Nat.mul_le_mul_right _ ((Nat.le_div_iff_mul_le (Nat.two_pow_pos k)).mpr hle)

theorem dvd_and_mask (x : Nat) {k : Nat} (hk : k ≤ 64) : 2 ^ k ∣ x &&& (2 ^ 64 - 2 ^ k) := by
  rw [and_mask x hk]
  exact dvd_mul_left _ _

open Classical in
/-- The alignment asked for if it is a power of two from 4096 up, and 4096 otherwise. -/
noncomputable def effectiveAlign (align : Nat) : Nat :=
  if 4096 ≤ align ∧ align.isPowerOfTwo then align else 4096

theorem searchAlign_eq (align : Nat) : searchAlign align = effectiveAlign align := by
  unfold searchAlign effectiveAlign
  by_cases hlow : align < 4096
  · rw [if_pos hlow, if_neg (c := 4096 ≤ align ∧ _) fun h => absurd h.1 (not_le.mpr hlow)]
    decide
  · have hpow := and_sub_one_eq_zero_iff_isPowerOfTwo (n := align) (by omega)
    rw [if_neg hlow]
    by_cases h : align.isPowerOfTwo
    · rw [if_neg (by rw [hpow.mpr h]; simp), if_pos ⟨not_lt.mp hlow, h⟩]
    · rw [if_pos (mt hpow.mp h), if_neg fun hb => h hb.2]

theorem effectiveAlign_pow {align : Nat} (h : align < 2 ^ 64) :
    ∃ k, k ≤ 63 ∧ effectiveAlign align = 2 ^ k := by
  unfold effectiveAlign
  split
  next hb =>
    obtain ⟨k, hk⟩ := hb.2
    refine ⟨k, ?_, hk⟩
    rw [hk] at h
    exact Nat.le_of_lt_succ ((Nat.pow_lt_pow_iff_right (by decide)).mp h)
  next => exact ⟨12, by decide, rfl⟩

/-! ## Places -/

/-- The record belongs to the address space of the runner. -/
def UserVma.Mine (w : VmaState) (runner : Thread) (v : UserVma) : Prop :=
  v.used = true ∧ userVmaTidMatchesRunnerMmNolock w (some runner) v.tid = true

/-- The record and `[a, a + len)` overlap. -/
def UserVma.Meets (v : UserVma) (a len : Nat) : Prop := v.addr < a + len ∧ a < v.addr + v.len

/-- The records of the runner do not wrap, and the user part of the address space starts at 2
MiB. -/
def Regular (w : VmaState) (runner : Thread) : Prop :=
  ∀ v ∈ w.global, v.Mine w runner → v.addr + v.len < 2 ^ 64 ∧ 0x200000 ≤ v.addr

/-- An aligned place for `len` bytes between `floor` and `ceil` that meets no record of the
runner. -/
structure Gap (w : VmaState) (runner : Thread) (floor ceil len align a : Nat) : Prop where
  aligned : align ∣ a
  floor_le : floor ≤ a
  le_ceil : a + len ≤ ceil
  free : ∀ v ∈ w.global, v.Mine w runner → ¬ v.Meets a len

/-- What a search returns: a place that is before all others in its order, or `0` if there is
none. -/
def Best (P : Nat → Prop) (R : Nat → Nat → Prop) (r : Nat) : Prop :=
  (r ≠ 0 → P r) ∧ ∀ a, P a → r ≠ 0 ∧ R r a

theorem Best.of_none {P : Nat → Prop} {R : Nat → Nat → Prop} (h : ∀ a, ¬ P a) : Best P R 0 :=
  ⟨fun h0 => absurd rfl h0, fun a ha => absurd ha (h a)⟩

theorem Best.unique {P : Nat → Prop} {R : Nat → Nat → Prop} {r r' : Nat} (h : Best P R r)
    (hanti : R r r' → R r' r → r = r') (h' : Best P R r') : r = r' := by
  by_cases hr : r = 0
  · by_contra hne
    have hr' : r' ≠ 0 := fun h0 => hne (hr.trans h0.symm)
    exact (h.2 r' (h'.1 hr')).1 hr
  · obtain ⟨hr', h1⟩ := h'.2 r (h.1 hr)
    exact hanti (h.2 r' (h'.1 hr')).2 h1

section Search

variable {w : VmaState} {runner : Thread} {floor ceil len k a : Nat}

theorem Regular.blocks_iff (hreg : Regular w runner) {v : UserVma} (hv : v ∈ w.global) {fin : Nat} :
    v.blocks w runner a fin = true ↔ v.Mine w runner ∧ v.addr < fin ∧ a < v.addr + v.len := by
  rw [UserVma.blocks_iff, ← and_assoc]
  refine and_congr_right fun hm => ?_
  have hend : v.vend = v.addr + v.len := mod_eq_of_lt (hreg v hv hm).1
  rw [hend]
  exact ⟨fun h => h.2, fun h => ⟨le_add_right _ _, h⟩⟩

/-- Nothing blocks a place if and only if it meets no record. -/
theorem Regular.free_iff (hreg : Regular w runner) (hlt : a + len < 2 ^ 64) :
    (∀ v ∈ w.global, v.blocks w runner a ((a + len) % 2 ^ 64) = false)
      ↔ ∀ v ∈ w.global, v.Mine w runner → ¬ v.Meets a len := by
  rw [mod_eq_of_lt hlt]
  refine forall₂_congr fun v hv => ?_
  rw [← Bool.not_eq_true, hreg.blocks_iff hv, not_and]
  rfl

/-- A search has fewer records before it once it has passed one. -/
theorem countP_lt {p q : UserVma → Bool} {l : List UserVma} {v : UserVma} (hv : v ∈ l)
    (hle : ∀ u ∈ l, q u = true → p u = true) (hp : p v = true) (hq : q v = false) :
    l.countP q < l.countP p := by
  obtain ⟨s, t, rfl⟩ := append_of_mem hv
  have hs := countP_mono_left (p := q) (q := p) (l := s) fun u hu => hle u (by simp [hu])
  have ht := countP_mono_left (p := q) (q := p) (l := t) fun u hu => hle u (by simp [hu])
  rw [countP_append, countP_append, countP_cons_of_neg (by rw [hq]; decide), countP_cons_of_pos hp]
  omega

variable (hreg : Regular w runner) (hk : k ≤ 63) (hceil : ceil < 2 ^ 63)

include hreg hk hceil

/-! ## Upwards -/

theorem findUnmappedLoop_gap {n cand r : Nat} (hlen : len < 2 ^ 63) (hcand : 2 ^ k ∣ cand)
    (hfloor : floor ≤ cand) (hr : findUnmappedLoop w runner ceil len (2 ^ k) n cand = r)
    (h0 : r ≠ 0) :
    Gap w runner floor ceil len (2 ^ k) r := by
  have hpow : 2 ^ k ≤ 2 ^ 63 := Nat.pow_le_pow_right (by decide) hk
  obtain ⟨⟨hdvd, hle⟩, hroom, hend⟩ := findUnmappedLoop_found (P := fun c => 2 ^ k ∣ c ∧ floor ≤ c)
    (fun cand block hc ⟨h1, h2⟩ => by
      split
      · rw [mod_eq_of_lt (by omega)]
        exact ⟨h1.add (dvd_refl _), by omega⟩
      · exact ⟨dvd_and_mask _ (by omega), by omega⟩) ⟨hcand, hfloor⟩ hr h0
  obtain ⟨hwrap, hnone⟩ := overlapEnd_zero hend
  have hlt : r + len < 2 ^ 64 := by omega
  rw [mod_eq_of_lt hlt] at hroom
  exact ⟨hdvd, hle, hroom, (hreg.free_iff hlt).mp hnone⟩

/-- **The upward search goes no further than any gap.** -/
theorem findUnmappedLoop_le (hlen : 0 < len) (ha : Gap w runner floor ceil len (2 ^ k) a) :
    ∀ {n cand : Nat}, 0 < cand → cand ≤ a → w.global.countP (fun v => cand < v.vend) < n →
      findUnmappedLoop w runner ceil len (2 ^ k) n cand ≠ 0
        ∧ findUnmappedLoop w runner ceil len (2 ^ k) n cand ≤ a := by
  have hpow : 2 ^ k ≤ 2 ^ 63 := Nat.pow_le_pow_right (by decide) hk
  have hac := ha.le_ceil
  intro n
  induction n with
  | zero => intro cand _ _ hn; omega
  | succ n ih =>
    intro cand h0 hle hn
    unfold findUnmappedLoop
    rw [if_neg (by omega)]
    dsimp only
    rcases overlapEnd_cases w runner (show cand ≤ (cand + len) % 2 ^ 64 by omega) with
      ⟨hz, -⟩ | ⟨v, hv, hb, he⟩
    · rw [if_pos hz]
      exact ⟨by omega, hle⟩
    -- the gap lies behind the record, and so does the next place
    obtain ⟨hm, h1, h2⟩ := (hreg.blocks_iff hv).mp hb
    have hend : v.vend = v.addr + v.len := mod_eq_of_lt (hreg v hv hm).1
    have hbehind : v.addr + v.len ≤ a := by
      by_contra hlt
      exact ha.free v hv hm ⟨by omega, by omega⟩
    obtain ⟨-, hup1, hup2⟩ := alignUp_spec (v := v.addr + v.len) (k := k) (by omega) (by omega)
    have hnext := hup2 a ha.aligned hbehind
    rw [he, hend, if_neg (by omega), if_neg (by omega), if_neg (by omega)]
    refine ih (by omega) hnext (lt_of_lt_of_le (countP_lt hv ?_ ?_ ?_) (le_of_lt_succ hn))
    · intro u _ hu
      rw [decide_eq_true_eq] at hu ⊢
      omega
    · rw [decide_eq_true_eq]
      omega
    · rw [decide_eq_false_iff_not]
      omega

/-! ## Downwards -/

theorem findTopdownLoop_gap {n cand r : Nat} (hlen : len < 2 ^ 63) (hcand : 2 ^ k ∣ cand)
    (hr : findTopdownLoop w runner floor ceil len (2 ^ k) n cand = r) (h0 : r ≠ 0) :
    Gap w runner floor ceil len (2 ^ k) r := by
  have hall : 2 ^ k ∣ 2 ^ 64 := pow_dvd_pow 2 (by omega)
  obtain ⟨hdvd, hle, hroom, hstart⟩ := findTopdownLoop_found
    (fun v => dvd_and_mask v (by omega))
    (fun cand hc => (dvd_mod_iff hall).mpr (dvd_sub (hc.add hall) (dvd_refl _))) hcand hr h0
  obtain ⟨hwrap, hnone⟩ := overlapStart_zero hstart
  have hlt : r + len < 2 ^ 64 := by omega
  have hfree : ∀ v ∈ w.global, v.blocks w runner r ((r + len) % 2 ^ 64) = false := by
    refine hnone.resolve_right ?_
    rintro ⟨v, hv, hb, hz⟩
    have := (hreg v hv ((hreg.blocks_iff hv).mp hb).1).2
    omega
  rw [mod_eq_of_lt hlt] at hroom
  exact ⟨hdvd, hle, hroom, (hreg.free_iff hlt).mp hfree⟩

/-- **The downward search goes no further than any gap.** -/
theorem le_findTopdownLoop (ha : Gap w runner floor ceil len (2 ^ k) a) :
    ∀ {n cand : Nat}, a ≤ cand → cand + len ≤ ceil → w.global.countP (fun v => v.addr < cand + len)
      < n → a ≤ findTopdownLoop w runner floor ceil len (2 ^ k) n cand := by
  have haf := ha.floor_le
  intro n
  induction n with
  | zero => intro cand _ _ hn; omega
  | succ n ih =>
    intro cand hle hroom hn
    unfold findTopdownLoop
    rw [if_neg (by omega)]
    rcases overlapStart_cases w runner (show cand ≤ (cand + len) % 2 ^ 64 by omega) with
      ⟨hz, -⟩ | ⟨v, hv, hb, he⟩
    · rw [if_pos hz]
      exact hle
    -- the gap ends before the record, and so does the next place
    obtain ⟨hm, h1, h2⟩ := (hreg.blocks_iff hv).mp hb
    have hlow := (hreg v hv hm).2
    have hbefore : a + len ≤ v.addr := by
      by_contra hlt
      exact ha.free v hv hm ⟨by omega, by omega⟩
    have hsub : (v.addr + 2 ^ 64 - len) % 2 ^ 64 = v.addr - len := by omega
    obtain ⟨hdn1, hdn2⟩ := alignDown_spec (v := v.addr - len) (k := k) (by omega) (by omega)
    have hnext := hdn2 a ha.aligned (by omega)
    rw [he, if_neg (by omega), if_neg (by omega), if_neg (by omega), hsub, if_neg (by omega)]
    refine ih hnext (by omega) (lt_of_lt_of_le (countP_lt hv ?_ ?_ ?_) (le_of_lt_succ hn))
    · intro u _ hu
      rw [decide_eq_true_eq] at hu ⊢
      omega
    · rw [decide_eq_true_eq]
      omega
    · rw [decide_eq_false_iff_not]
      omega

/-! ## The searches from their first places -/

variable (hfloor : 0 < floor)

include hfloor

section

variable (hfit : len ≤ ceil - floor) {n : Nat} (hn : w.global.length < n)

include hfit hn

theorem findUnmappedLoop_best (hlt : floor < ceil) (hlen : 0 < len) :
    Best (Gap w runner floor ceil len (2 ^ k))
    (· ≤ ·) (findUnmappedLoop w runner ceil len (2 ^ k) n (userMmAlignUp floor (2 ^ k))) := by
  have hpow : 2 ^ k ≤ 2 ^ 63 := Nat.pow_le_pow_right (by decide) hk
  obtain ⟨hup1, hup2, hup3⟩ := alignUp_spec (v := floor) (k := k) (by omega) (by omega)
  refine ⟨findUnmappedLoop_gap hreg hk hceil (by omega) hup1 hup2 rfl, fun a ha => ?_⟩
  exact findUnmappedLoop_le hreg hk hceil hlen ha (by omega) (hup3 a ha.aligned ha.floor_le)
    (countP_le_length.trans_lt hn)

theorem findTopdownLoop_best : Best (Gap w runner floor ceil len (2 ^ k)) (· ≥ ·)
    (findTopdownLoop w runner floor ceil len (2 ^ k) n (userMmAlignDown (ceil - len) (2 ^ k))) := by
  obtain ⟨hdn1, hdn2⟩ := alignDown_spec (v := ceil - len) (k := k) (by omega) (by omega)
  refine ⟨findTopdownLoop_gap hreg hk hceil (by omega) (dvd_and_mask _ (by omega)) rfl,
    fun a ha => ?_⟩
  have hac := ha.le_ceil
  have hle := le_findTopdownLoop hreg hk hceil ha (hdn2 a ha.aligned (by omega)) (by omega)
    (countP_le_length.trans_lt hn)
  exact ⟨ne_of_gt (hfloor.trans_le (ha.floor_le.trans hle)), hle⟩

end

variable {align : Nat} (hlt : floor < ceil) (hlen : 0 < len) (hal : searchAlign align = 2 ^ k)

include hlt hlen hal

theorem findUnmapped_cases (hint : Nat) :
    (hint ≠ 0 ∧ Gap w runner floor ceil len (2 ^ k) (userMmAlignUp hint (2 ^ k))
        ∧ userVmaFindUnmapped w (some runner) floor ceil len hint align
        = userMmAlignUp hint (2 ^ k))
      ∨ Best (Gap w runner floor ceil len (2 ^ k)) (· ≤ ·)
          (userVmaFindUnmapped w (some runner) floor ceil len hint align) := by
  unfold userVmaFindUnmapped
  dsimp only
  rw [if_neg (by omega), hal]
  split
  next hbig =>
    exact .inr (Best.of_none fun a ha => by have := ha.floor_le; have := ha.le_ceil; omega)
  next hfit =>
  split
  next hh =>
    obtain ⟨h0, h1, h2, h3, h4⟩ := hh
    obtain ⟨-, hnone⟩ := overlapEnd_zero h4
    have hsum : userMmAlignUp hint (2 ^ k) + len < 2 ^ 64 := by omega
    rw [mod_eq_of_lt hsum] at h2
    exact .inl ⟨h0, ⟨dvd_and_mask _ (by omega), h1, h2, (hreg.free_iff hsum).mp hnone⟩, rfl⟩
  next => exact .inr (findUnmappedLoop_best hreg hk hceil hfloor (by omega) (by omega) hlt hlen)

theorem findUnmappedTopdown_best : Best (Gap w runner floor ceil len (2 ^ k)) (· ≥ ·)
    (userVmaFindUnmappedTopdown w (some runner) floor ceil len align) := by
  unfold userVmaFindUnmappedTopdown
  dsimp only
  rw [if_neg (by omega), hal]
  split
  next hbig => exact Best.of_none fun a ha => by have := ha.floor_le; have := ha.le_ceil; omega
  next hfit =>
    have hdn := (alignDown_spec (v := ceil - len) (k := k) (by omega) (by omega)).1
    rw [if_neg (by omega)]
    exact findTopdownLoop_best hreg hk hceil hfloor (by omega) (by omega)

end Search

/-- **The searches are sound and complete.** Either finds a place if and only if there is one. The
upward search returns the lowest one unless it takes the hint, and the downward search the highest
one. With any higher bound on the number of iterations they would return the same. -/
theorem gap_search {w : VmaState} {runner : Thread} {floor ceil len align : Nat}
    (hreg : Regular w runner) (hfloor : 0 < floor) (hlt : floor < ceil) (hceil : ceil < 2 ^ 63)
    (hlen : 0 < len) (halign : align < 2 ^ 64) (hint : Nat) :
    let al := effectiveAlign align
    let gaps := {a | Gap w runner floor ceil len al a}
    let r := userVmaFindUnmapped w (some runner) floor ceil len hint align
    let t := userVmaFindUnmappedTopdown w (some runner) floor ceil len align
    (r ≠ 0 ↔ gaps.Nonempty) ∧ (r ≠ 0 → r ∈ gaps)
      ∧ (r ≠ 0 → hint = 0 ∨ userMmAlignUp hint al ∉ gaps → IsLeast gaps r)
      ∧ (t = 0 ↔ gaps = ∅) ∧ (t ≠ 0 → IsGreatest gaps t)
      ∧ ∀ n, w.global.length + 16 ≤ n → len ≤ ceil - floor →
        findUnmappedLoop w runner ceil len al n (userMmAlignUp floor al)
            = findUnmappedLoop w runner ceil len al (w.global.length + 16) (userMmAlignUp floor al)
          ∧ findTopdownLoop w runner floor ceil len al n (userMmAlignDown (ceil - len) al)
            = findTopdownLoop w runner floor ceil len al (w.global.length + 16)
            (userMmAlignDown (ceil - len) al) := by
  intro al gaps r t
  obtain ⟨k, hk, hpow⟩ := effectiveAlign_pow halign
  have hal : searchAlign align = 2 ^ k := (searchAlign_eq align).trans hpow
  have ht : Best (fun a => a ∈ gaps) (· ≥ ·) t := by
    simp only [gaps, al, hpow]
    exact findUnmappedTopdown_best hreg hk hceil hfloor hlt hlen hal
  have hr : (hint ≠ 0 ∧ userMmAlignUp hint al ∈ gaps ∧ r = userMmAlignUp hint al)
      ∨ Best (fun a => a ∈ gaps) (· ≤ ·) r := by
    simp only [gaps, al, hpow]
    exact findUnmapped_cases hreg hk hceil hfloor hlt hlen hal hint
  have hmem : r ≠ 0 → r ∈ gaps := by
    rcases hr with ⟨-, hg, he⟩ | hb
    · exact fun _ => he ▸ hg
    · exact hb.1
  refine ⟨⟨fun h0 => ⟨r, hmem h0⟩, ?_⟩, hmem, fun h0 hhint => ?_, ⟨fun h0 => ?_, fun he => ?_⟩,
    fun h0 => ⟨ht.1 h0, fun a ha => (ht.2 a ha).2⟩, fun n hn hfit => ?_⟩
  · rintro ⟨a, ha⟩
    rcases hr with ⟨-, hg, he⟩ | hb
    · exact he ▸ Nat.ne_of_gt (hfloor.trans_le hg.floor_le)
    · exact (hb.2 a ha).1
  · rcases hr with ⟨hne, hg, -⟩ | hb
    · exact absurd hg (hhint.resolve_left hne)
    · exact ⟨hb.1 h0, fun a ha => (hb.2 a ha).2⟩
  · exact Set.eq_empty_of_forall_notMem fun a ha => (ht.2 a ha).1 h0
  · by_contra h0
    exact (he ▸ ht.1 h0 : t ∈ (∅ : Set Nat))
  · simp only [al, hpow]
    exact ⟨(findUnmappedLoop_best hreg hk hceil hfloor hfit (by omega) hlt hlen).unique
        Nat.le_antisymm (findUnmappedLoop_best hreg hk hceil hfloor hfit (by omega) hlt hlen),
      (findTopdownLoop_best hreg hk hceil hfloor hfit (by omega)).unique
        (fun h1 h2 => Nat.le_antisymm h2 h1)
        (findTopdownLoop_best hreg hk hceil hfloor hfit (by omega))⟩

/-- Thread `3` has mapped three pages. -/
def threePages : VmaState :=
  runSpace [.add ⟨3, 3, some 7⟩ true 0x10000000 0x3000 3 .mmap] threadGroup

/-- The first place of the leader is behind them. -/
theorem gap_search_behind : Regular threePages ⟨2, 3, some 7⟩
      ∧ userVmaFindUnmapped threePages (some ⟨2, 3, some 7⟩) 0x10000000 0x20000000 0x1000 0
      4096 = 0x10003000
      ∧ IsLeast
          {a | Gap threePages ⟨2, 3, some 7⟩ 0x10000000 0x20000000 0x1000 (effectiveAlign 4096) a}
          0x10003000 := by
  have hreg : Regular threePages ⟨2, 3, some 7⟩ := by
    unfold Regular UserVma.Mine
    decide
  have hr : userVmaFindUnmapped threePages (some ⟨2, 3, some 7⟩) 0x10000000 0x20000000 0x1000 0 4096
      = 0x10003000 := by decide
  have hleast :=
    (gap_search hreg (show 0 < 0x10000000 by decide) (show _ < 0x20000000 by decide) (by decide)
    (show 0 < 0x1000 by decide) (show 4096 < 2 ^ 64 by decide) 0).2.2.1
  rw [hr] at hleast
  exact ⟨hreg, hr, hleast (by decide) (.inl rfl)⟩

end AxonOS.Vma

import Mathlib.Tactic

/-! # Paths

A path is a list of characters, `comps` its components: what stands between the slashes, empty parts
left out. `render` writes components as an absolute path, with the root as a single slash. A
canonical path is one that `render` writes. Between canonical paths, "a prefix that ends where a
component ends" and "a prefix of the components" are the same.
-/

namespace AxonOS.Lib

open List

/-- A component: not empty and without a slash. -/
def IsName (c : List Char) : Prop := c ≠ [] ∧ '/' ∉ c

/-- A first part, kept unless it is empty. -/
def keepPart (c : List Char) (cs : List (List Char)) : List (List Char) :=
  if c = [] then cs else c :: cs

/-- The part before the first slash and the components behind it. -/
def splitFirst : List Char → List Char × List (List Char)
  | [] => ([], [])
  | c :: s =>
    let r := splitFirst s
    if c = '/' then ([], keepPart r.1 r.2) else (c :: r.1, r.2)

def comps (s : List Char) : List (List Char) := keepPart (splitFirst s).1 (splitFirst s).2

/-- A slash before every component. -/
def slashed (cs : List (List Char)) : List Char := cs.flatMap fun c => '/' :: c

def render (cs : List (List Char)) : List Char := if cs = [] then ['/'] else slashed cs

/-- An absolute path without empty components and without a slash at its end. -/
def Canonical (p : List Char) : Prop := ∃ cs, (∀ c ∈ cs, IsName c) ∧ p = render cs

/-! ## Components -/

@[simp] theorem comps_nil : comps [] = [] := rfl

@[simp] theorem comps_slash (s : List Char) : comps ('/' :: s) = comps s := by
  simp [comps, splitFirst, keepPart]

theorem splitFirst_append_slash (a b : List Char) :
    splitFirst (a ++ '/' :: b) = ((splitFirst a).1, (splitFirst a).2 ++ comps b) := by
  induction a with
  | nil => simp [splitFirst, comps]
  | cons c a ih =>
    simp only [cons_append, splitFirst, ih]
    split
    · simp only [keepPart]
      split <;> simp
    · rfl

/-- **Components of a path with a slash in it.** -/
theorem comps_append_slash (a b : List Char) : comps (a ++ '/' :: b) = comps a ++ comps b := by
  simp only [comps, splitFirst_append_slash a b, keepPart]
  split
  · simp
  · simp

variable {c m p : List Char} {cs : List (List Char)}

theorem splitFirst_of_no_slash (h : '/' ∉ c) : splitFirst c = (c, []) := by
  induction c with
  | nil => rfl
  | cons x c ih =>
    rw [mem_cons, not_or] at h
    simp [splitFirst, ih h.2, Ne.symm h.1]

theorem comps_of_isName (h : IsName c) : comps c = [c] := by
  simp [comps, splitFirst_of_no_slash h.2, keepPart, h.1]

theorem isName_of_mem_keepPart (hfirst : '/' ∉ p) (hrest : ∀ c ∈ cs, IsName c)
    (h : c ∈ keepPart p cs) :
    IsName c := by
  simp only [keepPart] at h
  split at h
  · exact hrest c h
  next hne => exact forall_mem_cons.mpr ⟨⟨hne, hfirst⟩, hrest⟩ c h

theorem splitFirst_names (s : List Char) :
    '/' ∉ (splitFirst s).1 ∧ ∀ c ∈ (splitFirst s).2, IsName c := by
  induction s with
  | nil => simp [splitFirst]
  | cons x s ih =>
    obtain ⟨hfirst, hrest⟩ := ih
    simp only [splitFirst]
    split
    · exact ⟨by simp, fun c hc => isName_of_mem_keepPart hfirst hrest hc⟩
    next hx => exact ⟨by simpa [Ne.symm hx] using hfirst, hrest⟩

theorem isName_of_mem_comps {s : List Char} (h : c ∈ comps s) : IsName c := by
  obtain ⟨hfirst, hrest⟩ := splitFirst_names s
  exact isName_of_mem_keepPart hfirst hrest h

/-! ## Rendering -/

@[simp] theorem slashed_nil : slashed [] = [] := rfl

@[simp] theorem slashed_cons (c : List Char) (cs : List (List Char)) :
    slashed (c :: cs) = '/' :: c ++ slashed cs := rfl

theorem slashed_append (a b : List (List Char)) : slashed (a ++ b) = slashed a ++ slashed b := by
  simp [slashed]

theorem slashed_eq_nil : slashed cs = [] ↔ cs = [] := by
  cases cs <;> simp

/-- Behind a component stands nothing or a slash. -/
theorem slashed_head (cs : List (List Char)) : slashed cs = [] ∨ ∃ r, slashed cs = '/' :: r := by
  cases cs with
  | nil => exact .inl rfl
  | cons c cs => exact .inr ⟨c ++ slashed cs, rfl⟩

theorem comps_slashed (h : ∀ c ∈ cs, IsName c) : comps (slashed cs) = cs := by
  induction cs with
  | nil => rfl
  | cons c cs ih =>
    rw [forall_mem_cons] at h
    rw [slashed_cons, cons_append, comps_slash]
    rcases slashed_head cs with hnil | ⟨r, hr⟩
    · rw [hnil, append_nil, comps_of_isName h.1, slashed_eq_nil.mp hnil]
    · rw [hr, comps_append_slash, comps_of_isName h.1, ← comps_slash r, ← hr, ih h.2]
      rfl

theorem comps_render (h : ∀ c ∈ cs, IsName c) : comps (render cs) = cs := by
  unfold render
  split
  next hnil => simp [hnil]
  · exact comps_slashed h

theorem Canonical.render_comps (h : Canonical p) : render (comps p) = p := by
  obtain ⟨cs, hcs, rfl⟩ := h
  rw [comps_render hcs]

theorem Canonical.slashed_comps (h : Canonical p) (hne : comps p ≠ []) : slashed (comps p) = p :=
  (if_neg hne).symm.trans h.render_comps

theorem Canonical.head (h : Canonical p) : ∃ r, p = '/' :: r := by
  obtain ⟨cs, -, rfl⟩ := h
  cases cs with
  | nil => exact ⟨[], rfl⟩
  | cons c cs => exact ⟨c ++ slashed cs, rfl⟩

theorem canonical_comps_nil (h : Canonical p) : comps p = [] ↔ p = ['/'] := by
  constructor
  · intro hnil
    rw [← h.render_comps, hnil]
    rfl
  · rintro rfl
    rfl

/-! ## Prefixes -/

/-- `p` goes on behind `m` with nothing or with a slash. -/
def Extends (m p : List Char) : Prop := ∃ r, p = m ++ r ∧ (r = [] ∨ ∃ r', r = '/' :: r')

/-- How a loop over the characters finds it. -/
theorem extends_iff_take :
    Extends m p ↔ p.take m.length = m ∧ (p[m.length]? = none ∨ p[m.length]? = some '/') := by
  constructor
  · rintro ⟨r, rfl, rfl | ⟨r', rfl⟩⟩
    · simp
    · simp
  · rintro ⟨htake, hnext⟩
    refine ⟨p.drop m.length, ?_, ?_⟩
    · conv_lhs => rw [← take_append_drop m.length p, htake]
    rw [← head?_drop] at hnext
    exact hnext.imp head?_eq_none_iff.mp head?_eq_some_iff.mp

theorem Extends.comps_isPre (h : Extends m p) : comps m <+: comps p := by
  obtain ⟨r, rfl, rfl | ⟨r', rfl⟩⟩ := h
  · rw [append_nil]
  · rw [comps_append_slash]
    exact prefix_append _ _

/-- **Prefixes of canonical paths**: other than the root, a path is extended exactly by the paths
whose components start with its own. -/
theorem extends_iff (hm : Canonical m) (hp : Canonical p) (hroot : m ≠ ['/']) :
    Extends m p ↔ comps m <+: comps p := by
  refine ⟨Extends.comps_isPre, fun h => ?_⟩
  obtain ⟨d, hd⟩ := h
  have hne : comps m ≠ [] := mt (canonical_comps_nil hm).mp hroot
  have hne' : comps p ≠ [] := fun hnil => hne (append_eq_nil_iff.mp (hd.trans hnil)).1
  refine ⟨slashed d, ?_, slashed_head d⟩
  calc p = slashed (comps p) := (hp.slashed_comps hne').symm
    _ = slashed (comps m) ++ slashed d := by rw [← hd, slashed_append]
    _ = m ++ slashed d := by rw [hm.slashed_comps hne]

/-! ## Slashes at the end -/

/-- A path without the slashes at its end; of slashes only, one stays. -/
def trimSlashes (path : List Char) : List Char :=
  match (path.reverse.dropWhile (· = '/')).reverse with
  | [] => path.take 1
  | p => p

theorem trimSlashes_of_canonical (h : Canonical p) : trimSlashes p = p := by
  obtain ⟨cs, hcs, rfl⟩ := h
  rcases eq_nil_or_concat' cs with rfl | ⟨init, last, rfl⟩
  · rfl
  have hlast := hcs last (by simp)
  obtain ⟨l, x, hl⟩ := (eq_nil_or_concat' last).resolve_left hlast.1
  have hx : x ≠ '/' := fun hx => hlast.2 (by simp [hl, hx])
  have hrender : render (init ++ [last]) = (slashed init ++ '/' :: l) ++ [x] := by
    simp [render, slashed_append, hl]
  rw [hrender, trimSlashes, reverse_append, reverse_singleton, singleton_append,
    dropWhile_cons_of_neg (by simpa using hx)]
  simp

/-! ## Cut paths -/

theorem Extends.take (h : Extends m p) {k : Nat} (hk : m.length ≤ k) : Extends m (p.take k) := by
  obtain ⟨r, rfl, hr⟩ := h
  refine ⟨r.take (k - m.length), by rw [take_append, take_of_length_le hk], ?_⟩
  rcases hr with rfl | ⟨r', rfl⟩
  · exact .inl take_nil
  · cases k - m.length with
    | zero => exact .inl rfl
    | succ k => exact .inr ⟨r'.take k, rfl⟩

/-- A path with a slash in it, split at the last one. -/
theorem exists_last_slash (h : '/' ∈ p) : ∃ a l, p = a ++ '/' :: l ∧ '/' ∉ l := by
  induction p with
  | nil => simp at h
  | cons x p ih =>
    by_cases hp : '/' ∈ p
    · obtain ⟨a, l, rfl, hl⟩ := ih hp
      exact ⟨x :: a, l, rfl, hl⟩
    · rcases mem_cons.mp h with rfl | h
      · exact ⟨[], p, rfl, hp⟩
      · exact absurd h hp

theorem exists_first_slash (p : List Char) :
    ∃ a r, p = a ++ r ∧ '/' ∉ a ∧ (r = [] ∨ ∃ r', r = '/' :: r') := by
  induction p with
  | nil => exact ⟨[], [], rfl, by simp, .inl rfl⟩
  | cons x p ih =>
    by_cases hx : x = '/'
    · exact ⟨[], x :: p, rfl, by simp, .inr ⟨p, by rw [hx]⟩⟩
    · obtain ⟨a, r, rfl, ha, hr⟩ := ih
      exact ⟨x :: a, r, rfl, by simp [Ne.symm hx, ha], hr⟩

/-- **A cut brings no component into a path but at its end**: in a prefix of a path without the
component `d`, it is the last one if it is one at all. -/
theorem mem_comps_of_cut {q d : List Char} (hd : IsName d) (hslash : p.head? = some '/')
    (h : d ∉ comps (p ++ q)) : d ∈ comps p ↔ ('/' :: d) <:+ p := by
  have hmem : '/' ∈ p := mem_of_mem_head? hslash
  obtain ⟨a, l, rfl, hl⟩ := exists_last_slash hmem
  have hnot : d ∉ comps a := by
    rw [append_assoc, cons_append, comps_append_slash] at h
    exact fun hda => h (mem_append_left _ hda)
  constructor
  · intro hdp
    rw [comps_append_slash, mem_append] at hdp
    have hdl := hdp.resolve_left hnot
    have hne : l ≠ [] := by
      rintro rfl
      simp at hdl
    rw [comps_of_isName ⟨hne, hl⟩, mem_singleton] at hdl
    rw [hdl]
    exact suffix_append a ('/' :: l)
  · rintro ⟨b, hb⟩
    rw [← hb, comps_append_slash, comps_of_isName hd]
    exact mem_append_right _ mem_cons_self

end AxonOS.Lib

import AxonOS.Heap.Run

/-! # `heap_used_now`

Every path of `heap.c` changes `heap_used_now` by the size of the block it takes or gives back, with
one exception: growing a block in place adds `new_size - old_size`, also when the remainder is too
small to be split off and the block gets more than that. So the counter is the sum of the sizes of
the allocated blocks all along a run if and only if no call of the run grows a block like that.
-/

namespace AxonOS.Heap

open Lib

/-- `heap_used_now` is the sum of the sizes of the allocated blocks. -/
def Exact (h : HeapState) : Prop :=
  ∀ bs, DList (h.get .next) (h.get .prev) h.head bs → Accounted h bs

def RunExact : List Call → HeapState × Live → Prop
  | [], s => Exact s.1
  | c :: cs, s => Exact s.1 ∧ ∀ s', c.step s = some s' → RunExact cs s'

def RunTight : List Call → HeapState × Live → Prop
  | [], _ => True
  | c :: cs, s => c.Tight s.1 ∧ ∀ s', c.step s = some s' → RunTight cs s'

instance decidableRunTight : (cs : List Call) → (s : HeapState × Live) → Decidable (RunTight cs s)
  | [], _ => isTrue trivial
  | c :: cs, s =>
    have := decidableRunTight cs
    inferInstanceAs (Decidable (c.Tight s.1 ∧ ∀ s' ∈ c.step s, RunTight cs s'))

variable {bs fl : List Nat} {h : HeapState}

theorem exact_iff (hs : Shape h bs) : Exact h ↔ Accounted h bs := by
  have hbs : DList (h.get .next) (h.get .prev) h.head bs := by
    rw [hs.head]
    exact hs.blocks
  refine ⟨fun he => he bs hbs, fun ha bs' hbs' => ?_⟩
  obtain ⟨q, hq⟩ := hbs
  obtain ⟨q', hq'⟩ := hbs'
  rw [← chain_unique (dseg_chain hq) (dseg_chain hq')]
  exact ha

theorem RunExact.exact {cs : List Call} {s : HeapState × Live} (hr : RunExact cs s) :
    Exact s.1 := by
  cases cs with
  | nil => exact hr
  | cons c cs => exact hr.1

theorem runExact_iff {cs : List Call} {live : Live} (hinv : HeapInv [] [] h bs fl)
    (ht : Tracks h bs live) (hok : RunOk cs (h, live)) (ha : Accounted h bs) :
    RunExact cs (h, live) ↔ RunTight cs (h, live) := by
  induction cs generalizing h live bs fl with
  | nil => exact iff_of_true ((exact_iff hinv.shape).mpr ha) trivial
  | cons c cs ih =>
    obtain ⟨h1, live1, bs1, fl1, he, hinv1, ht1, hacc⟩ := call_counted hinv ht hok.1
    have hnext : ∀ P : HeapState × Live → Prop, (∀ s', c.step (h, live) = some s' → P s') ↔
        P (h1, live1) := by
      intro P
      simp only [he, Option.some.injEq, forall_eq']
    unfold RunExact RunTight
    rw [hnext (RunExact cs), hnext (RunTight cs)]
    constructor
    · rintro ⟨-, hrest⟩
      have ha1 := (exact_iff hinv1.shape).mp hrest.exact
      exact ⟨(hacc ha).mp ha1, (ih hinv1 ht1 (hok.2 _ he) ha1).mp hrest⟩
    · rintro ⟨htight, hrest⟩
      refine ⟨(exact_iff hinv.shape).mpr ha, ?_⟩
      exact (ih hinv1 ht1 (hok.2 _ he) ((hacc ha).mpr htight)).mpr hrest

/-- **Along every run from `heap_init`, `heap_used_now` is the sum of the sizes of the allocated
blocks if and only if every call is tight.** -/
theorem heap_accounting (kernelEnd start size : Nat) (mem : Mem) (cs : List Call)
    (hbase : 0 < (heapInit kernelEnd start size mem).base)
    (hcap : HDR < (heapInit kernelEnd start size mem).capacity)
      (hlim : (heapInit kernelEnd start size mem).base
      + (heapInit kernelEnd start size mem).capacity < 2 ^ 64)
    (hok : RunOk cs (heapInit kernelEnd start size mem, [])) :
    RunExact cs (heapInit kernelEnd start size mem, []) ↔
    RunTight cs (heapInit kernelEnd start size mem, []) := by
  have hinv := heapInv_init rfl hbase hcap hlim
  have hfree := (heapInit_tags (rfl : heapInit kernelEnd start size mem = _)).2.2.2.1
  refine runExact_iff hinv (tracks_none hinv fun _ hb => hb) hok ?_
  unfold Accounted allocatedSize
  rw [List.filter_singleton, hfree]
  rfl

/-- A block that grows into the free one behind it, and another that has to move. -/
def tightRun : List Call :=
  [.kmalloc 24 7, .krealloc 0x100040 100 7, .kmalloc 50 7, .krealloc 0x100040 200 7,
    .kfree 0x1000f0]

theorem heap_accounting_tightRun :
    RunOk tightRun (smallHeap, []) ∧ RunTight tightRun (smallHeap, [])
    ∧ RunExact tightRun (smallHeap, []) := by
  have hok : RunOk tightRun (smallHeap, []) := by decide +kernel
  have htight : RunTight tightRun (smallHeap, []) := by decide +kernel
  exact ⟨hok, htight,
    (heap_accounting 0 0x100000 4096 (fun _ => 0) tightRun (by decide) (by decide)
    (by decide) hok).mpr htight⟩

/-- Three blocks; the second is freed and the first grows into it, which leaves 64 bytes too few to
be split off. -/
def looseRun : List Call :=
  [.kmalloc 24 7, .kmalloc 50 7, .kmalloc 8 7, .kfree 0x1000a0, .krealloc 0x100040 88 7]

/-- Blocks of 160 and 16 bytes are allocated, and `heap_used_now` is 112. -/
theorem looseRun_counter : RunOk looseRun (smallHeap, []) ∧ ∃ s ∈ runCalls looseRun (smallHeap, []),
    s.1.used = 112 ∧ allocatedSize s.1 [0x100000, 0x1000e0, 0x100130] = 176 ∧ ¬ Exact s.1 := by
  have hend : ∃ s ∈ runCalls looseRun (smallHeap, []), s.1.used = 112
      ∧ allocatedSize s.1 [0x100000, 0x1000e0, 0x100130] = 176 ∧ s.1.head = 0x100000
      ∧ s.1.get .prev 0x100000 = 0 ∧ s.1.get .next 0x100000 = 0x1000e0
      ∧ s.1.get .prev 0x1000e0 = 0x100000 ∧ s.1.get .next 0x1000e0 = 0x100130
      ∧ s.1.get .prev 0x100130 = 0x1000e0 ∧ s.1.get .next 0x100130 = 0 := by
    decide +kernel
  obtain ⟨s, hs, hused, hsum, hhead, p1, n1, p2, n2, p3, n3⟩ := hend
  refine ⟨by decide +kernel, s, hs, hused, hsum, fun hexact => ?_⟩
  have hbs : DList (s.1.get .next) (s.1.get .prev) s.1.head [0x100000, 0x1000e0, 0x100130] :=
    ⟨_, hhead, by decide, p1, n1, by decide, p2, n2, by decide, p3, rfl, n3.symm⟩
  have := hexact _ hbs
  rw [Accounted, hused, hsum] at this
  cases this

end AxonOS.Heap

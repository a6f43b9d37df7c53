import AxonOS.Arch.Addr

/-! # Page-table entries and the hardware walk

An entry is a 64-bit word. The masks of `paging.h` never cut a field, so a word is the record of its
fields: the flag bits 0 to 11, the page number in bits 12 to 51, the ignored bits 52 to 62, and
`PG_NX`. Addresses of pages, virtual and physical, are page numbers (the address divided by 4096).

`walk` is what the processor does: four levels, with leaves of 1 GiB at level 3, of 2 MiB at level 2
and of 4 KiB at level 1, where access and writing need the bit at every level.
-/

namespace AxonOS.Paging

/-! ## Entries -/

/-- The flag bits of an entry, under the names of `paging.h`; `avail` is bits 52 to 62. -/
structure Flags where
  present : Bool := false
  rw : Bool := false
  us : Bool := false
  pwt : Bool := false
  pcd : Bool := false
  accessed : Bool := false
  dirty : Bool := false
  ps : Bool := false
  global : Bool := false
  reserved : Bool := false
  cow : Bool := false
  owned : Bool := false
  nx : Bool := false
  avail : Nat := 0
  deriving DecidableEq, Repr

structure Pte extends Flags where
  pfn : Nat := 0
  deriving DecidableEq, Repr

instance : Inhabited Pte := ⟨{}⟩

/-- `flags & 0xFFF`. -/
def Flags.low (f : Flags) : Flags := { f with nx := false, avail := 0 }

/-- `PG_PRESENT | PG_RW | PG_US`. -/
def Flags.user : Flags := { present := true, rw := true, us := true }

/-- The page number of `entry & ~0xFFF`, which keeps the bits above the address. -/
def Pte.ptr (e : Pte) : Nat := e.pfn + 2 ^ 40 * e.avail + if e.nx then 2 ^ 51 else 0

/-- The entry leads to a table of the next level. -/
def Pte.isTable (e : Pte) : Bool := e.present && !e.ps

/-- `entry |= flags`, for the three flags that are set this way. -/
def Pte.widen (e : Pte) (present rw us : Bool) : Pte :=
  { e with present := e.present || present, rw := e.rw || rw, us := e.us || us }

def ptPagePaOk (e : Pte) : Bool := !e.present || decide (e.pfn < 2 ^ 20)

/-- The test before a walk goes on in another tree: present, no large leaf, and `pt_page_pa_ok`. -/
def leads (e : Pte) : Bool := e.present && !e.ps && ptPagePaOk e

def mmPteSamePtPage (e other : Pte) : Bool :=
  if !e.present || !other.present then false
  else if e.ps || other.ps then false
  else if !ptPagePaOk e || !ptPagePaOk other then false
  else decide (e.pfn = other.pfn)

/-! ## The hardware walk -/

/-- The index of a page in its table of a level, from 4 down to 1. -/
def ix (level vpn : Nat) : Nat := vpn / 512 ^ (level - 1) % 512

/-- What an access to a page meets. -/
structure Trans where
  pfn : Nat
  us : Bool
  rw : Bool
  deriving DecidableEq, Repr

def Trans.under (e : Pte) (t : Trans) : Trans := ⟨t.pfn, t.us && e.us, t.rw && e.rw⟩

/-- The page that a leaf of a level maps `vpn` to. -/
def leafPfn (level : Nat) (e : Pte) (vpn : Nat) : Nat :=
  e.pfn / 512 ^ (level - 1) * 512 ^ (level - 1) + vpn % 512 ^ (level - 1)

/-- From an entry of a level on. A level-4 entry with `PG_PS_2M` is not valid. -/
def walk (mem : Nat → Nat → Pte) : Nat → Pte → Nat → Option Trans
  | 0, _, _ => none
  | level + 1, e, vpn =>
    if !e.present then none
    else if level = 0 then some ⟨e.pfn, e.us, e.rw⟩
    else if e.ps then
      if level = 3 then none else some ⟨leafPfn (level + 1) e vpn, e.us, e.rw⟩
    else (walk mem level (mem e.pfn (ix level vpn)) vpn).map (Trans.under e)

section Walk

variable {mem : Nat → Nat → Pte} {level vpn : Nat} {e : Pte}

theorem isTable_iff : e.isTable = true ↔ e.present = true ∧ e.ps = false := by
  simp [Pte.isTable]

theorem walk_absent (h : e.present = false) : walk mem level e vpn = none := by
  cases level <;> simp [walk, h]

theorem walk_table (hl : 2 ≤ level) (h : e.isTable = true) : walk mem level e vpn
      = (walk mem (level - 1) (mem e.pfn (ix (level - 1) vpn)) vpn).map (Trans.under e) := by
  have hboth := isTable_iff.mp h
  cases level with
  | zero => omega
  | succ level =>
    have hne : level ≠ 0 := by omega
    simp [walk, hboth.1, hboth.2, hne]

theorem walk_large (hl : level = 2 ∨ level = 3) (h : e.present = true) (hps : e.ps = true) :
    walk mem level e vpn = some ⟨leafPfn level e vpn, e.us, e.rw⟩ := by
  rcases hl with rfl | rfl <;> simp [walk, h, hps]

theorem walk_page (h : e.present = true) : walk mem 1 e vpn = some ⟨e.pfn, e.us, e.rw⟩ := by
  simp [walk, h]

end Walk

/-- The translation of a page under the root table `pml4`. -/
def translate (mem : Nat → Nat → Pte) (pml4 vpn : Nat) : Option Trans :=
  walk mem 4 (mem pml4 (ix 4 vpn)) vpn

end AxonOS.Paging

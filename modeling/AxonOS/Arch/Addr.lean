import Mathlib.Tactic

/-! # Addresses and pages

Physical and virtual addresses are natural numbers; the masks of `paging.h` and `mmio.h` are
written as the arithmetic they do.
-/

namespace AxonOS.Arch

def PAGE_SIZE_4K : Nat := 4096
def PAGE_SIZE_2M : Nat := 0x200000

/-- Physical memory below this limit is mapped at its own address in every address space. -/
def MMIO_IDENTITY_LIMIT : Nat := 0x100000000

def USER_STACK_TOP : Nat := 0x60000000

/-- `pa & PG_ADDR_MASK`: the mask `0x000FFFFFFFFFF000` keeps bits 12 to 51. -/
def pgAddr (pa : Nat) : Nat := pa % 2 ^ 52 / 4096 * 4096

/-- `v & ~(4096 - 1)`. -/
def alignDown4K (v : Nat) : Nat := v / 4096 * 4096

/-- `(v + 4096 - 1) & ~(4096 - 1)` in 64 bits. -/
def alignUp4K (v : Nat) : Nat := (v + 4095) % 2 ^ 64 / 4096 * 4096

theorem pgAddr_of_page {pa : Nat} (h : pa < 2 ^ 52) (ha : pa % 4096 = 0) : pgAddr pa = pa := by
  unfold pgAddr
  omega

/-- Without wrapping, rounding up gives the page boundary in `[v, v + 4095]`. -/
theorem alignUp4K_spec {v : Nat} (h : v + 4095 < 2 ^ 64) :
    v ≤ alignUp4K v ∧ alignUp4K v ≤ v + 4095 ∧ alignUp4K v % 4096 = 0 := by
  unfold alignUp4K
  omega

end AxonOS.Arch

import Mathlib.Tactic

/-! # Error numbers and signed integers -/

namespace AxonOS

def EPERM : Int := 1
def ENOENT : Int := 2
def EINTR : Int := 4
def EBADF : Int := 9
def EAGAIN : Int := 11
def ENOMEM : Int := 12
def EFAULT : Int := 14
def ENOTDIR : Int := 20
def EINVAL : Int := 22
def ENOSPC : Int := 28
def EPIPE : Int := 32
def ENAMETOOLONG : Int := 36
def ENOSYS : Int := 38
def ETIMEDOUT : Int := 110

/-- An unsigned value that is stored in an `int`. -/
def toInt (n : Nat) : Int := ((n + 2 ^ 31) % 2 ^ 32 : Nat) - 2 ^ 31

theorem toInt_eq_iff {n : Nat} : toInt n = n ↔ n < 2 ^ 31 := by
  unfold toInt
  omega

/-- The value of an `int` after arithmetic with the result `x`. -/
def int32 (x : Int) : Int := (x + 2 ^ 31) % 2 ^ 32 - 2 ^ 31

theorem int32_eq {x : Int} (hlo : 0 ≤ x) (hhi : x < 2 ^ 31) : int32 x = x := by
  unfold int32
  omega

/-- The value of an `int64_t` after arithmetic with the result `x`. -/
def int64 (x : Int) : Int := (x + 2 ^ 63) % 2 ^ 64 - 2 ^ 63

end AxonOS

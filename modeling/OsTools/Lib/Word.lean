import Mathlib.Algebra.Group.Int.Defs
import Mathlib.Algebra.Order.Group.Nat
/-!
# OsTools.Lib.Word

The 32-bit numbers of C: unsigned sums and differences modulo `2 ^ 32`, and the
signed reading of a word.
-/

namespace OsTools

/-- `(int32_t) n`. -/
def toInt32 (n : Nat) : Int := if n < 2 ^ 31 then n else n - 2 ^ 32

/-- `(uint32_t) i`. -/
def toUInt32 (i : Int) : Nat := (i % 2 ^ 32).toNat

/-- The `uint32_t` sum of a word and a signed number. -/
def add32 (a : Nat) (i : Int) : Nat := ((a + i) % 2 ^ 32).toNat

/-- `++` on an `int`, which wraps around behind the largest one. -/
def incInt (i : Int) : Int := toInt32 (toUInt32 (i + 1))

/-- `--` on an `int`. -/
def decInt (i : Int) : Int := toInt32 (toUInt32 (i - 1))

def sub32 (a b : Nat) : Nat := (a + (2 ^ 32 - b)) % 2 ^ 32

variable {a b : Nat} {i : Int}

theorem add32_lt (a : Nat) (i : Int) : add32 a i < 2 ^ 32 := by
  unfold add32
  omega

/-- The sum is exact when it is a 32-bit address. -/
theorem add32_eq (h₀ : 0 ≤ a + i) (h₁ : a + i < 2 ^ 32) : (add32 a i : Int) = a + i := by
  unfold add32
  omega

theorem add32_nat {n : Nat} (h : a + n < 2 ^ 32) : add32 a n = a + n := by
  unfold add32
  omega

theorem sub32_eq (h : b ≤ a) (ha : a < 2 ^ 32) : sub32 a b = a - b := by
  unfold sub32
  omega

/-- An `int` is counted up as a number is until it is the largest one. -/
theorem incInt_eq (h₀ : -2 ^ 31 ≤ i) (h₁ : i + 1 < 2 ^ 31) : incInt i = i + 1 := by
  unfold incInt toInt32 toUInt32
  split <;> omega

theorem decInt_eq (h₀ : -2 ^ 31 < i) (h₁ : i < 2 ^ 31) : decInt i = i - 1 := by
  unfold decInt toInt32 toUInt32
  split <;> omega

/-- The `int` that `n` steps lead to. -/
theorem incInt_wrap (n : Nat) : incInt (toInt32 (n % 2 ^ 32)) = toInt32 ((n + 1) % 2 ^ 32) := by
  unfold incInt
  congr 1
  unfold toInt32 toUInt32
  split <;> omega

theorem toUInt32_lt (i : Int) : toUInt32 i < 2 ^ 32 := by
  unfold toUInt32
  omega

end OsTools

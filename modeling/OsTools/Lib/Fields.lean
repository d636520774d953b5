import Mathlib.Data.Nat.Bitwise
/-!
# OsTools.Lib.Fields

Words that are put together from fields with `|`, as numbers: `bits n start len` is the field of
`len` bits from bit `start` on. Where the fields do not overlap, `|` adds them up.

Nothing here mentions a particular program.

A shift is a product with a power of two and a mask a remainder, and what is above a field
is divisible by the power of two behind it. So the side conditions of `or_low` and `or_high`
are about divisibility and order, and a word with many fields is taken apart from one end.
-/

namespace OsTools

def bits (n start len : Nat) : Nat := n / 2 ^ start % 2 ^ len

/-- What is below the lowest bit of the others is added. -/
theorem or_low {a b : Nat} (i : Nat) (ha : 2 ^ i ∣ a) (hb : b < 2 ^ i) : a ||| b = a + b := by
  obtain ⟨c, rfl⟩ := ha
  exact (Nat.two_pow_add_eq_or_of_lt hb c).symm

/-- What is above them, too. -/
theorem or_high {a b : Nat} (i : Nat) (ha : 2 ^ i ∣ a) (hb : b < 2 ^ i) : b ||| a = b + a := by
  rw [Nat.or_comm, or_low i ha hb, Nat.add_comm]

theorem shiftLeft_eq (a i : Nat) : a <<< i = 2 ^ i * a := by
  rw [Nat.shiftLeft_eq, Nat.mul_comm]

/-- The mask of the low bits. -/
theorem and_lowMask (a i : Nat) : a &&& (2 ^ i - 1) = bits a 0 i := by
  rw [Nat.and_two_pow_sub_one_eq_mod, bits, Nat.pow_zero, Nat.div_one]

/-- A mask that is further up keeps its field in its place. -/
theorem and_highMask (a start len : Nat) :
    a &&& 2 ^ start * (2 ^ len - 1) = 2 ^ start * bits a start len := by
  have hlow : (a &&& 2 ^ start * (2 ^ len - 1)) % 2 ^ start = 0 := by
    rw [Nat.and_mod_two_pow, Nat.mul_mod_right, Nat.and_zero]
  have hhigh : (a &&& 2 ^ start * (2 ^ len - 1)) / 2 ^ start = bits a start len := by
    rw [Nat.and_div_two_pow, Nat.mul_div_cancel_left _ (Nat.two_pow_pos start),
      Nat.and_two_pow_sub_one_eq_mod, bits]
  have hsplit := Nat.div_add_mod (a &&& 2 ^ start * (2 ^ len - 1)) (2 ^ start)
  rw [hlow, hhigh, Nat.add_zero] at hsplit
  exact hsplit.symm

end OsTools

import Mathlib.Data.Nat.Bitwise
/-!
# OsTools.Lib.Mask

The fields of a word, under masks: what setting and clearing the bits of one mask does to
the bits of another. The values of a field are those of a quotient and a remainder.

Nothing here mentions a particular program.
-/

namespace OsTools

variable {n : Nat} {w m k : BitVec n}

/-- Setting bits keeps the others. -/
theorem or_and_of_disjoint (h : m &&& k = 0#n) : (w ||| m) &&& k = w &&& k := by
  rw [BitVec.and_or_distrib_right, h, BitVec.or_zero]

/-- Clearing bits keeps the others. -/
theorem andNot_and_of_disjoint (h : m &&& k = 0#n) : (w &&& ~~~m) &&& k = w &&& k := by
  have hk : ~~~m &&& k = k := by
    ext i hi
    have hbit : (m &&& k)[i] = (0#n)[i] := by rw [h]
    rw [BitVec.getElem_and, BitVec.getElem_zero] at hbit
    rw [BitVec.getElem_and, BitVec.getElem_not]
    cases hm : m[i] with
    | false => simp
    | true =>
        rw [hm, Bool.true_and] at hbit
        rw [hbit]
        rfl
  rw [BitVec.and_assoc, hk]

theorem or_and_mask : (w ||| m) &&& m = m := by
  ext i hi
  rw [BitVec.getElem_and, BitVec.getElem_or]
  cases m[i] <;> simp

theorem andNot_and_mask : (w &&& ~~~m) &&& m = 0#n := by
  rw [BitVec.and_assoc]
  ext i hi
  simp

/-- A word without bits in one of two complementary masks. -/
theorem and_eq_self (hall : k ||| m = BitVec.allOnes n) (h : w &&& m = 0#n) : w &&& k = w := by
  have hw : w &&& (k ||| m) = w := by
    rw [hall]
    exact BitVec.and_allOnes
  rw [BitVec.and_or_distrib_left, h, BitVec.or_zero] at hw
  exact hw

/-- The low bits are a remainder. -/
theorem toNat_and_low (b : Nat) (hm : m.toNat = 2 ^ b - 1) : (w &&& m).toNat = w.toNat % 2 ^ b := by
  rw [BitVec.toNat_and, hm]
  exact Nat.and_two_pow_sub_one_eq_mod _ _

/-- A field in the middle is the remainder of a quotient. -/
theorem toNat_field (b c : Nat) (hm : m.toNat >>> c = 2 ^ b - 1) :
    ((w &&& m) >>> c).toNat = w.toNat / 2 ^ c % 2 ^ b := by
  rw [BitVec.toNat_ushiftRight, BitVec.toNat_and, Nat.shiftRight_and_distrib,
    Nat.shiftRight_eq_div_pow, hm]
  exact Nat.and_two_pow_sub_one_eq_mod _ _

theorem toNat_shift (c : Nat) : (w >>> c).toNat = w.toNat / 2 ^ c := by
  rw [BitVec.toNat_ushiftRight, Nat.shiftRight_eq_div_pow]

end OsTools

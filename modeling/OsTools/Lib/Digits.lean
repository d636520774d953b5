import Mathlib.Data.Nat.Digits.Lemmas
/-!
# OsTools.Lib.Digits

Numbers as digits of a fixed number of places, the most significant one first, and the
value that reading digits one after the other adds up to.

Reading is a left fold, with the value so far; so the lemma for reading the digits of a
number begins with any value (`foldl_paddedDigits`), which is the form in which a loop of a
program has it.
-/

namespace OsTools

/-- The value after one more digit. -/
def shiftIn (b value d : Nat) : Nat := d + value * b

/-- The digits of `v` in base `b`, with zeros before them up to `width` places. -/
def paddedDigits (b width v : Nat) : List Nat :=
  List.replicate (width - (Nat.digits b v).length) 0 ++ (Nat.digits b v).reverse

variable {b width v d : Nat}

/-- More digits never make the value smaller. -/
theorem le_foldl_shiftIn (hb : 0 < b) (ds : List Nat) (value : Nat) :
    value ≤ ds.foldl (shiftIn b) value := by
  induction ds generalizing value with
  | nil => exact Nat.le_refl value
  | cons d ds ih =>
      calc value ≤ value * b := Nat.le_mul_of_pos_right value hb
        _ ≤ shiftIn b value d := Nat.le_add_left _ _
        _ ≤ ds.foldl (shiftIn b) (shiftIn b value d) := ih _

/-- The digits are read back as the number. -/
theorem foldl_paddedDigits (b width v : Nat) :
    (paddedDigits b width v).foldl (shiftIn b) 0 = v := by
  have hzeros : ∀ k, (List.replicate k 0).foldl (shiftIn b) 0 = 0 := by
    intro k
    induction k with
    | zero => rfl
    | succ k ih =>
        rw [List.replicate_succ, List.foldl_cons]
        unfold shiftIn at ih ⊢
        rw [Nat.zero_mul, Nat.add_zero]
        exact ih
  have hdigits := Nat.ofDigits_digits b v
  rw [Nat.ofDigits_eq_foldr] at hdigits
  unfold paddedDigits
  rw [List.foldl_append, hzeros, List.foldl_reverse]
  refine Eq.trans ?_ hdigits
  congr 1
  funext d value
  exact congrArg (d + ·) (Nat.mul_comm value b)

theorem paddedDigits_lt (hb : 1 < b) (h : d ∈ paddedDigits b width v) : d < b := by
  rcases List.mem_append.mp h with hzero | hdigit
  · rw [(List.mem_replicate.mp hzero).2]
    exact Nat.lt_trans Nat.zero_lt_one hb
  · exact Nat.digits_lt_base hb (List.mem_reverse.mp hdigit)

/-- A number that fits takes all places. -/
theorem length_paddedDigits (hb : 1 < b) (h : v < b ^ width) :
    (paddedDigits b width v).length = width := by
  have hle := (Nat.digits_length_le_iff hb v).mpr h
  unfold paddedDigits
  rw [List.length_append, List.length_replicate, List.length_reverse]
  omega

end OsTools

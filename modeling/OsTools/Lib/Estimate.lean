import Mathlib.Algebra.Order.Group.Nat
import Mathlib.Tactic.Ring
/-!
# OsTools.Lib.Estimate

Quotients by an estimated divisor. A divisor `d` is replaced by a number `e` a little
smaller; the quotient then is right or one too large, and one comparison of the remainder
tells which.

Nothing here mentions a particular program.
-/

namespace OsTools

variable {n d e : Nat}

/-- A smaller divisor does not lower the quotient. -/
theorem div_le_div_estimate (he : 0 < e) (hle : e ≤ d) : n / d ≤ n / e :=
  Nat.div_le_div_left hle he

/-- The quotient is at most one too large where the divisors differ by little, measured by
the quotient. -/
theorem div_estimate_le (he : 0 < e) (hle : e ≤ d) (hnear : (n / d + 1) * (d - e) ≤ e) :
    n / e ≤ n / d + 1 := by
  have hd : 0 < d := he.trans_le hle
  have hlt : n < (n / d + 1) * d := by
    have := Nat.lt_div_mul_add (a := n) hd
    rw [Nat.add_mul, Nat.one_mul]
    exact this
  -- `(q + 1) d = (q + 1) e + (q + 1) (d - e) ≤ (q + 2) e`
  have hsplit : (n / d + 1) * d = (n / d + 1) * e + (n / d + 1) * (d - e) := by
    rw [← Nat.mul_add, Nat.add_sub_cancel' hle]
  have htwo : n < (n / d + 1 + 1) * e := by
    rw [Nat.add_mul (n / d + 1) 1 e, Nat.one_mul]
    omega
  exact Nat.le_of_lt_succ (Nat.div_lt_of_lt_mul (by rw [Nat.mul_comm]; exact htwo))

/-- The correction of a quotient that is right or one too large. -/
theorem correct_estimate {q : Nat} (hd : 0 < d) (hdn : d ≤ n) (hlo : n / d ≤ q)
    (hhi : q ≤ n / d + 1) :
    1 ≤ q ∧ (q - 1) * d ≤ n ∧ (if n - (q - 1) * d < d then q - 1 else q) = n / d := by
  have hpos : 1 ≤ n / d := (Nat.one_le_div_iff hd).mpr hdn
  have hmul : n / d * d ≤ n := Nat.div_mul_le_self n d
  have hlt : n < n / d * d + d := Nat.lt_div_mul_add hd
  rcases Nat.lt_or_ge (n / d) q with hmore | heq
  · have hq : q - 1 = n / d := by omega
    rw [hq, if_pos (by omega)]
    exact ⟨by omega, hmul, rfl⟩
  · have hq : q = n / d := by omega
    have hone : (q - 1) * d + d = n / d * d := by
      rw [← hq, ← Nat.succ_mul, Nat.succ_eq_add_one, Nat.sub_add_cancel (by omega)]
    rw [if_neg (by omega)]
    exact ⟨by omega, by omega, hq⟩

end OsTools

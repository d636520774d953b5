import OsTools.Kernel.Bitmap
/-!
# OsTools.Threads.FixedPoint

Fixed-point numbers (`threads/fixed-point.h`): an `int` with 16 fractional bits. As on the
machine, an operation on an `int` wraps around and its quotient is truncated toward zero.

The results are equivalences, so that their conditions are exact. Each function is first
computed on integers with a final wrap around (`BitVec.toInt`), and then `bmod_eq_iff` says
for which numbers the wrap around changes nothing.
-/

namespace OsTools.Threads

open Kernel

/-- `FIX_F`. -/
def FIX_F : Int32 := (1 : Int32) <<< 16

def FIX_MAX_INT : Int32 := ((1 : Int32) <<< 16) - 1

def FIX_MIN_INT : Int32 := -FIX_MAX_INT

/-- `fixed_point_t`. -/
structure FixedPoint where
  f : Int32
  deriving DecidableEq

/-- `fix_int`. -/
def fixInt (n : Int32) : Except Stop FixedPoint :=
  if n ≥ FIX_MIN_INT ∧ n ≤ FIX_MAX_INT then .ok ⟨n * FIX_F⟩ else .error .assertion

/-- `fix_frac`. The division of the smallest `int` by `-1` traps. -/
def fixFrac (n d : Int32) : Except Stop FixedPoint :=
  if d = 0 then .error .assertion
  else if n = Int32.minValue ∧ d = -1 then .error .fault
  else if n / d ≥ FIX_MIN_INT ∧ n / d ≤ FIX_MAX_INT then
    .ok ⟨(n.toInt64 * FIX_F.toInt64 / d.toInt64).toInt32⟩
  else .error .assertion

/-- `fix_round`. -/
def fixRound (x : FixedPoint) : Int32 := (x.f + FIX_F / 2) / FIX_F

/-- `fix_trunc`. -/
def fixTrunc (x : FixedPoint) : Int32 := x.f / FIX_F

/-- `fix_compare`. -/
def fixCompare (x y : FixedPoint) : Int32 :=
  if x.f < y.f then -1 else if x.f > y.f then 1 else 0

/-! ### The functions on numbers -/

/-- Division by a power of two, toward zero. -/
theorem tdiv_fixF (a : Int) : a.tdiv 65536 = if 0 ≤ a then a / 65536 else -(-a / 65536) := by
  split_ifs with h
  · exact Int.tdiv_eq_ediv_of_nonneg h
  · rw [← Int.tdiv_eq_ediv_of_nonneg (by omega), Int.neg_tdiv, neg_neg]

/-- `x.f / FIX_F`. -/
theorem toInt_div_fixF (a : Int32) : (a / FIX_F).toInt = a.toInt.tdiv 65536 :=
  Int32.toInt_div_of_ne_right a FIX_F (by decide)

theorem toInt_fixTrunc (x : FixedPoint) : (fixTrunc x).toInt = x.f.toInt.tdiv 65536 :=
  toInt_div_fixF x.f

/-- The sum of `fix_round` wraps around near the top. -/
theorem toInt_fixRound (x : FixedPoint) : (fixRound x).toInt =
    if x.f.toInt < 2 ^ 31 - 2 ^ 15 then (x.f.toInt + 2 ^ 15).tdiv 65536
    else (x.f.toInt + 2 ^ 15 - 2 ^ 32).tdiv 65536 := by
  have hlo := x.f.le_toInt
  have hhi := x.f.toInt_lt
  have hhalf : (FIX_F / 2).toInt = 2 ^ 15 := by decide
  unfold fixRound
  rw [toInt_div_fixF, Int32.toInt_add, hhalf]
  split_ifs with h
  · rw [Int.bmod_eq_of_le (by omega) (by omega)]
  · congr 1
    rw [Int.bmod_def]
    omega

/-- `fix_int` on the numbers that pass its assertion. -/
theorem fixInt_eq_ok {n : Int32} {x : FixedPoint} (h : fixInt n = .ok x) :
    -65535 ≤ n.toInt ∧ n.toInt ≤ 65535 ∧ x.f.toInt = (n.toInt * 2 ^ 16).bmod (2 ^ 32) := by
  unfold fixInt at h
  split_ifs at h with hn
  cases h
  have hlo := Int32.le_iff_toInt_le.mp hn.1
  have hhi := Int32.le_iff_toInt_le.mp hn.2
  exact ⟨hlo, hhi, Int32.toInt_mul n FIX_F⟩

/-- `fix_frac` on the numbers that pass its assertions. The quotient is exact in 64 bits, and
cut off to 32. -/
theorem fixFrac_eq_ok {n d : Int32} {x : FixedPoint} (h : fixFrac n d = .ok x) :
    d.toInt ≠ 0 ∧ x.f.toInt = ((n.toInt * 2 ^ 16).tdiv d.toInt).bmod (2 ^ 32) := by
  have hlo := n.le_toInt
  have hhi := n.toInt_lt
  unfold fixFrac at h
  split_ifs at h with hd hmin hn
  cases h
  have hd : d.toInt ≠ 0 := fun hzero => hd (Int32.toInt_inj.mp hzero)
  have hprod : (n.toInt64 * FIX_F.toInt64).toInt = n.toInt * 2 ^ 16 := by
    have hf : FIX_F.toInt64.toInt = 2 ^ 16 := by decide
    rw [Int64.toInt_mul, Int32.toInt_toInt64, hf]
    exact Int.bmod_eq_of_le (by omega) (by omega)
  refine ⟨hd, ?_⟩
  rw [Int64.toInt_toInt32, Int64.toInt_div, hprod, Int32.toInt_toInt64]
  exact Int.bmod_bmod_of_dvd (by decide)

/-- A signed word of 32 bits represents the numbers of its range only. -/
theorem bmod_eq_iff (a : Int) : a.bmod (2 ^ 32) = a ↔ -2 ^ 31 ≤ a ∧ a < 2 ^ 31 := by
  rw [Int.bmod_def]
  split_ifs <;> omega

/-- The range of a quotient, in terms of dividend and divisor. -/
theorem tdiv_range_iff (n : Int) {d : Int} (hd : d ≠ 0) (lo hi : Nat) (hhi : 0 < hi) :
    (-(lo : Int) ≤ n.tdiv d ∧ n.tdiv d < hi) ↔
      -((lo : Int) + 1) * d.natAbs < n * d.sign ∧ n * d.sign < hi * d.natAbs := by
  have hpos : 0 < (d.natAbs : Int) := by omega
  have heq : n.tdiv d = (n * d.sign).tdiv d.natAbs := by
    rcases Int.lt_or_gt_of_ne hd with hneg | hpos'
    · rw [Int.sign_eq_neg_one_of_neg hneg, Int.ofNat_natAbs_of_nonpos hneg.le, Int.mul_neg,
        Int.mul_one, Int.neg_tdiv, Int.tdiv_neg, neg_neg]
    · rw [Int.sign_eq_one_of_pos hpos', Int.mul_one, Int.natAbs_of_nonneg hpos'.le]
  rw [heq]
  generalize n * d.sign = m
  generalize (d.natAbs : Int) = c at hpos
  rcases Int.le_total 0 m with hm | hm
  · -- the quotient is not negative
    have hquot : 0 ≤ m.tdiv c := Int.tdiv_nonneg hm hpos.le
    have hlow : -((lo : Int) + 1) * c < 0 := Int.mul_neg_of_neg_of_pos (by omega) hpos
    rw [Int.tdiv_eq_ediv_of_nonneg hm] at hquot ⊢
    rw [Int.ediv_lt_iff_lt_mul hpos]
    exact ⟨fun h => ⟨by omega, h.2⟩, fun h => ⟨by omega, h.2⟩⟩
  · have hquot : 0 ≤ (-m).tdiv c := Int.tdiv_nonneg (by omega) hpos.le
    have hhigh : 0 < (hi : Int) * c := Int.mul_pos (by omega) hpos
    have hflip : m.tdiv c = -((-m) / c) := by
      rw [← Int.tdiv_eq_ediv_of_nonneg (by omega), Int.neg_tdiv, neg_neg]
    rw [Int.tdiv_eq_ediv_of_nonneg (by omega)] at hquot
    have hbound : (-m) / c < (lo : Int) + 1 ↔ -m < ((lo : Int) + 1) * c :=
      Int.ediv_lt_iff_lt_mul hpos
    have hneg : -((lo : Int) + 1) * c = -(((lo : Int) + 1) * c) := Int.neg_mul _ _
    rw [hflip, hneg]
    exact ⟨fun h => ⟨by have := hbound.mp (by omega); omega, by omega⟩,
      fun h => ⟨by have := hbound.mpr (by omega); omega, by omega⟩⟩

/-! ### The results -/

/-- **Conversions to fixed point.** For all numbers that pass the assertions: `fix_int` is exact
exactly below `2 ^ 15`, where `fix_trunc` gives the number back; `fix_round` gives it back
exactly if it is not negative as well; `fix_frac` is exact exactly where the quotient is a signed
number of 16 bits and its fraction. -/
theorem fix_exact_iff (n d : Int32) (x : FixedPoint) :
    (fixInt n = .ok x →
      (x.f.toInt = n.toInt * 2 ^ 16 ↔ -2 ^ 15 ≤ n.toInt ∧ n.toInt < 2 ^ 15) ∧
      (fixTrunc x = n ↔ -2 ^ 15 ≤ n.toInt ∧ n.toInt < 2 ^ 15) ∧
      (fixRound x = n ↔ 0 ≤ n.toInt ∧ n.toInt < 2 ^ 15)) ∧
    (fixFrac n d = .ok x →
      (x.f.toInt = (n.toInt * 2 ^ 16).tdiv d.toInt ↔
        -(2 ^ 31 + 1) * (d.toInt.natAbs : Int) < n.toInt * 2 ^ 16 * d.toInt.sign ∧
          n.toInt * 2 ^ 16 * d.toInt.sign < 2 ^ 31 * d.toInt.natAbs)) := by
  refine ⟨fun h => ?_, fun h => ?_⟩
  · obtain ⟨hlo, hhi, hf⟩ := fixInt_eq_ok h
    have hf' : x.f.toInt = n.toInt * 2 ^ 16 ∧ -2 ^ 15 ≤ n.toInt ∧ n.toInt < 2 ^ 15 ∨
        x.f.toInt = n.toInt * 2 ^ 16 - 2 ^ 32 ∧ 2 ^ 15 ≤ n.toInt ∨
        x.f.toInt = n.toInt * 2 ^ 16 + 2 ^ 32 ∧ n.toInt < -2 ^ 15 := by
      rw [hf, Int.bmod_def]
      split_ifs <;> omega
    rw [← Int32.toInt_inj (x := fixTrunc x), ← Int32.toInt_inj (x := fixRound x), toInt_fixTrunc,
      toInt_fixRound, tdiv_fixF, tdiv_fixF, tdiv_fixF]
    refine ⟨by omega, ?_, ?_⟩
    · split_ifs <;> omega
    · split_ifs <;> omega
  · obtain ⟨hd, hf⟩ := fixFrac_eq_ok h
    rw [hf, bmod_eq_iff]
    exact tdiv_range_iff (n.toInt * 2 ^ 16) hd (2 ^ 31) (2 ^ 31) (by decide)

theorem fix_exact_iff_third : ∃ x y, fixInt (-3) = .ok x ∧ fixFrac 1 (-3) = .ok y ∧
    (fixRound x = -3 ↔ 0 ≤ (-3 : Int) ∧ (-3 : Int) < 2 ^ 15) ∧
    (y.f.toInt = (1 * 2 ^ 16 : Int).tdiv (-3) ↔
      -(2 ^ 31 + 1) * ((-3 : Int).natAbs : Int) < 1 * 2 ^ 16 * (-3 : Int).sign ∧
        1 * 2 ^ 16 * (-3 : Int).sign < 2 ^ 31 * (-3 : Int).natAbs) :=
  ⟨⟨-196608⟩, ⟨-21845⟩, rfl, rfl, ((fix_exact_iff (-3) 1 _).1 rfl).2.2,
    (fix_exact_iff 1 (-3) _).2 rfl⟩

/-- Numbers that pass the assertions: the integer and the fraction overflow, and a negative
integer is not rounded to itself. -/
theorem fix_inexact : (∃ x, fixInt 32768 = .ok x ∧ ¬ x.f.toInt = 32768 * 2 ^ 16) ∧
    (∃ x, fixFrac 65535 1 = .ok x ∧ ¬ x.f.toInt = (65535 * 2 ^ 16 : Int).tdiv 1) ∧
    ∃ x, fixInt (-1) = .ok x ∧ fixTrunc x = -1 ∧ ¬ fixRound x = -1 := by
  exact ⟨⟨⟨-2147483648⟩, rfl, by decide⟩, ⟨⟨-65536⟩, rfl, by decide⟩,
    ⟨⟨-65536⟩, rfl, by decide, by decide⟩⟩

/-- `fix_round` returns a nearest integer. -/
def NearestInt (x : FixedPoint) (n : Int32) : Prop :=
  (n.toInt * 2 ^ 16 - x.f.toInt).natAbs ≤ 2 ^ 15

/-- **Rounding.** For all fixed-point numbers: `fix_round` returns a nearest integer exactly from
`-1/2` on and below the top half, and below `-1/2` only halfway between two integers; it keeps
the order of `fix_compare` exactly where not only the sum for the larger number wraps around,
the smallest numbers apart. -/
theorem fix_round_iff (x y : FixedPoint) :
    (NearestInt x (fixRound x) ↔
      (-2 ^ 15 ≤ x.f.toInt ∧ x.f.toInt < 2 ^ 31 - 2 ^ 15) ∨
        (x.f.toInt < -2 ^ 15 ∧ x.f.toInt % 2 ^ 16 = 2 ^ 15)) ∧
    ((fixCompare x y = -1 → fixRound x ≤ fixRound y) ↔
      (x.f.toInt < y.f.toInt → y.f.toInt < 2 ^ 31 - 2 ^ 15 ∨ 2 ^ 31 - 2 ^ 15 ≤ x.f.toInt ∨
        (x.f.toInt ≤ -2 ^ 31 + 2 ^ 15 ∧ 2 ^ 31 - 2 ^ 15 < y.f.toInt))) := by
  have hxlo := x.f.le_toInt
  have hxhi := x.f.toInt_lt
  have hylo := y.f.le_toInt
  have hyhi := y.f.toInt_lt
  have hx := toInt_fixRound x
  have hy := toInt_fixRound y
  rw [tdiv_fixF, tdiv_fixF] at hx hy
  constructor
  · unfold NearestInt
    split_ifs at hx <;> omega
  · have hless : fixCompare x y = -1 ↔ x.f.toInt < y.f.toInt := by
      unfold fixCompare
      rw [← Int32.lt_iff_toInt_lt]
      split_ifs with h₁ h₂
      · exact ⟨fun _ => h₁, fun _ => rfl⟩
      · exact ⟨fun h => absurd h (by decide), fun h => absurd h h₁⟩
      · exact ⟨fun h => absurd h (by decide), fun h => absurd h h₁⟩
    rw [hless, Int32.le_iff_toInt_le]
    split_ifs at hx hy <;> omega

/-- `-1.0` is rounded to `0`, and `32767.5`, which lies above `-32767.5`, to `-32768`. -/
theorem fix_round_off : ¬ NearestInt ⟨-65536⟩ (fixRound ⟨-65536⟩) ∧
    fixCompare ⟨-2147450880⟩ ⟨2147450880⟩ = -1 ∧
    ¬ fixRound ⟨-2147450880⟩ ≤ fixRound ⟨2147450880⟩ := by
  unfold NearestInt
  decide

end OsTools.Threads

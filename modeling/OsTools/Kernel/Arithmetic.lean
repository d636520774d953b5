import OsTools.Kernel.Bitmap
import OsTools.Lib.Estimate
/-!
# OsTools.Kernel.Arithmetic

Division of 64-bit numbers with the 32-bit instruction `divl` (`lib/arithmetic.c`). The
types are those of the code: an operation wraps around, and a conversion cuts off, as it
does on the machine. The instruction traps where its quotient does not fit; the trap is an
error here, so that a function that returns has executed none that traps.

## Proof shape

A divisor of one digit is long division (`div_digits`): the second `divl` gets the remainder
of the first, which is less than the divisor, so that its quotient fits. A larger divisor is
shifted until its highest bit is at the top, and the quotient is estimated with its top
digit. That the estimate is right or too large by one is a fact about numbers
(`OsTools.Lib.Estimate`), which `estimate_spec` applies; the code takes one off and corrects
upwards, so that it ends with the quotient.

`nlz` is a sequence of tests with one invariant (`Shifted`). The signed functions compute
with the absolute values, of which that of the smallest number is an unsigned word too
(`toNat_abs`).
-/

namespace OsTools.Kernel

/-! ### The functions -/

/-- `divl`. -/
def divl (n : UInt64) (d : UInt32) : Except Stop UInt32 :=
  if d = 0 then .error .fault
  else if n / d.toUInt64 < (1 : UInt64) <<< 32 then .ok (n / d.toUInt64).toUInt32
  else .error .fault

/-- One of the tests of `nlz`, on the count and the shifted number. -/
def nlzStep (limit : UInt32) (bits : Nat) (s : Nat × UInt32) : Nat × UInt32 :=
  if s.2 ≤ limit then (s.1 + bits, s.2 <<< UInt32.ofNat bits) else s

/-- `nlz`. -/
def nlz (x : UInt32) : Nat :=
  let s := (0, x)
  let s := nlzStep 0x0000FFFF 16 s
  let s := nlzStep 0x00FFFFFF 8 s
  let s := nlzStep 0x0FFFFFFF 4 s
  let s := nlzStep 0x3FFFFFFF 2 s
  if s.2 ≤ 0x7FFFFFFF then s.1 + 1 else s.1

/-- `udiv64`. -/
def udiv64 (n d : UInt64) : Except Stop UInt64 :=
  if d >>> 32 = 0 then do
    let b := (1 : UInt64) <<< 32
    let n1 := (n >>> 32).toUInt32
    let n0 := n.toUInt32
    let d0 := d.toUInt32
    let q ← divl (b * (n1 % d0).toUInt64 + n0.toUInt64) d0
    .ok (q.toUInt64 + b * (n1 / d0).toUInt64)
  else if n < d then .ok 0
  else do
    let d1 := (d >>> 32).toUInt32
    let s := nlz d1
    let q ← divl (n >>> 1) ((d <<< UInt64.ofNat s) >>> 32).toUInt32
    let q := (q >>> UInt32.ofNat (31 - s)).toUInt64
    .ok (if n - (q - 1) * d < d then q - 1 else q)

/-- `umod64`, which returns an `uint32_t`. -/
def umod64 (n d : UInt64) : Except Stop UInt32 := do
  let q ← udiv64 n d
  .ok (n - d * q).toUInt32

/-- `sdiv64`. -/
def sdiv64 (n d : Int64) : Except Stop Int64 := do
  let nAbs := if n ≥ 0 then n.toUInt64 else -n.toUInt64
  let dAbs := if d ≥ 0 then d.toUInt64 else -d.toUInt64
  let qAbs ← udiv64 nAbs dAbs
  .ok (if (n < 0) = (d < 0) then qAbs.toInt64 else -qAbs.toInt64)

/-- `smod64`, which returns an `int32_t`. -/
def smod64 (n d : Int64) : Except Stop Int32 := do
  let q ← sdiv64 n d
  .ok (n - d * q).toInt32

/-- `__divdi3`. -/
def divdi3 (n d : Int64) : Except Stop Int64 := sdiv64 n d

/-- `__moddi3`. -/
def moddi3 (n d : Int64) : Except Stop Int64 := do
  let r ← smod64 n d
  .ok r.toInt64

/-- `__udivdi3`. -/
def udivdi3 (n d : UInt64) : Except Stop UInt64 := udiv64 n d

/-- `__umoddi3`. -/
def umoddi3 (n d : UInt64) : Except Stop UInt64 := do
  let r ← umod64 n d
  .ok r.toUInt64

/-! ### `divl` and `nlz` -/

/-- The instruction does not trap where the quotient fits. -/
theorem divl_spec {n : UInt64} {d : UInt32} (hd : 0 < d.toNat) (hfit : n.toNat / d.toNat < 2 ^ 32) :
    ∃ q, divl n d = .ok q ∧ q.toNat = n.toNat / d.toNat := by
  have hzero : d ≠ 0 := by
    rintro rfl
    exact absurd hd (by decide)
  have hquot : (n / d.toUInt64).toNat = n.toNat / d.toNat := by
    rw [UInt64.toNat_div, UInt32.toNat_toUInt64]
  have hlt : n / d.toUInt64 < (1 : UInt64) <<< 32 := by
    rw [UInt64.lt_iff_toNat_lt, hquot]
    exact hfit
  refine ⟨(n / d.toUInt64).toUInt32, ?_, ?_⟩
  · unfold divl
    rw [if_neg hzero, if_pos hlt]
  · rw [UInt64.toNat_toUInt32, hquot, Nat.mod_eq_of_lt hfit]

/-- Between two tests of `nlz` the number `x₀` is shifted by the count, and its top bits are
known not to be all clear. -/
structure Shifted (x₀ : Nat) (bits : Nat) (s : Nat × UInt32) : Prop where
  shifted : s.2.toNat = x₀ * 2 ^ s.1
  top : 2 ^ (32 - bits) ≤ s.2.toNat

/-- A step of `nlz` shifts by `bits` if the number is small enough for that, and then half of
the bits are left to be found out. -/
theorem Shifted.step {x₀ bits : Nat} {s : Nat × UInt32} {limit : UInt32}
    (hs : Shifted x₀ (2 * bits) s) (hbits : 2 * bits ≤ 32)
    (hlimit : limit.toNat + 1 = 2 ^ (32 - bits)) : Shifted x₀ bits (nlzStep limit bits s) := by
  unfold nlzStep
  by_cases hle : s.2 ≤ limit
  · have hle' : s.2.toNat < 2 ^ (32 - bits) := by
      have := UInt32.le_iff_toNat_le.mp hle
      omega
    have hshift : (s.2 <<< UInt32.ofNat bits).toNat = s.2.toNat * 2 ^ bits := by
      have hsmall : (UInt32.ofNat bits).toNat % 32 = bits := by
        rw [UInt32.toNat_ofNat']
        omega
      rw [UInt32.toNat_shiftLeft, hsmall, Nat.shiftLeft_eq]
      refine Nat.mod_eq_of_lt ?_
      calc s.2.toNat * 2 ^ bits < 2 ^ (32 - bits) * 2 ^ bits :=
            Nat.mul_lt_mul_of_pos_right hle' (Nat.two_pow_pos bits)
        _ = 2 ^ 32 := by rw [← Nat.pow_add, Nat.sub_add_cancel (by omega)]
    rw [if_pos hle]
    refine ⟨?_, ?_⟩
    · rw [hshift, hs.shifted, Nat.mul_assoc, ← Nat.pow_add]
    · rw [hshift]
      calc 2 ^ (32 - bits) = 2 ^ (32 - 2 * bits) * 2 ^ bits := by
            rw [← Nat.pow_add]
            congr 1
            omega
        _ ≤ s.2.toNat * 2 ^ bits := Nat.mul_le_mul_right _ hs.top
  · rw [if_neg hle]
    refine ⟨hs.shifted, ?_⟩
    have := mt UInt32.le_iff_toNat_le.mpr hle
    omega

/-- `nlz` shifts the highest set bit to the top. -/
theorem nlz_spec {x : UInt32} (hx : 0 < x.toNat) :
    2 ^ 31 ≤ x.toNat * 2 ^ nlz x ∧ x.toNat * 2 ^ nlz x < 2 ^ 32 := by
  have h₀ : Shifted x.toNat (2 * 16) (0, x) := ⟨by rw [pow_zero, Nat.mul_one], hx⟩
  have h₁ : Shifted x.toNat (2 * 8) (nlzStep 0x0000FFFF 16 _) := h₀.step (by decide) (by decide)
  have h₂ : Shifted x.toNat (2 * 4) (nlzStep 0x00FFFFFF 8 _) := h₁.step (by decide) (by decide)
  have h₃ : Shifted x.toNat (2 * 2) (nlzStep 0x0FFFFFFF 4 _) := h₂.step (by decide) (by decide)
  have h₄ : Shifted x.toNat 2 (nlzStep 0x3FFFFFFF 2 _) := h₃.step (by decide) (by decide)
  unfold nlz
  dsimp only
  generalize nlzStep 0x3FFFFFFF 2 _ = s at h₄ ⊢
  have hlt := s.2.toNat_lt
  have htop := h₄.top
  split_ifs with hle
  · have hle := UInt32.le_iff_toNat_le.mp hle
    have hle : s.2.toNat ≤ 0x7FFFFFFF := hle
    have hdouble : x.toNat * 2 ^ (s.1 + 1) = s.2.toNat * 2 := by
      rw [h₄.shifted, Nat.pow_succ, Nat.mul_assoc]
    rw [hdouble]
    omega
  · have hle := mt UInt32.le_iff_toNat_le.mpr hle
    have hle : ¬ s.2.toNat ≤ 0x7FFFFFFF := hle
    rw [← h₄.shifted]
    omega

/-! ### `udiv64` -/

/-- Long division by one digit: the remainder of the high digit is carried over. -/
theorem div_digits (b n₁ n₀ d : Nat) (hd : 0 < d) :
    (b * (n₁ % d) + n₀) / d + b * (n₁ / d) = (b * n₁ + n₀) / d := by
  have hsplit : b * n₁ + n₀ = d * (b * (n₁ / d)) + (b * (n₁ % d) + n₀) := by
    calc b * n₁ + n₀ = b * (d * (n₁ / d) + n₁ % d) + n₀ := by rw [Nat.div_add_mod]
      _ = d * (b * (n₁ / d)) + (b * (n₁ % d) + n₀) := by ring
  rw [hsplit, Nat.mul_add_div hd, Nat.add_comm]

theorem toNat_shiftRight_half (x : UInt64) : (x >>> 32).toNat = x.toNat / 2 ^ 32 := by
  rw [UInt64.toNat_shiftRight]
  exact Nat.shiftRight_eq_div_pow _ _

theorem toNat_highDigit (x : UInt64) : (x >>> 32).toUInt32.toNat = x.toNat / 2 ^ 32 := by
  have := x.toNat_lt
  rw [UInt64.toNat_toUInt32, toNat_shiftRight_half]
  omega

/-- A divisor of one digit. -/
theorem udiv64_small {n d : UInt64} (hd : 0 < d.toNat) (hsmall : d.toNat < 2 ^ 32) :
    ∃ q, udiv64 n d = .ok q ∧ q.toNat = n.toNat / d.toNat := by
  have hn := n.toNat_lt
  have hhigh : d >>> 32 = 0 := by
    rw [← UInt64.toNat_inj, toNat_shiftRight_half]
    exact Nat.div_eq_of_lt hsmall
  have hd₀ : d.toUInt32.toNat = d.toNat := by
    rw [UInt64.toNat_toUInt32, Nat.mod_eq_of_lt hsmall]
  have hb : ((1 : UInt64) <<< 32).toNat = 2 ^ 32 := by decide
  have hlt := Nat.mod_lt (n.toNat / 2 ^ 32) hd
  have hcarry : (((1 : UInt64) <<< 32) * ((n >>> 32).toUInt32 % d.toUInt32).toUInt64 +
      n.toUInt32.toUInt64).toNat = 2 ^ 32 * (n.toNat / 2 ^ 32 % d.toNat) + n.toNat % 2 ^ 32 := by
    rw [UInt64.toNat_add, UInt64.toNat_mul, hb, UInt32.toNat_toUInt64, UInt32.toNat_toUInt64,
      UInt32.toNat_mod, toNat_highDigit, hd₀, UInt64.toNat_toUInt32]
    omega
  obtain ⟨q, hq, hqval⟩ := divl_spec (d := d.toUInt32)
    (n := ((1 : UInt64) <<< 32) * ((n >>> 32).toUInt32 % d.toUInt32).toUInt64 + n.toUInt32.toUInt64)
    (by rw [hd₀]; exact hd) (by
      rw [hcarry, hd₀]
      refine Nat.div_lt_of_lt_mul ?_
      have hmul : 2 ^ 32 * (n.toNat / 2 ^ 32 % d.toNat) + 2 ^ 32 ≤ 2 ^ 32 * d.toNat := by omega
      rw [Nat.mul_comm d.toNat]
      omega)
  rw [hcarry, hd₀] at hqval
  have hdiv := div_digits (2 ^ 32) (n.toNat / 2 ^ 32) (n.toNat % 2 ^ 32) d.toNat hd
  rw [Nat.div_add_mod] at hdiv
  have hle : n.toNat / d.toNat ≤ n.toNat := Nat.div_le_self _ _
  refine ⟨q.toUInt64 + ((1 : UInt64) <<< 32) * ((n >>> 32).toUInt32 / d.toUInt32).toUInt64, ?_, ?_⟩
  · unfold udiv64
    rw [if_pos hhigh]
    dsimp only
    rw [hq, ok_bind]
  · rw [UInt64.toNat_add, UInt64.toNat_mul, hb, UInt32.toNat_toUInt64, UInt32.toNat_toUInt64,
      UInt32.toNat_div, toNat_highDigit, hd₀, hqval, ← hdiv]
    omega

/-- The divisor that is estimated from the top digit of a shifted divisor. -/
def estimate (d s : Nat) : Nat := d * 2 ^ s / 2 ^ 32 * 2 ^ (32 - s)

/-- The estimate is close enough for a dividend of two digits. It leaves out the low digits of
the divisor, which are less than `2 ^ (32 - s)`, and the quotient is less than `2 * 2 ^ s`,
since the divisor has its highest bit that far up; the product of the two bounds is less than
the estimate. -/
theorem estimate_spec {n d s : Nat} (hn : n < 2 ^ 64) (hs : s ≤ 31) (hlo : 2 ^ 63 ≤ d * 2 ^ s) :
    0 < estimate d s ∧ estimate d s ≤ d ∧ (n / d + 1) * (d - estimate d s) ≤ estimate d s := by
  obtain ⟨e, he⟩ : ∃ e, estimate d s = e := ⟨_, rfl⟩
  obtain ⟨t, ht⟩ : ∃ t, d * 2 ^ s / 2 ^ 32 = t := ⟨_, rfl⟩
  have hpow : 2 ^ s * 2 ^ (32 - s) = 2 ^ 32 := by
    rw [← Nat.pow_add, Nat.add_sub_cancel' (by omega)]
  have hpos : 0 < 2 ^ s := Nat.two_pow_pos s
  have heq : e = t * 2 ^ (32 - s) := by
    rw [← he, ← ht]
    rfl
  have hscaled : e * 2 ^ s = t * 2 ^ 32 := by
    rw [heq, Nat.mul_assoc, Nat.mul_comm (2 ^ (32 - s)), hpow]
  have htop : 2 ^ 31 ≤ t := by omega
  have hge : 2 ^ 31 * 2 ^ (32 - s) ≤ e := by
    rw [heq]
    exact Nat.mul_le_mul_right _ htop
  -- `e ≤ d < e + 2 ^ (32 - s)`, from the digits that the estimate leaves out
  have hle : e ≤ d := by
    refine Nat.le_of_mul_le_mul_right ?_ hpos
    rw [hscaled]
    omega
  have hnear : d < e + 2 ^ (32 - s) := by
    refine Nat.lt_of_mul_lt_mul_right (a := 2 ^ s) ?_
    rw [Nat.add_mul, hscaled, Nat.mul_comm (2 ^ (32 - s)), hpow]
    omega
  -- the quotient is small where the divisor is large
  have hquot : n / d < 2 * 2 ^ s := by
    refine Nat.div_lt_of_lt_mul ?_
    calc n < 2 ^ 64 := hn
      _ = 2 ^ 63 * 2 := rfl
      _ ≤ d * 2 ^ s * 2 := Nat.mul_le_mul_right _ hlo
      _ = d * (2 * 2 ^ s) := by ring
  have hbase : 2 ≤ 2 ^ (32 - s) := by
    calc 2 = 2 ^ 1 := rfl
      _ ≤ 2 ^ (32 - s) := Nat.pow_le_pow_right (by decide) (by omega)
  rw [he]
  refine ⟨?_, hle, ?_⟩
  · calc 0 < 2 ^ 31 * 2 ^ (32 - s) := Nat.mul_pos (by decide) (by omega)
      _ ≤ e := hge
  · calc (n / d + 1) * (d - e) ≤ 2 * 2 ^ s * (2 ^ (32 - s) - 1) :=
          Nat.mul_le_mul (by omega) (by omega)
      _ = 2 * 2 ^ 32 - 2 * 2 ^ s := by
          rw [Nat.mul_sub, Nat.mul_one, Nat.mul_assoc, hpow]
      _ ≤ 2 ^ 31 * 2 ^ (32 - s) := by
          rcases Nat.lt_or_ge s 31 with hs' | hs'
          · have hfour : 2 ^ 2 ≤ 2 ^ (32 - s) := Nat.pow_le_pow_right (by decide) (by omega)
            omega
          · have h31 : s = 31 := by omega
            subst h31
            decide
      _ ≤ e := hge

/-- The instruction's quotient, shifted, is that by the estimated divisor. -/
theorem div_estimate_eq (n d : Nat) {s : Nat} (hs : s ≤ 31) :
    n / 2 / (d * 2 ^ s / 2 ^ 32) / 2 ^ (31 - s) = n / estimate d s := by
  have hstep : 2 ^ (32 - s) = 2 * 2 ^ (31 - s) := by
    rw [← Nat.pow_succ', Nat.succ_eq_add_one, ← Nat.sub_add_comm hs]
  have hprod : 2 * (d * 2 ^ s / 2 ^ 32 * 2 ^ (31 - s)) = estimate d s := by
    unfold estimate
    rw [hstep, Nat.mul_left_comm]
  rw [Nat.div_div_eq_div_mul, Nat.div_div_eq_div_mul, hprod]

/-- A divisor of two digits shifted to the top. -/
theorem nlz_normalizes {d : UInt64} (hlarge : 2 ^ 32 ≤ d.toNat) {s : Nat}
    (hs : nlz (d >>> 32).toUInt32 = s) :
    s ≤ 31 ∧ 2 ^ 63 ≤ d.toNat * 2 ^ s ∧ d.toNat * 2 ^ s < 2 ^ 64 := by
  obtain ⟨htop, hfit⟩ := nlz_spec (x := (d >>> 32).toUInt32) (by rw [toNat_highDigit]; omega)
  rw [toNat_highDigit, hs] at htop hfit
  obtain ⟨d₁, hd₁⟩ : ∃ d₁, d.toNat / 2 ^ 32 = d₁ := ⟨_, rfl⟩
  rw [hd₁] at htop hfit
  have hs31 : s ≤ 31 := by
    by_contra hno
    have hpow : 2 ^ 32 ≤ 2 ^ s := Nat.pow_le_pow_right (by decide) (by omega)
    have hone : 1 * 2 ^ s ≤ d₁ * 2 ^ s := Nat.mul_le_mul_right _ (by omega)
    omega
  have hpow : 2 ^ (32 - s) * 2 ^ s = 2 ^ 32 := by
    rw [← Nat.pow_add, Nat.sub_add_cancel (by omega)]
  have hdigit : d₁ < 2 ^ (32 - s) := by
    refine Nat.lt_of_mul_lt_mul_right (a := 2 ^ s) ?_
    rw [hpow]
    exact hfit
  have hlow : d₁ * 2 ^ 32 ≤ d.toNat := by omega
  have hhigh : d.toNat < 2 ^ (32 - s) * 2 ^ 32 := by omega
  refine ⟨hs31, ?_, ?_⟩
  · calc 2 ^ 63 = 2 ^ 31 * 2 ^ 32 := by rw [← Nat.pow_add]
      _ ≤ d₁ * 2 ^ s * 2 ^ 32 := Nat.mul_le_mul_right _ htop
      _ = d₁ * 2 ^ 32 * 2 ^ s := by rw [Nat.mul_right_comm]
      _ ≤ d.toNat * 2 ^ s := Nat.mul_le_mul_right _ hlow
  · calc d.toNat * 2 ^ s < 2 ^ (32 - s) * 2 ^ 32 * 2 ^ s :=
          Nat.mul_lt_mul_of_pos_right hhigh (Nat.two_pow_pos s)
      _ = 2 ^ 32 * 2 ^ 32 := by rw [Nat.mul_right_comm, hpow]
      _ = 2 ^ 64 := by rw [← Nat.pow_add]

/-- The estimated quotient, with an instruction that does not trap. -/
theorem divl_estimate {n d : UInt64} {s : Nat} (hs : s ≤ 31) (hlo : 2 ^ 63 ≤ d.toNat * 2 ^ s)
    (hhi : d.toNat * 2 ^ s < 2 ^ 64) :
    ∃ q, divl (n >>> 1) ((d <<< UInt64.ofNat s) >>> 32).toUInt32 = .ok q ∧
      (q >>> UInt32.ofNat (31 - s)).toUInt64.toNat = n.toNat / estimate d.toNat s := by
  have hn := n.toNat_lt
  have hdividend : (n >>> 1).toNat = n.toNat / 2 := by
    rw [UInt64.toNat_shiftRight]
    exact Nat.shiftRight_eq_div_pow _ _
  have hsmod : (UInt64.ofNat s).toNat % 64 = s := by
    rw [UInt64.toNat_ofNat']
    omega
  have hdivisor : ((d <<< UInt64.ofNat s) >>> 32).toUInt32.toNat = d.toNat * 2 ^ s / 2 ^ 32 := by
    rw [toNat_highDigit, UInt64.toNat_shiftLeft, hsmod, Nat.shiftLeft_eq, Nat.mod_eq_of_lt hhi]
  obtain ⟨t, ht⟩ : ∃ t, d.toNat * 2 ^ s / 2 ^ 32 = t := ⟨_, rfl⟩
  have htop : 2 ^ 31 ≤ t := by omega
  obtain ⟨q, hq, hqval⟩ := divl_spec (n := n >>> 1)
    (d := ((d <<< UInt64.ofNat s) >>> 32).toUInt32) (by rw [hdivisor, ht]; omega) (by
      rw [hdividend, hdivisor, ht]
      refine Nat.div_lt_of_lt_mul ?_
      calc n.toNat / 2 < 2 ^ 31 * 2 ^ 32 := by omega
        _ ≤ t * 2 ^ 32 := Nat.mul_le_mul_right _ htop)
  refine ⟨q, hq, ?_⟩
  have hmod : (UInt32.ofNat (31 - s)).toNat % 32 = 31 - s := by
    rw [UInt32.toNat_ofNat']
    omega
  rw [UInt32.toNat_toUInt64, UInt32.toNat_shiftRight, hmod, Nat.shiftRight_eq_div_pow, hqval,
    hdividend, hdivisor, div_estimate_eq n.toNat d.toNat hs]

/-- A divisor of two digits, no larger than the dividend. `divl` gives the estimated quotient,
`correct_estimate` says that one comparison puts it right, and the products and differences of
the comparison stay within 64 bits. -/
theorem udiv64_large {n d : UInt64} (hlarge : 2 ^ 32 ≤ d.toNat) (hle : d.toNat ≤ n.toNat) :
    ∃ q, udiv64 n d = .ok q ∧ q.toNat = n.toNat / d.toNat := by
  have hn := n.toNat_lt
  have hhigh : ¬ d >>> 32 = 0 := by
    rw [← UInt64.toNat_inj, toNat_shiftRight_half]
    change ¬ d.toNat / 2 ^ 32 = 0
    omega
  have hless : ¬ n < d := by
    rw [UInt64.lt_iff_toNat_lt]
    omega
  obtain ⟨s, hs⟩ : ∃ s, nlz (d >>> 32).toUInt32 = s := ⟨_, rfl⟩
  obtain ⟨hs31, hlo, hhi⟩ := nlz_normalizes hlarge hs
  obtain ⟨q₀, hq₀, hq⟩ := divl_estimate (n := n) hs31 hlo hhi
  obtain ⟨hpos, hsmaller, hnear⟩ := estimate_spec hn hs31 hlo
  obtain ⟨hone, hmul, hcorrect⟩ := correct_estimate (by omega) hle
    (div_le_div_estimate (n := n.toNat) hpos hsmaller) (div_estimate_le hpos hsmaller hnear)
  obtain ⟨q, hqdef⟩ : ∃ q, (q₀ >>> UInt32.ofNat (31 - s)).toUInt64 = q := ⟨_, rfl⟩
  rw [hqdef] at hq
  rw [← hq] at hone hmul hcorrect
  -- `q - 1` and the remainder with it do not wrap around
  have hpred : (q - 1).toNat = q.toNat - 1 := by
    have hqlt := q.toNat_lt
    rw [UInt64.toNat_sub]
    change (2 ^ 64 - 1 + q.toNat) % 2 ^ 64 = _
    omega
  have hrem : (n - (q - 1) * d).toNat = n.toNat - (q.toNat - 1) * d.toNat := by
    obtain ⟨t, ht⟩ : ∃ t, (q.toNat - 1) * d.toNat = t := ⟨_, rfl⟩
    rw [ht] at hmul
    rw [UInt64.toNat_sub, UInt64.toNat_mul, hpred, ht]
    omega
  refine ⟨if n - (q - 1) * d < d then q - 1 else q, ?_, ?_⟩
  · unfold udiv64
    rw [if_neg hhigh, if_neg hless]
    dsimp only
    rw [hs, hq₀, ok_bind, hqdef]
  · have hcond : n - (q - 1) * d < d ↔ n.toNat - (q.toNat - 1) * d.toNat < d.toNat := by
      rw [UInt64.lt_iff_toNat_lt, hrem]
    rw [← hcorrect]
    by_cases hmore : n - (q - 1) * d < d
    · rw [if_pos hmore, if_pos (hcond.mp hmore)]
      exact hpred
    · rw [if_neg hmore, if_neg (mt hcond.mpr hmore)]

/-- `udiv64` executes no instruction that traps and returns the quotient. -/
theorem udiv64_spec {n d : UInt64} (hd : d ≠ 0) :
    ∃ q, udiv64 n d = .ok q ∧ q.toNat = n.toNat / d.toNat := by
  have hpos : 0 < d.toNat := by
    refine Nat.pos_of_ne_zero fun hzero => hd ?_
    rw [← UInt64.toNat_inj, hzero]
    rfl
  rcases Nat.lt_or_ge d.toNat (2 ^ 32) with hsmall | hlarge
  · exact udiv64_small hpos hsmall
  rcases Nat.lt_or_ge n.toNat d.toNat with hless | hle
  · refine ⟨0, ?_, ?_⟩
    · have hhigh : ¬ d >>> 32 = 0 := by
        rw [← UInt64.toNat_inj, toNat_shiftRight_half]
        change ¬ d.toNat / 2 ^ 32 = 0
        omega
      unfold udiv64
      rw [if_neg hhigh, if_pos (UInt64.lt_iff_toNat_lt.mpr hless)]
    · rw [Nat.div_eq_of_lt hless]
      rfl
  · exact udiv64_large hlarge hle

/-! ### Signed division -/

/-- The signed number of a 64-bit word. -/
theorem toInt_eq (x : Int64) : x.toInt =
    if x.toUInt64.toNat < 2 ^ 63 then (x.toUInt64.toNat : Int) else x.toUInt64.toNat - 2 ^ 64 := by
  have hlt := x.toUInt64.toNat_lt
  rw [← Int64.toInt_toBitVec, BitVec.toInt_eq_toNat_bmod, Int64.toNat_toBitVec, Int.bmod_def]
  split_ifs <;> omega

theorem nonneg_iff (x : Int64) : x ≥ 0 ↔ 0 ≤ x.toInt := Int64.le_iff_toInt_le

theorem neg_iff (x : Int64) : x < 0 ↔ x.toInt < 0 := Int64.lt_iff_toInt_lt

/-- The absolute value, as an unsigned word. It fits also for the smallest number. -/
theorem toNat_abs (x : Int64) :
    (if x ≥ 0 then x.toUInt64 else -x.toUInt64).toNat = x.toInt.natAbs := by
  have hlt := x.toUInt64.toNat_lt
  have hval := toInt_eq x
  by_cases hx : x ≥ 0
  · rw [if_pos hx]
    have := (nonneg_iff x).mp hx
    split_ifs at hval <;> omega
  · rw [if_neg hx, UInt64.toNat_neg]
    have := mt (nonneg_iff x).mpr hx
    have hsize : UInt64.size = 2 ^ 64 := rfl
    rw [hsize]
    split_ifs at hval <;> omega

/-- The signed reading of a quotient, and of its negation. -/
theorem toInt_signed (q : UInt64) (same : Prop) [Decidable same]
    (hfit : q.toNat < 2 ^ 63 ∨ q.toNat = 2 ^ 63 ∧ ¬ same) :
    (if same then q.toInt64 else -q.toInt64).toInt = if same then (q.toNat : Int) else -q.toNat := by
  have hval : q.toInt64.toInt = if q.toNat < 2 ^ 63 then (q.toNat : Int) else q.toNat - 2 ^ 64 :=
    toInt_eq q.toInt64
  by_cases hsame : same
  · have hlt : q.toNat < 2 ^ 63 := hfit.resolve_right fun h => h.2 hsame
    rw [if_pos hsame, if_pos hsame, hval, if_pos hlt]
  · rw [if_neg hsame, if_neg hsame, Int64.toInt_neg, hval, Int.bmod_def]
    split_ifs <;> omega

/-- The quotient truncated toward zero has the quotient of the absolute values, and its sign is
negative where those of the operands differ. -/
theorem tdiv_eq (n d : Int) :
    n.tdiv d = if n < 0 ↔ d < 0 then ((n.natAbs / d.natAbs : Nat) : Int)
      else -((n.natAbs / d.natAbs : Nat) : Int) := by
  obtain ⟨a, rfl | rfl⟩ := Int.eq_nat_or_neg n <;> obtain ⟨b, rfl | rfl⟩ := Int.eq_nat_or_neg d
  · rw [if_pos (by omega), Int.natAbs_natCast, Int.natAbs_natCast, Int.ofNat_tdiv]
  · rw [Int.tdiv_neg, Int.natAbs_natCast, Int.natAbs_neg, Int.natAbs_natCast, ← Int.ofNat_tdiv]
    rcases Nat.eq_zero_or_pos b with rfl | hb
    · simp
    · rw [if_neg (by omega)]
  · rw [Int.neg_tdiv, Int.natAbs_natCast, Int.natAbs_neg, Int.natAbs_natCast, ← Int.ofNat_tdiv]
    rcases Nat.eq_zero_or_pos a with rfl | ha
    · simp
    · rw [if_neg (by omega)]
  · rw [Int.neg_tdiv, Int.tdiv_neg, neg_neg, Int.natAbs_neg, Int.natAbs_neg, Int.natAbs_natCast,
      Int.natAbs_natCast, ← Int.ofNat_tdiv]
    rcases Nat.eq_zero_or_pos a with rfl | ha
    · simp
    · rcases Nat.eq_zero_or_pos b with rfl | hb
      · simp
      · rw [if_pos (by omega)]

/-- `sdiv64` executes no instruction that traps and returns the quotient truncated toward
zero. -/
theorem sdiv64_spec {n d : Int64} (hd : d ≠ 0) (hfit : ¬ (n = Int64.minValue ∧ d = -1)) :
    ∃ q, sdiv64 n d = .ok q ∧ q.toInt = n.toInt.tdiv d.toInt := by
  obtain ⟨nAbs, hn⟩ : ∃ nAbs, (if n ≥ 0 then n.toUInt64 else -n.toUInt64) = nAbs := ⟨_, rfl⟩
  obtain ⟨dAbs, hdAbs⟩ : ∃ dAbs, (if d ≥ 0 then d.toUInt64 else -d.toUInt64) = dAbs := ⟨_, rfl⟩
  have hnval := toNat_abs n
  have hdval := toNat_abs d
  rw [hn] at hnval
  rw [hdAbs] at hdval
  have hdne : d.toInt ≠ 0 := fun hzero => hd (Int64.toInt_inj.mp hzero)
  have hpos : dAbs ≠ 0 := by
    rintro rfl
    have hzero : (0 : UInt64).toNat = 0 := rfl
    omega
  obtain ⟨q, hq, hqval⟩ := udiv64_spec (n := nAbs) hpos
  rw [hnval, hdval] at hqval
  have hsign : ((n < 0) = (d < 0)) ↔ (n.toInt < 0 ↔ d.toInt < 0) := by
    rw [neg_iff, neg_iff, eq_iff_iff]
  refine ⟨if (n < 0) = (d < 0) then q.toInt64 else -q.toInt64, ?_, ?_⟩
  · unfold sdiv64
    dsimp only
    rw [hn, hdAbs, hq, ok_bind]
  · have hlo := n.le_toInt
    have hle : q.toNat ≤ n.toInt.natAbs := by
      rw [hqval]
      exact Nat.div_le_self _ _
    -- the quotient `2 ^ 63` comes up for the smallest number only, divided by one
    have hfits : q.toNat < 2 ^ 63 ∨ q.toNat = 2 ^ 63 ∧ ¬ (n.toInt < 0 ↔ d.toInt < 0) := by
      rcases Nat.lt_or_ge q.toNat (2 ^ 63) with hlt | hge
      · exact Or.inl hlt
      have hlt := n.toInt_lt
      have hmin : n.toInt = -2 ^ 63 := by omega
      have hone : d.toInt.natAbs = 1 := by
        by_contra hno
        have htwo : 2 ≤ d.toInt.natAbs := by omega
        have hhalf : n.toInt.natAbs / d.toInt.natAbs ≤ n.toInt.natAbs / 2 :=
          Nat.div_le_div_left htwo (by decide)
        omega
      have hnotneg : d.toInt ≠ -1 := fun hneg => hfit
        ⟨Int64.toInt_inj.mp hmin, Int64.toInt_inj.mp hneg⟩
      exact Or.inr ⟨by omega, by omega⟩
    rw [tdiv_eq, ← hqval]
    simp only [hsign]
    exact toInt_signed q (n.toInt < 0 ↔ d.toInt < 0) hfits

/-- **64-bit division.** No `divl` that `udiv64` executes traps, and it returns the quotient;
`sdiv64` returns the quotient truncated toward zero, unless that is `2 ^ 63`. The unsigned
cases are those of the source: a divisor of one digit, one that is greater than the dividend,
and `udiv64_large`. -/
theorem div64_correct :
    (∀ n d : UInt64, d ≠ 0 → ∃ q, udiv64 n d = .ok q ∧ q.toNat = n.toNat / d.toNat) ∧
    ∀ n d : Int64, d ≠ 0 → ¬ (n = Int64.minValue ∧ d = -1) →
      ∃ q, sdiv64 n d = .ok q ∧ q.toInt = n.toInt.tdiv d.toInt :=
  ⟨fun _ _ hd => udiv64_spec hd, fun _ _ hd hfit => sdiv64_spec hd hfit⟩

/-- A dividend and a divisor of two digits, and a negative dividend. -/
theorem div64_correct_digits :
    (∃ q, udiv64 0xffffffffffffffff 0x100000001 = .ok q ∧
      q.toNat = 0xffffffffffffffff / 0x100000001) ∧
    ∃ q, sdiv64 (-7) 2 = .ok q ∧ q.toInt = (-7 : Int).tdiv 2 :=
  ⟨div64_correct.1 0xffffffffffffffff 0x100000001 (by decide),
    div64_correct.2 (-7) 2 (by decide) (by decide)⟩

/-! ### Remainders -/

/-- The remainder of `__umoddi3` is cut off to 32 bits. -/
theorem umoddi3_spec {n d : UInt64} (hd : d ≠ 0) :
    ∃ q r, udivdi3 n d = .ok q ∧ umoddi3 n d = .ok r ∧ q.toNat = n.toNat / d.toNat ∧
      r.toNat = n.toNat % d.toNat % 2 ^ 32 := by
  have hn := n.toNat_lt
  obtain ⟨q, hq, hqval⟩ := udiv64_spec (n := n) hd
  refine ⟨q, (n - d * q).toUInt32.toUInt64, hq, ?_, hqval, ?_⟩
  · unfold umoddi3 umod64
    rw [hq]
    rfl
  · have hmul : d.toNat * q.toNat + n.toNat % d.toNat = n.toNat := by
      rw [hqval]
      exact Nat.div_add_mod _ _
    obtain ⟨t, ht⟩ : ∃ t, d.toNat * q.toNat = t := ⟨_, rfl⟩
    rw [UInt32.toNat_toUInt64, UInt64.toNat_toUInt32, UInt64.toNat_sub, UInt64.toNat_mul, ht]
    omega

/-- The remainder of `__moddi3` is cut off to a signed number of 32 bits. -/
theorem moddi3_spec {n d : Int64} (hd : d ≠ 0) (hfit : ¬ (n = Int64.minValue ∧ d = -1)) :
    ∃ q r, divdi3 n d = .ok q ∧ moddi3 n d = .ok r ∧ q.toInt = n.toInt.tdiv d.toInt ∧
      r.toInt = (n.toInt.tmod d.toInt).bmod (2 ^ 32) := by
  obtain ⟨q, hq, hqval⟩ := sdiv64_spec hd hfit
  refine ⟨q, (n - d * q).toInt32.toInt64, hq, ?_, hqval, ?_⟩
  · unfold moddi3 smod64
    rw [hq]
    rfl
  · have hmul : n.toInt - d.toInt * q.toInt = n.toInt.tmod d.toInt := by
      rw [hqval, Int.tmod_def]
    rw [Int32.toInt_toInt64, Int64.toInt_toInt32, Int64.toInt_sub, Int64.toInt_mul,
      Int.sub_bmod_bmod, hmul]
    exact Int.bmod_bmod_of_dvd (by decide)

/-- A remainder that `__umoddi3` may return. -/
structure UnsignedRemainder (n d q r : UInt64) : Prop where
  eq : (r.toNat : Int) = n.toNat - d.toNat * q.toNat
  lt : r.toNat < d.toNat

/-- A remainder that `__moddi3` may return. -/
structure SignedRemainder (n d q r : Int64) : Prop where
  eq : r.toInt = n.toInt - d.toInt * q.toInt
  lt : r.toInt.natAbs < d.toInt.natAbs
  nonneg : 0 ≤ n.toInt → 0 ≤ r.toInt
  nonpos : n.toInt ≤ 0 → r.toInt ≤ 0

/-- The remainder truncated toward zero. -/
theorem tmod_bounds {n d : Int} (hd : d ≠ 0) :
    (n.tmod d).natAbs < d.natAbs ∧ (0 ≤ n → 0 ≤ n.tmod d) ∧ (n ≤ 0 → n.tmod d ≤ 0) := by
  refine ⟨?_, fun hn => Int.tmod_nonneg d hn, fun hn => ?_⟩
  · rw [Int.natAbs_tmod]
    exact Nat.mod_lt _ (Int.natAbs_pos.mpr hd)
  · have hneg := Int.tmod_nonneg d (Int.neg_nonneg_of_nonpos hn)
    rw [Int.neg_tmod] at hneg
    omega

/-- **64-bit remainders.** `__umoddi3` agrees with `__udivdi3` exactly where the remainder is
a number of 32 bits, and `__moddi3` with `__divdi3` exactly where it is a signed one. The
quotients are right, so that only the type in which the remainder is returned matters. -/
theorem mod64_correct_iff (n d : UInt64) (m e : Int64) :
    (d ≠ 0 → ∃ q r, udivdi3 n d = .ok q ∧ umoddi3 n d = .ok r ∧
      (UnsignedRemainder n d q r ↔ n.toNat % d.toNat < 2 ^ 32)) ∧
    (e ≠ 0 → ¬ (m = Int64.minValue ∧ e = -1) →
      ∃ q r, divdi3 m e = .ok q ∧ moddi3 m e = .ok r ∧
        (SignedRemainder m e q r ↔
          -2 ^ 31 ≤ m.toInt.tmod e.toInt ∧ m.toInt.tmod e.toInt < 2 ^ 31)) := by
  constructor
  · intro hd
    obtain ⟨q, r, hq, hr, hqval, hrval⟩ := umoddi3_spec (n := n) hd
    have hmul : (d.toNat : Int) * q.toNat + (n.toNat % d.toNat : Nat) = n.toNat := by
      rw [hqval]
      exact_mod_cast Nat.div_add_mod n.toNat d.toNat
    refine ⟨q, r, hq, hr, fun hrem => ?_, fun hsmall => ⟨?_, ?_⟩⟩
    · have := hrem.eq
      omega
    · rw [hrval, Nat.mod_eq_of_lt hsmall]
      omega
    · have hpos : 0 < d.toNat := Nat.pos_of_ne_zero fun hzero => hd (UInt64.toNat_inj.mp hzero)
      have := Nat.mod_lt n.toNat hpos
      rw [hrval, Nat.mod_eq_of_lt hsmall]
      exact this
  · intro he hfit
    obtain ⟨q, r, hq, hr, hqval, hrval⟩ := moddi3_spec he hfit
    have hmul : m.toInt - e.toInt * q.toInt = m.toInt.tmod e.toInt := by
      rw [hqval, Int.tmod_def]
    have hene : e.toInt ≠ 0 := fun hzero => he (Int64.toInt_inj.mp hzero)
    obtain ⟨hlt, hnonneg, hnonpos⟩ := tmod_bounds (n := m.toInt) hene
    refine ⟨q, r, hq, hr, fun hrem => ?_, fun hsmall => ?_⟩
    · have heq := hrem.eq
      rw [hmul, hrval] at heq
      rw [← heq, Int.bmod_def]
      split_ifs <;> omega
    · have hsame : r.toInt = m.toInt.tmod e.toInt := by
        rw [hrval]
        exact Int.bmod_eq_of_le (by omega) (by omega)
      rw [← hsame] at hlt hnonneg hnonpos
      exact ⟨hsame.trans hmul.symm, hlt, hnonneg, hnonpos⟩

theorem mod64_correct_iff_digits :
    (∃ q r, udivdi3 0x900000000 0x100000000 = .ok q ∧ umoddi3 0x900000000 0x100000000 = .ok r ∧
      (UnsignedRemainder 0x900000000 0x100000000 q r ↔ 0x900000000 % 0x100000000 < 2 ^ 32)) ∧
    ∃ q r, divdi3 (-7) 2 = .ok q ∧ moddi3 (-7) 2 = .ok r ∧
      (SignedRemainder (-7) 2 q r ↔ -2 ^ 31 ≤ (-7 : Int).tmod 2 ∧ (-7 : Int).tmod 2 < 2 ^ 31) :=
  have h := mod64_correct_iff 0x900000000 0x100000000 (-7) 2
  ⟨h.1 (by decide), h.2 (by decide) (by decide)⟩

/-- Remainders of 33 and of 32 bits. -/
theorem mod64_cut_off :
    (∃ q r, udivdi3 0x100000000 0x200000000 = .ok q ∧ umoddi3 0x100000000 0x200000000 = .ok r ∧
      ¬ (r.toNat : Int) = (0x100000000 : UInt64).toNat - (0x200000000 : UInt64).toNat * q.toNat) ∧
    ∃ q r, divdi3 0x80000000 0x100000000 = .ok q ∧ moddi3 0x80000000 0x100000000 = .ok r ∧
      ¬ r.toInt = (0x80000000 : Int64).toInt - (0x100000000 : Int64).toInt * q.toInt :=
  ⟨⟨0, 0, rfl, rfl, by decide⟩, ⟨0, -0x80000000, rfl, rfl, by decide⟩⟩

end OsTools.Kernel

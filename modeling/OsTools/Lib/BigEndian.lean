import Mathlib.Algebra.Group.Nat.Defs
import Mathlib.Data.List.Basic
/-!
# OsTools.Lib.BigEndian

Numbers as bytes, the most significant first: `toBytes w v` is the number `v` in `w` bytes,
`ofBytes` reads a sequence of bytes back.

Nothing here mentions a particular program.
-/

namespace OsTools.BigEndian

/-- The low `w` bytes of `v`. -/
def toBytes : Nat → Nat → List UInt8
  | 0, _ => []
  | w + 1, v => UInt8.ofNat (v / 256 ^ w) :: toBytes w v

/-- The number that the bytes spell. -/
def ofBytes : List UInt8 → Nat
  | [] => 0
  | b :: bs => b.toNat * 256 ^ bs.length + ofBytes bs

@[simp] theorem length_toBytes (w v : Nat) : (toBytes w v).length = w := by
  induction w with
  | zero => rfl
  | succ w ih => simp [toBytes, ih]

theorem ofBytes_lt (bs : List UInt8) : ofBytes bs < 256 ^ bs.length := by
  induction bs with
  | nil => simp [ofBytes]
  | cons b bs ih =>
      have hb : b.toNat + 1 ≤ 256 := b.toNat_lt
      have hle := Nat.mul_le_mul_right (256 ^ bs.length) hb
      rw [Nat.add_mul, Nat.one_mul] at hle
      rw [ofBytes, List.length_cons, Nat.pow_succ, Nat.mul_comm _ 256]
      omega

/-- The bytes above the `w` lowest do not matter. -/
theorem toBytes_add_mul (w v k : Nat) : toBytes w (v + k * 256 ^ w) = toBytes w v := by
  induction w generalizing k with
  | zero => rfl
  | succ w ih =>
      have hpow : k * 256 ^ (w + 1) = k * 256 * 256 ^ w := by
        rw [Nat.pow_succ, Nat.mul_comm (256 ^ w), Nat.mul_assoc]
      have hdiv : (v + k * 256 * 256 ^ w) / 256 ^ w = v / 256 ^ w + k * 256 :=
        Nat.add_mul_div_right v (k * 256) (Nat.pow_pos (by decide))
      rw [toBytes, toBytes, hpow, ih, hdiv]
      congr 1
      apply UInt8.toNat.inj
      simp

theorem ofBytes_toBytes (w v : Nat) : ofBytes (toBytes w v) = v % 256 ^ w := by
  induction w with
  | zero => simp [toBytes, ofBytes, Nat.mod_one]
  | succ w ih =>
      have hmod : v % 256 ^ (w + 1) = v % 256 ^ w + 256 ^ w * (v / 256 ^ w % 256) := by
        rw [Nat.pow_succ, Nat.mod_mul]
      rw [toBytes, ofBytes, length_toBytes, ih, UInt8.toNat_ofNat', hmod, Nat.mul_comm]
      exact Nat.add_comm _ _

/-- A number that fits is read back. -/
theorem ofBytes_toBytes_of_lt {w v : Nat} (h : v < 256 ^ w) : ofBytes (toBytes w v) = v := by
  rw [ofBytes_toBytes, Nat.mod_eq_of_lt h]

/-- Bytes that were read are written back. -/
theorem toBytes_ofBytes (bs : List UInt8) : toBytes bs.length (ofBytes bs) = bs := by
  induction bs with
  | nil => rfl
  | cons b bs ih =>
      have hdiv : (b.toNat * 256 ^ bs.length + ofBytes bs) / 256 ^ bs.length = b.toNat := by
        rw [Nat.mul_comm, Nat.mul_add_div (Nat.pow_pos (by decide)),
          Nat.div_eq_of_lt (ofBytes_lt bs), Nat.add_zero]
      rw [List.length_cons, toBytes, ofBytes, hdiv, Nat.add_comm, toBytes_add_mul, ih]
      simp

end OsTools.BigEndian

import OsTools.Kernel.Bitmap
import OsTools.Lib.Bytes
/-!
# OsTools.Stdlib.Memmove

`memmove` of `lib/string.c`. The direction of the copy depends on the order of the pointers, so
that no byte is overwritten before it is read (`Copied.up`, `Copied.down`); the contents are right
however the ranges overlap. The pointer that is returned is the one that the loop has moved: the
forward loop leaves it at the end of the destination (`memmove_right_iff`).

A pointer is a 32-bit address.

## Proof shape

Both loops have `Copied` as invariant, with the interval that has been copied so far: the
forward loop extends it at its end and the backward loop at its front. The byte that is read
next must not lie in the part of the destination that has been written; with the destination
below the source that is so for the forward direction and with the destination above it for
the backward direction, which is the comparison of the source.
-/

namespace OsTools.Stdlib

open OsTools.Kernel

/-- `p++`. -/
def incr (p : Nat) : Nat := (p + 1) % 2 ^ 32

/-- `--p`. -/
def decr (p : Nat) : Nat := if p = 0 then 2 ^ 32 - 1 else p - 1

/-! ### `memmove` -/

/-- `while (size-- > 0) *dst++ = *src++`, with the pointer that it ends with. -/
def copyUp : Nat → Mem → Nat → Nat → Mem × Nat
  | 0, m, dst, _ => (m, dst)
  | size + 1, m, dst, src => copyUp size (m.put dst (m src)) (incr dst) (incr src)

/-- `while (size-- > 0) *--dst = *--src`. -/
def copyDown : Nat → Mem → Nat → Nat → Mem × Nat
  | 0, m, dst, _ => (m, dst)
  | size + 1, m, dst, src => copyDown size (m.put (decr dst) (m (decr src))) (decr dst) (decr src)

/-- `memmove`: the memory and the pointer that it returns. -/
def memmove (m : Mem) (dst src size : Nat) : Except Stop (Mem × Nat) :=
  if (dst = 0 ∧ size ≠ 0) ∨ (src = 0 ∧ size ≠ 0) then .error .assertion
  else if dst < src then .ok (copyUp size m dst src)
  else .ok (copyDown size m ((dst + size) % 2 ^ 32) ((src + size) % 2 ^ 32))

/-- `size` bytes of the address space, not at the null pointer. -/
structure Range (p size : Nat) : Prop where
  address : p < 2 ^ 32
  fits : p + size ≤ 2 ^ 32
  nonnull : p = 0 → size = 0

/-- The bytes are moved, no others are changed, and the destination is returned. -/
def MovesRight (m : Mem) (dst src size : Nat) : Prop :=
  ∃ m' p, memmove m dst src size = .ok (m', p) ∧ (∀ i < size, m' (dst + i) = m (src + i)) ∧
    (∀ x, x < dst ∨ dst + size ≤ x → m' x = m x) ∧ p = dst

/-! ### The loops -/

/-- The bytes from `lo` up to `hi` have been copied, and nothing else has been changed. -/
structure Copied (m₀ m : Mem) (dst src lo hi : Nat) : Prop where
  copied : ∀ i, lo ≤ i → i < hi → m (dst + i) = m₀ (src + i)
  frame : ∀ x, x < dst + lo ∨ dst + hi ≤ x → m x = m₀ x

variable {m₀ m : Mem} {dst src lo hi k n size : Nat}

theorem Copied.start (m : Mem) (dst src lo : Nat) : Copied m m dst src lo lo :=
  ⟨fun i hlo hhi => absurd hhi (by omega), fun _ _ => rfl⟩

/-- One more byte at the end. It has not been overwritten. -/
theorem Copied.up (h : Copied m₀ m dst src lo hi) (hle : lo ≤ hi) (hdir : dst ≤ src) :
    Copied m₀ (m.put (dst + hi) (m (src + hi))) dst src lo (hi + 1) := by
  have hread : m (src + hi) = m₀ (src + hi) := h.frame _ (by omega)
  refine ⟨fun i hlo hhi => ?_, fun x hx => ?_⟩
  · by_cases hi' : i = hi
    · rw [hi', Mem.put_same, hread]
    · rw [Mem.put_other (by omega)]
      exact h.copied i hlo (by omega)
  · rw [Mem.put_other (by omega)]
    exact h.frame x (by omega)

/-- One more byte at the front. -/
theorem Copied.down (h : Copied m₀ m dst src (lo + 1) hi) (hlt : lo < hi) (hdir : src ≤ dst) :
    Copied m₀ (m.put (dst + lo) (m (src + lo))) dst src lo hi := by
  have hread : m (src + lo) = m₀ (src + lo) := h.frame _ (by omega)
  refine ⟨fun i hlo hhi => ?_, fun x hx => ?_⟩
  · by_cases hi' : i = lo
    · rw [hi', Mem.put_same, hread]
    · rw [Mem.put_other (by omega)]
      exact h.copied i (by omega) hhi
  · rw [Mem.put_other (by omega)]
    exact h.frame x (by omega)

theorem incr_eq (p : Nat) : incr (p % 2 ^ 32) = (p + 1) % 2 ^ 32 := by
  unfold incr
  omega

theorem decr_eq (p : Nat) : decr ((p + 1) % 2 ^ 32) = p % 2 ^ 32 := by
  unfold decr
  by_cases hzero : (p + 1) % 2 ^ 32 = 0
  · rw [if_pos hzero]
    omega
  · rw [if_neg hzero]
    omega

/-- The forward loop, `k` bytes from the start. -/
theorem copyUp_spec (hdir : dst ≤ src) (hdst : dst + (k + n) ≤ 2 ^ 32)
    (hsrc : src + (k + n) ≤ 2 ^ 32) (h : Copied m₀ m dst src 0 k) :
    ∃ m', copyUp n m ((dst + k) % 2 ^ 32) ((src + k) % 2 ^ 32) =
      (m', (dst + (k + n)) % 2 ^ 32) ∧ Copied m₀ m' dst src 0 (k + n) := by
  induction n generalizing m k with
  | zero => exact ⟨m, rfl, h⟩
  | succ n ih =>
      have hd : (dst + k) % 2 ^ 32 = dst + k := Nat.mod_eq_of_lt (by omega)
      have hs : (src + k) % 2 ^ 32 = src + k := Nat.mod_eq_of_lt (by omega)
      rw [copyUp, incr_eq, incr_eq, hd, hs, Nat.add_assoc dst, Nat.add_assoc src,
        ← Nat.add_assoc k, Nat.add_right_comm k n 1]
      exact ih (by omega) (by omega) (h.up (Nat.zero_le k) hdir)

/-- The backward loop, `n` bytes from the start. -/
theorem copyDown_spec (hdir : src ≤ dst) (hn : n ≤ size) (hdst : dst + size ≤ 2 ^ 32)
    (h : Copied m₀ m dst src n size) :
    ∃ m', copyDown n m ((dst + n) % 2 ^ 32) ((src + n) % 2 ^ 32) = (m', dst % 2 ^ 32) ∧
      Copied m₀ m' dst src 0 size := by
  induction n generalizing m with
  | zero => exact ⟨m, rfl, h⟩
  | succ n ih =>
      have hd : (dst + n) % 2 ^ 32 = dst + n := Nat.mod_eq_of_lt (by omega)
      have hs : (src + n) % 2 ^ 32 = src + n := Nat.mod_eq_of_lt (by omega)
      rw [copyDown, ← Nat.add_assoc, ← Nat.add_assoc, decr_eq, decr_eq]
      have hnext := h.down (by omega) hdir
      rw [← hd, ← hs] at hnext
      exact ih (by omega) hnext

/-! ### Results -/

/-- **The contents are moved**, whichever way the ranges overlap. -/
theorem memmove_spec (hdst : Range dst size) (hsrc : Range src size) :
    ∃ m', memmove m dst src size = .ok (m', if dst < src then (dst + size) % 2 ^ 32 else dst) ∧
      Copied m m' dst src 0 size := by
  have hd : (dst + 0) % 2 ^ 32 = dst := Nat.mod_eq_of_lt hdst.address
  have hs : (src + 0) % 2 ^ 32 = src := Nat.mod_eq_of_lt hsrc.address
  have hassert : ¬ ((dst = 0 ∧ size ≠ 0) ∨ (src = 0 ∧ size ≠ 0)) := by
    intro h
    rcases h with ⟨hnull, hsize⟩ | ⟨hnull, hsize⟩
    · exact hsize (hdst.nonnull hnull)
    · exact hsize (hsrc.nonnull hnull)
  unfold memmove
  rw [if_neg hassert]
  by_cases hdir : dst < src
  · obtain ⟨m', hloop, hcopied⟩ := copyUp_spec (k := 0) (n := size) (Nat.le_of_lt hdir)
      (by rw [Nat.zero_add]; exact hdst.fits) (by rw [Nat.zero_add]; exact hsrc.fits)
      (Copied.start m dst src 0)
    rw [hd, hs, Nat.zero_add] at hloop
    rw [Nat.zero_add] at hcopied
    rw [if_pos hdir, if_pos hdir, hloop]
    exact ⟨m', rfl, hcopied⟩
  · obtain ⟨m', hloop, hcopied⟩ := copyDown_spec (Nat.le_of_not_lt hdir) (Nat.le_refl size)
      hdst.fits (Copied.start m dst src size)
    rw [Nat.mod_eq_of_lt hdst.address] at hloop
    rw [if_neg hdir, if_neg hdir, hloop]
    exact ⟨m', rfl, hcopied⟩

/-- **When `memmove` is right.** It returns its destination just when it has copied backwards,
or nothing at all. The contents are right in any case (`memmove_spec`), so that the pointer
decides. -/
theorem memmove_right_iff (hdst : Range dst size) (hsrc : Range src size) :
    MovesRight m dst src size ↔ size = 0 ∨ src ≤ dst := by
  obtain ⟨m', hmove, hcopied⟩ := memmove_spec (m := m) hdst hsrc
  have hfits := hdst.fits
  have haddress := hdst.address
  constructor
  · intro h
    obtain ⟨m₁, p, hok, -, -, hp⟩ := h
    rw [hmove] at hok
    obtain ⟨-, hret⟩ := Prod.mk.inj (Except.ok.inj hok)
    by_cases hdir : dst < src
    · rw [if_pos hdir, hp] at hret
      have hnull := hdst.nonnull
      omega
    · exact Or.inr (Nat.le_of_not_lt hdir)
  · intro h
    refine ⟨m', _, hmove, fun i hi => hcopied.copied i (Nat.zero_le i) hi,
      fun x hx => hcopied.frame x hx, ?_⟩
    by_cases hdir : dst < src
    · have hsize : size = 0 := h.resolve_right (Nat.not_le_of_lt hdir)
      rw [if_pos hdir, hsize]
      exact Nat.mod_eq_of_lt haddress
    · exact if_neg hdir

/-- Overlapping ranges, the destination one byte before the source. -/
theorem memmove_right_iff_overlap : MovesRight (fun a => UInt8.ofNat a) 101 100 3 ↔
    3 = 0 ∨ 100 ≤ 101 :=
  memmove_right_iff ⟨by decide, by decide, by decide⟩ ⟨by decide, by decide, by decide⟩

/-- One byte moved down: the pointer behind it is returned. -/
theorem memmove_returns_end : ¬ MovesRight (fun a => UInt8.ofNat a) 100 101 1 := by
  intro h
  obtain ⟨m', p, hok, -, -, hp⟩ := h
  obtain ⟨-, hret⟩ := Prod.mk.inj (Except.ok.inj hok)
  rw [hp] at hret
  exact absurd hret (by decide)

end OsTools.Stdlib

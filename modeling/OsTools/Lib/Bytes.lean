import Mathlib.Algebra.Order.Group.Nat
/-!
# OsTools.Lib.Bytes

Byte-addressed memory with little-endian numbers of any width.

`blit` is the one writing primitive: it replaces a range by the bytes a
function gives. `store`, `fill` and copies from a buffer are instances of it,
so `blit_of_outside` is the only frame lemma, and `load_blit_of_disjoint` and
`load_store` are all that is needed to read numbers back.

Numbers are `Nat` at this level, and `load_lt` is what bounds those that were read. A
program that keeps its state at several addresses has its own list of ranges that do not
overlap; with it every load behind a store is decided by one of the two lemmas, the one for
the same range or the one for ranges apart.
-/

namespace OsTools

/-- Memory: a byte at every address. -/
abbrev Mem := Nat → UInt8

namespace Mem

/-- The little-endian number of `n` bytes at `a`. -/
def load (m : Mem) (a : Nat) : Nat → Nat
  | 0 => 0
  | n + 1 => (m a).toNat + 256 * load m (a + 1) n

/-- Replace the `n` bytes from `a` on. -/
def blit (m : Mem) (a n : Nat) (f : Nat → UInt8) : Mem :=
  fun x => if a ≤ x ∧ x < a + n then f (x - a) else m x

/-- Write one byte. -/
def put (m : Mem) (a : Nat) (c : UInt8) : Mem := m.blit a 1 fun _ => c

/-- The `i`-th byte of a number. -/
def byteOf (v i : Nat) : UInt8 := UInt8.ofNat (v / 256 ^ i)

/-- Write a number as `n` little-endian bytes. -/
def store (m : Mem) (a n v : Nat) : Mem := m.blit a n (byteOf v)

/-- Set `n` bytes to `c`. -/
def fill (m : Mem) (a n : Nat) (c : UInt8) : Mem := m.blit a n fun _ => c

variable {m m' : Mem} {a b n k v : Nat} {f : Nat → UInt8}

theorem blit_of_outside {x : Nat} (h : x < a ∨ a + n ≤ x) : m.blit a n f x = m x := by
  unfold blit
  rw [if_neg (by omega)]

theorem blit_of_inside {i : Nat} (h : i < n) : m.blit a n f (a + i) = f i := by
  unfold blit
  rw [if_pos (by omega), Nat.add_sub_cancel_left]

@[simp] theorem put_same (m : Mem) (a : Nat) (c : UInt8) : m.put a c a = c :=
  blit_of_inside (i := 0) Nat.one_pos

theorem put_other {c : UInt8} {x : Nat} (h : x ≠ a) : m.put a c x = m x :=
  blit_of_outside (by omega)

theorem blit_zero (m f : Mem) (a : Nat) : m.blit a 0 f = m := by
  funext x
  exact blit_of_outside (by omega)

/-- Two adjoining parts of one source. -/
theorem blit_blit : (m.blit a n f).blit (a + n) k (fun i => f (n + i)) = m.blit a (n + k) f := by
  funext x
  unfold blit
  by_cases h₁ : a + n ≤ x ∧ x < a + n + k
  · rw [if_pos h₁, if_pos (by omega)]
    exact congrArg f (by omega)
  · rw [if_neg h₁]
    by_cases h₂ : a ≤ x ∧ x < a + n
    · rw [if_pos h₂, if_pos (by omega)]
    · rw [if_neg h₂, if_neg (by omega)]

/-- Two adjoining parts of one source, each from a source of its own. -/
theorem blit_append {g h : Nat → UInt8} (hf : ∀ i < n, f i = h i) (hg : ∀ i < k, g i = h (n + i)) :
    (m.blit a n f).blit (a + n) k g = m.blit a (n + k) h := by
  rw [← blit_blit]
  funext x
  unfold blit
  by_cases h₁ : a + n ≤ x ∧ x < a + n + k
  · rw [if_pos h₁, if_pos h₁]
    exact hg _ (by omega)
  · rw [if_neg h₁, if_neg h₁]
    by_cases h₂ : a ≤ x ∧ x < a + n
    · rw [if_pos h₂, if_pos h₂]
      exact hf _ (by omega)
    · rw [if_neg h₂, if_neg h₂]

/-- A load depends on the bytes it reads only. -/
theorem load_congr (h : ∀ i < n, m' (a + i) = m (b + i)) : m'.load a n = m.load b n := by
  induction n generalizing a b with
  | zero => rfl
  | succ n ih =>
      have hhead : m' a = m b := h 0 (by omega)
      have htail : m'.load (a + 1) n = m.load (b + 1) n := ih fun i hi => by
        have := h (i + 1) (by omega)
        rwa [Nat.add_assoc, Nat.add_comm 1 i, Nat.add_assoc, Nat.add_comm 1 i]
      rw [load, load, hhead, htail]

theorem load_blit_of_disjoint (h : a + n ≤ b ∨ b + k ≤ a) :
    (m.blit b k f).load a n = m.load a n :=
  load_congr fun i hi => blit_of_outside (by omega)

theorem load_lt (m : Mem) (a n : Nat) : m.load a n < 256 ^ n := by
  induction n generalizing a with
  | zero => simp [load]
  | succ n ih =>
      have hbyte : (m a).toNat < 256 := (m a).toNat_lt
      have := ih (a + 1)
      rw [load, pow_succ]
      omega

/-- The bytes of a number read back as the number. -/
theorem load_of_bytes (h : ∀ i < n, m (a + i) = byteOf v i) (hv : v < 256 ^ n) :
    m.load a n = v := by
  induction n generalizing a v with
  | zero => simp only [pow_zero, Nat.lt_one_iff] at hv; exact hv.symm
  | succ n ih =>
      have hhead : (m a).toNat = v % 256 := by
        rw [show m a = byteOf v 0 from h 0 (by omega)]
        simp [byteOf]
      have htail : m.load (a + 1) n = v / 256 := by
        refine ih (fun i hi => ?_) ?_
        · have := h (i + 1) (by omega)
          rw [Nat.add_assoc, Nat.add_comm 1 i, this, byteOf, byteOf, pow_succ,
            Nat.div_div_eq_div_mul, Nat.mul_comm]
        · rw [pow_succ] at hv
          exact Nat.div_lt_of_lt_mul (by omega)
      rw [load, hhead, htail]
      omega

/-- A stored number that fits is read back. -/
theorem load_store (hv : v < 256 ^ n) : (m.store a n v).load a n = v :=
  load_of_bytes (fun _ hi => blit_of_inside hi) hv

end Mem

end OsTools

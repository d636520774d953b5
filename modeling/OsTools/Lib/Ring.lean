import Mathlib.Data.List.Basic
import Mathlib.Logic.Function.Basic
import Mathlib.Tactic.SplitIfs
/-!
# OsTools.Lib.Ring

A circular buffer of `m` positions with a write position `head` and a read
position `tail`. The buffer is empty when the two coincide, so it never holds
more than `m - 1` elements; `contents` lists them from the oldest to the newest.

`contents_push` and `contents_pop` say that writing at `head` and reading at
`tail` are the two ends of a queue.

The elements are found by their distance from `tail`, modulo the size; `place` is injective
on the distances up to the count, and so a write at `head` changes none of those that are in
the queue. The remainders are unfolded once, in `count` and `place`.
-/

namespace OsTools.Ring

open Function (update)

variable {α : Type*}

/-- The position after `pos`. -/
def next (m pos : Nat) : Nat := (pos + 1) % m

/-- The number of elements between `tail` and `head`. -/
def count (m head tail : Nat) : Nat := if tail ≤ head then head - tail else head + m - tail

/-- The position `i` places after `tail`. -/
def place (m tail i : Nat) : Nat := if tail + i < m then tail + i else tail + i - m

/-- The elements from the oldest to the newest. -/
def contents (m : Nat) (buf : Nat → α) (head tail : Nat) : List α :=
  (List.range (count m head tail)).map fun i => buf (place m tail i)

theorem next_eq {m pos : Nat} (h : pos < m) :
    next m pos = if pos + 1 = m then 0 else pos + 1 := by
  unfold next
  split
  · rename_i hm
    rw [hm, Nat.mod_self]
  · exact Nat.mod_eq_of_lt (by omega)

theorem next_lt {m pos : Nat} (h : pos < m) : next m pos < m :=
  Nat.mod_lt _ (by omega)

theorem count_le {m head tail : Nat} (hh : head < m) (ht : tail < m) :
    count m head tail ≤ m - 1 := by
  unfold count
  split <;> omega

theorem count_eq_zero {m head tail : Nat} (ht : tail < m) :
    count m head tail = 0 ↔ head = tail := by
  unfold count
  split <;> omega

/-- The buffer is full exactly when only one position is unused. -/
theorem count_eq_full {m head tail : Nat} (hh : head < m) (ht : tail < m) :
    count m head tail = m - 1 ↔ next m head = tail := by
  rw [next_eq hh]
  unfold count
  split_ifs <;> omega

@[simp] theorem length_contents (m : Nat) (buf : Nat → α) (head tail : Nat) :
    (contents m buf head tail).length = count m head tail := by
  simp [contents]

theorem contents_empty (m : Nat) (buf : Nat → α) (pos : Nat) : contents m buf pos pos = [] := by
  simp [contents, count]

theorem count_push {m head tail : Nat} (hh : head < m) (ht : tail < m)
    (hfull : next m head ≠ tail) : count m (next m head) tail = count m head tail + 1 := by
  rw [next_eq hh] at hfull ⊢
  unfold count
  split_ifs at hfull ⊢ <;> omega

/-- Writing at `head` appends the newest element. -/
theorem contents_push {m head tail : Nat} (hh : head < m) (ht : tail < m)
    (hfull : next m head ≠ tail) (buf : Nat → α) (x : α) :
    contents m (update buf head x) (next m head) tail = contents m buf head tail ++ [x] := by
  unfold contents
  rw [count_push hh ht hfull, List.range_succ, List.map_append]
  have hlast : place m tail (count m head tail) = head := by
    unfold place count
    split_ifs <;> omega
  congr 1
  · refine List.map_congr_left fun i hi => ?_
    have hlt : i < count m head tail := List.mem_range.mp hi
    have hne : place m tail i ≠ head := by
      revert hlt
      unfold place count
      split_ifs <;> omega
    rw [Function.update_of_ne hne]
  · rw [List.map_singleton, hlast, Function.update_self]

/-- Reading at `tail` removes the oldest element. -/
theorem contents_pop {m head tail : Nat} (hh : head < m) (ht : tail < m) (hne : head ≠ tail)
    (buf : Nat → α) :
    contents m buf head tail = buf tail :: contents m buf head (next m tail) := by
  unfold contents
  have hcount : count m head tail = count m head (next m tail) + 1 := by
    rw [next_eq ht]
    unfold count
    split_ifs <;> omega
  rw [hcount, List.range_succ_eq_map, List.map_cons, List.map_map]
  have hzero : place m tail 0 = tail := by
    unfold place
    split <;> omega
  rw [hzero]
  congr 1
  refine List.map_congr_left fun i hi => ?_
  have hlt : i < count m head (next m tail) := List.mem_range.mp hi
  have hplace : place m tail (i + 1) = place m (next m tail) i := by
    have hle := count_le hh (next_lt ht)
    rw [next_eq ht]
    unfold place
    split_ifs <;> omega
  show buf (place m tail (i + 1)) = _
  rw [hplace]

end OsTools.Ring

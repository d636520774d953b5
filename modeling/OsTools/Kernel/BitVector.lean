import Mathlib.Order.Bounds.Basic
import OsTools.Kernel.Bitmap
/-!
# OsTools.Kernel.BitVector

A bitmap as a vector of booleans. `Bitmap.vec` reads the vector off the packed
elements, and each operation of `lib/kernel/bitmap.c` does to it, or finds in it,
what the corresponding operation on lists does.

The sum of `start` and `cnt` in the assertions wraps. `bitmap_refines` covers the
ranges that pass an assertion only for that reason as well: there the loop runs into
the assertion on a single bit.

The lemmas of `Kernel.Bitmap` speak of single bits, so that each statement about lists here
is proved by comparing elements (`List.ext_getElem?`) or, for `bitmap_count`, by the
induction of its loop.
-/

namespace OsTools.Kernel

namespace Bitmap

/-- The bits in use, in order. -/
def vec (b : Bitmap) : List Bool := (List.range b.bitCnt).map b.bit

/-- The `cnt` bits from `start` on. -/
def slice (b : Bitmap) (start cnt : Nat) : List Bool := (b.vec.drop start).take cnt

/-- The vector with `cnt` bits from `start` on replaced by `value`. -/
def overwrite (v : List Bool) (start cnt : Nat) (value : Bool) : List Bool :=
  v.take start ++ List.replicate cnt value ++ v.drop (start + cnt)

/-- The places where a group of `cnt` bits that are all `value` starts. -/
def Groups (b : Bitmap) (start cnt : Nat) (value : Bool) : Set Nat :=
  { i | start ≤ i ∧ i + cnt ≤ b.bitCnt ∧ b.slice i cnt = List.replicate cnt value }

variable {b b' : Bitmap} {start cnt idx i : Nat} {value : Bool}

@[simp] theorem length_vec (b : Bitmap) : b.vec.length = b.bitCnt := by
  unfold vec
  simp

theorem getElem_vec {k : Nat} (hk : k < b.vec.length) : b.vec[k] = b.bit k := by
  simp only [vec, List.getElem_map, List.getElem_range]

theorem length_slice (h : start + cnt ≤ b.bitCnt) : (b.slice start cnt).length = cnt := by
  unfold slice
  simp
  omega

theorem getElem_slice {k : Nat} (hk : k < (b.slice start cnt).length) :
    (b.slice start cnt)[k] = b.bit (start + k) := by
  simp only [slice, List.getElem_take, List.getElem_drop, getElem_vec]

/-- A slice starts with its first bit. -/
theorem slice_succ (h : start + (cnt + 1) ≤ b.bitCnt) :
    b.slice start (cnt + 1) = b.bit start :: b.slice (start + 1) cnt := by
  unfold slice
  have hlt : start < b.vec.length := by
    rw [length_vec]
    omega
  rw [List.drop_eq_getElem_cons hlt, List.take_succ_cons, getElem_vec hlt]

theorem mem_slice {v : Bool} (h : start + cnt ≤ b.bitCnt) :
    v ∈ b.slice start cnt ↔ ∃ k, start ≤ k ∧ k < start + cnt ∧ b.bit k = v := by
  rw [List.mem_iff_getElem]
  constructor
  · rintro ⟨k, hk, rfl⟩
    rw [length_slice h] at hk
    exact ⟨start + k, by omega, by omega, (getElem_slice _).symm⟩
  · rintro ⟨k, h₁, h₂, rfl⟩
    refine ⟨k - start, by rw [length_slice h]; omega, ?_⟩
    rw [getElem_slice]
    congr 1
    omega

theorem group_iff (h : start + cnt ≤ b.bitCnt) :
    b.Group start cnt value ↔ b.slice start cnt = List.replicate cnt value := by
  rw [List.eq_replicate_iff, length_slice h]
  constructor
  · intro hgroup
    refine ⟨rfl, fun v hv => ?_⟩
    obtain ⟨k, h₁, h₂, rfl⟩ := (mem_slice h).mp hv
    exact hgroup k h₁ h₂
  · intro hall k h₁ h₂
    exact hall.2 _ ((mem_slice h).mpr ⟨k, h₁, h₂, rfl⟩)

/-- Setting a range of bits. -/
theorem vec_eq_overwrite (h : start + cnt ≤ b.bitCnt) (hcnt : b'.bitCnt = b.bitCnt)
    (hbit : ∀ j, b'.bit j = if start ≤ j ∧ j < start + cnt then value else b.bit j) :
    b'.vec = overwrite b.vec start cnt value := by
  unfold overwrite
  refine List.ext_getElem ?_ fun k h₁ h₂ => ?_
  · simp
    omega
  · rw [getElem_vec, hbit k]
    simp only [List.append_assoc, List.getElem_append, List.length_take, List.length_replicate,
      length_vec, List.getElem_take, List.getElem_drop, List.getElem_replicate, getElem_vec]
    split_ifs <;> first | rfl | (congr 1; omega)

theorem countLoop_eq (h : idx + cnt ≤ b.bitCnt) (valueCnt : Nat) :
    b.countLoop value cnt idx valueCnt = .ok (valueCnt + (b.slice idx cnt).count value) := by
  induction cnt generalizing idx valueCnt with
  | zero =>
      unfold slice
      simp [countLoop]
  | succ cnt ih =>
      unfold countLoop
      rw [test_eq (by omega), ok_bind, ih (by omega), slice_succ h, List.count_cons]
      congr 1
      by_cases hbit : b.bit idx = value
      · simp [hbit]
        omega
      · simp [hbit]

/-! ### Ranges that do not fit -/

/-- The loops stop at the first bit behind the last one. -/
theorem setLoop_outside (hidx : idx ≤ b.bitCnt) (h : b.bitCnt < idx + cnt) :
    setLoop value cnt b idx = .error .assertion := by
  induction cnt generalizing b idx with
  | zero => omega
  | succ cnt ih =>
      unfold setLoop
      by_cases hlt : idx < b.bitCnt
      · obtain ⟨b₁, hset, hcnt, -⟩ := set_spec hlt value
        rw [hset, ok_bind]
        exact ih (by omega) (by omega)
      · unfold set
        rw [if_neg hlt]
        rfl

theorem countLoop_outside (hidx : idx ≤ b.bitCnt) (h : b.bitCnt < idx + cnt) (valueCnt : Nat) :
    b.countLoop value cnt idx valueCnt = .error .assertion := by
  induction cnt generalizing idx valueCnt with
  | zero => omega
  | succ cnt ih =>
      unfold countLoop
      by_cases hlt : idx < b.bitCnt
      · rw [test_eq hlt, ok_bind]
        exact ih (by omega) (by omega) _
      · unfold test
        rw [if_neg hlt]
        rfl

theorem containsLoop_outside (hidx : idx ≤ b.bitCnt) (h : b.bitCnt < idx + cnt) :
    b.containsLoop value cnt idx =
      if value ∈ b.vec.drop idx then .ok true else .error .assertion := by
  induction cnt generalizing idx with
  | zero => omega
  | succ cnt ih =>
      unfold containsLoop
      by_cases hlt : idx < b.bitCnt
      · have hmem : value ∈ b.vec.drop idx ↔
            b.bit idx = value ∨ value ∈ b.vec.drop (idx + 1) := by
          have hlt' : idx < b.vec.length := by rwa [length_vec]
          rw [List.drop_eq_getElem_cons hlt', getElem_vec hlt', List.mem_cons, eq_comm]
        rw [test_eq hlt, ok_bind, ih (by omega) (by omega)]
        simp only [hmem]
        by_cases hbit : b.bit idx = value
        · rw [if_pos hbit, if_pos (Or.inl hbit)]
        · simp only [hbit, if_false, false_or]
      · have hnil : b.vec.drop idx = [] := List.drop_eq_nil_of_le (by rw [length_vec]; omega)
        unfold test
        rw [if_neg hlt, hnil]
        rfl

/-! ### The operations -/

/-- The operations on a range of bits that is inside the bitmap. -/
structure RangeOps (b : Bitmap) (start cnt : Nat) (value : Bool) : Prop where
  set : ∃ b', b.setMultiple start cnt value = .ok b' ∧ b'.bitCnt = b.bitCnt ∧
    b'.vec = overwrite b.vec start cnt value
  count : b.count start cnt value = .ok ((b.slice start cnt).count value)
  contains : b.contains start cnt value = .ok (decide (value ∈ b.slice start cnt))

/-- The operations on a range that is not: nothing is returned but the truth. -/
structure RangeFails (b : Bitmap) (start cnt : Nat) (value : Bool) : Prop where
  set : b.setMultiple start cnt value = .error .assertion
  count : b.count start cnt value = .error .assertion
  contains : b.contains start cnt value = .error .assertion ∨
    (b.contains start cnt value = .ok true ∧ value ∈ b.vec.drop start)

/-- The search for a group of bits. -/
structure ScanOps (b : Bitmap) (start cnt : Nat) (value : Bool) : Prop where
  scan : ∃ r, b.scan start cnt value = .ok r ∧
    (∀ i, r = some i ↔ IsLeast (b.Groups start cnt value) i) ∧
    (r = none ↔ b.Groups start cnt value = ∅)
  flip : ∃ b' r, b.scan start cnt value = .ok r ∧ b.scanAndFlip start cnt value = .ok (b', r) ∧
    b'.bitCnt = b.bitCnt ∧ (r = none → b' = b) ∧
    ∀ i, r = some i → b'.vec = overwrite b.vec i cnt (!value)

theorem rangeOps (hb : b.bitCnt < 2 ^ 32) (h : start + cnt ≤ b.bitCnt) (value : Bool) :
    b.RangeOps start cnt value := by
  refine ⟨?_, ?_, ?_⟩
  · obtain ⟨b', hset, hcnt, hbit⟩ := setMultiple_spec hb h value
    exact ⟨b', hset, hcnt, vec_eq_overwrite h hcnt hbit⟩
  · unfold count
    rw [if_pos (inRange_iff hb h), countLoop_eq h, Nat.zero_add]
  · obtain ⟨r, hcontains, hr⟩ := contains_spec hb h value
    rw [hcontains]
    congr 1
    rw [Bool.eq_iff_iff, hr, decide_eq_true_iff, mem_slice h]

theorem rangeFails (hstart : start ≤ b.bitCnt) (h : b.bitCnt < start + cnt) (value : Bool) :
    b.RangeFails start cnt value := by
  refine ⟨?_, ?_, ?_⟩
  · unfold setMultiple
    split
    · exact setLoop_outside hstart h
    · rfl
  · unfold count
    split
    · exact countLoop_outside hstart h 0
    · rfl
  · unfold contains
    split
    · rw [containsLoop_outside hstart h]
      split
      · rename_i hmem
        exact Or.inr ⟨rfl, hmem⟩
      · exact Or.inl rfl
    · exact Or.inl rfl

theorem First.isLeast (h : b.First start cnt value i) : IsLeast (b.Groups start cnt value) i := by
  refine ⟨⟨h.start_le, h.le, (group_iff h.le).mp h.group⟩, fun j hj => ?_⟩
  obtain ⟨h₁, h₂, h₃⟩ := hj
  by_contra hlt
  exact h.first j h₁ (by omega) ((group_iff h₂).mpr h₃)

/-- The functions that look for a group of bits do so on the list of bits: a group is a run of
equal elements, and the first one is the least index. -/
theorem scanOps (hb : b.bitCnt < 2 ^ 32) (hstart : start ≤ b.bitCnt) (cnt : Nat) (value : Bool) :
    b.ScanOps start cnt value := by
  obtain ⟨r, hscan, hsome, hnone⟩ := scan_spec hb hstart cnt value
  refine ⟨⟨r, hscan, fun i => ⟨fun hr => (hsome i hr).isLeast, fun hleast => ?_⟩, ?_⟩, ?_⟩
  · cases r with
    | none =>
        obtain ⟨⟨h₁, h₂, h₃⟩, -⟩ := hleast
        exact absurd ((group_iff h₂).mpr h₃) (hnone rfl i h₁ h₂)
    | some j => rw [(hsome j rfl).isLeast.unique hleast]
  · constructor
    · intro hr
      rw [Set.eq_empty_iff_forall_notMem]
      rintro i ⟨h₁, h₂, h₃⟩
      exact hnone hr i h₁ h₂ ((group_iff h₂).mpr h₃)
    · intro hempty
      cases r with
      | none => rfl
      | some i =>
          have hmem := (hsome i rfl).isLeast.1
          rw [hempty] at hmem
          exact absurd hmem (Set.notMem_empty i)
  · obtain ⟨b', r', hscan', hflip, hcnt, hsame, hbit⟩ := scanAndFlip_scan hb hstart cnt value
    rw [hscan] at hscan'
    cases hscan'
    exact ⟨b', r, hscan, hflip, hcnt, hsame, fun i hi =>
      vec_eq_overwrite (hsome i hi).le hcnt (hbit i hi)⟩

/-- `BITMAP_ERROR`, which `none` stands for. -/
def BITMAP_ERROR : Nat := 2 ^ 32 - 1

/-- **Bitmaps are vectors of booleans.** For every number of bits below `BITMAP_ERROR`
(`bitmap_create` gives no larger bitmap), range and value: on a range inside the bitmap the
operations do what they do on a list, on one that is not they fail an assertion, and the
search finds the first group there is. -/
theorem bitmap_refines (b : Bitmap) (hb : b.bitCnt < BITMAP_ERROR) (start cnt : Nat)
    (value : Bool) (hstart : start ≤ b.bitCnt) :
    (start + cnt ≤ b.bitCnt → b.RangeOps start cnt value) ∧
      (b.bitCnt < start + cnt → b.RangeFails start cnt value) ∧ b.ScanOps start cnt value := by
  have hlt : b.bitCnt < 2 ^ 32 := Nat.lt_trans hb (by decide)
  exact ⟨fun h => rangeOps hlt h value, fun h => rangeFails hstart h value,
    scanOps hlt hstart cnt value⟩

/-- A bitmap of 70 bits, at a range that crosses two elements. -/
theorem bitmap_refines_seventy : ∃ b : Bitmap, b.bitCnt = 70 ∧ (b.RangeOps 30 40 true ∧
    b.RangeFails 30 41 true ∧ b.ScanOps 30 40 true) := by
  have h₁ := bitmap_refines ⟨70, fun _ => 0⟩ (by decide) 30 40 true (by decide)
  have h₂ := bitmap_refines ⟨70, fun _ => 0⟩ (by decide) 30 41 true (by decide)
  exact ⟨⟨70, fun _ => 0⟩, rfl, h₁.1 (by decide), h₂.2.1 (by decide), h₁.2.2⟩

end Bitmap

end OsTools.Kernel

import OsTools.Kernel.Bitmap
import OsTools.Lib.Bytes
import OsTools.Lib.Except
import OsTools.Lib.Heap
/-!
# OsTools.Stdlib.Sort

`sort` of `lib/stdlib.c`: heapsort of an array whose elements are blocks of `size` bytes, by a
comparison that is passed in. The functions go by 1-based indices, and an index outside of the
heap at hand is a fault.

The code acts on the elements as `Heapsort.siftDown` and `Heapsort.heapsort` do (`heapify_refines`,
`sort_refines`).

## Proof shape

There are two layers. Below, bytes: an element is a block of `size` bytes, `do_swap`
exchanges two blocks that do not overlap (`doSwap_spec`), and nothing outside of the array
changes (`SameOutside`). Above, `OsTools.Lib.Heap` has heapsort on a function from indices
to elements, with its invariant and its order. `heapify_refines`, `buildHeap_refines` and
`sortHeap_refines` connect the two, one loop each: from the elements before, the code makes
those that the abstract function makes. So the order of the result is never argued about in
bytes.

That `heapify` returns is separate from what it does, because it holds for every comparison,
and for the elements of an array that is no heap.
-/

namespace OsTools.Stdlib

open OsTools.Kernel

/-- The bytes of an element. -/
abbrev Elem (size : Nat) := Fin size → UInt8

/-- The element at an address. -/
def elemAt (m : Mem) (size p : Nat) : Elem size := fun j => m (p + j)

/-- `array + (idx - 1) * size`. -/
def elemPtr (array size idx : Nat) : Nat := (array + (idx - 1) * size) % 2 ^ 32

/-! ### The code -/

/-- The loop of `do_swap`, with `n` bytes to go. -/
def swapBytes (a b : Nat) : Nat → Nat → Mem → Mem
  | 0, _, m => m
  | n + 1, i, m => swapBytes a b n (i + 1) ((m.put (a + i) (m (b + i))).put (b + i) (m (a + i)))

/-- `do_swap`, in a heap of `cnt` elements. -/
def doSwap (array size cnt : Nat) (m : Mem) (aIdx bIdx : Nat) : Except Stop Mem :=
  if (1 ≤ aIdx ∧ aIdx ≤ cnt) ∧ 1 ≤ bIdx ∧ bIdx ≤ cnt then
    .ok (swapBytes (elemPtr array size aIdx) (elemPtr array size bIdx) size 0 m)
  else .error .fault

section Code

variable {size : Nat} (compare : Elem size → Elem size → Int) (array : Nat)

/-- `do_compare`, in a heap of `cnt` elements. -/
def doCompare (cnt : Nat) (m : Mem) (aIdx bIdx : Nat) : Except Stop Int :=
  if (1 ≤ aIdx ∧ aIdx ≤ cnt) ∧ 1 ≤ bIdx ∧ bIdx ≤ cnt then
    .ok (compare (elemAt m size (elemPtr array size aIdx)) (elemAt m size (elemPtr array size bIdx)))
  else .error .fault

/-- `if (child <= cnt && do_compare (array, child, max, ...) > 0) max = child`. -/
def pickMax (cnt : Nat) (m : Mem) (child max : Nat) : Except Stop Nat :=
  if child ≤ cnt then do
    if 0 < (← doCompare compare array cnt m child max) then .ok child else .ok max
  else .ok max

/-- `heapify`, with a bound on its rounds. -/
def heapify (cnt : Nat) : Nat → Mem → Nat → Except Stop Mem
  | 0, _, _ => .error .fault
  | rounds + 1, m, i => do
      let max ← pickMax compare array cnt m (2 * i % 2 ^ 32) i
      let max ← pickMax compare array cnt m ((2 * i + 1) % 2 ^ 32) max
      if max = i then .ok m
      else
        let m ← doSwap array size cnt m i max
        heapify cnt rounds m max

/-- "Build a heap": the first loop of `sort`, from `i` on. -/
def buildHeap (cnt : Nat) : Nat → Mem → Except Stop Mem
  | 0, m => .ok m
  | i + 1, m => do
      let m ← heapify compare array cnt cnt m (i + 1)
      buildHeap cnt i m

/-- "Sort the heap": the second loop. -/
def sortHeap (cnt : Nat) : Nat → Mem → Except Stop Mem
  | 0, m => .ok m
  | 1, m => .ok m
  | i + 2, m => do
      let m ← doSwap array size cnt m 1 (i + 2)
      let m ← heapify compare array (i + 1) (i + 1) m 1
      sortHeap cnt (i + 1) m

/-- `sort`. -/
def sort (m : Mem) (cnt : Nat) : Except Stop Mem :=
  if (array = 0 ∧ cnt ≠ 0) ∨ size = 0 then .error .assertion
  else do
    let m ← buildHeap compare array cnt (cnt / 2) m
    sortHeap compare array cnt cnt m

end Code

/-! ### Arrays -/

/-- `PTRDIFF_MAX`. -/
def PTRDIFF_MAX : Nat := 2 ^ 31 - 1

/-- An array object of C. Its end has an address. No object has more than `PTRDIFF_MAX` bytes, and
what matters here is that an array of single bytes has not. -/
structure IsArray (array cnt size : Nat) : Prop where
  nonnull : array = 0 → cnt = 0
  positive : 0 < size
  fits : array + cnt * size < 2 ^ 32
  object : size = 1 → cnt ≤ PTRDIFF_MAX

/-- A `strcmp()`-type result for a total preorder. -/
structure TotalPreorder {size : Nat} (compare : Elem size → Elem size → Int) : Prop where
  sign : ∀ x y, 0 < compare x y ↔ compare y x < 0
  trans : ∀ x y z, compare x y ≤ 0 → compare y z ≤ 0 → compare x z ≤ 0

/-- The elements by their indices, as the heap counts them. -/
def elems (array size : Nat) (m : Mem) : Nat → Elem size
  | 0 => fun _ => 0
  | k + 1 => elemAt m size (array + k * size)

/-- The elements in order. -/
def elements (array size : Nat) (m : Mem) (cnt : Nat) : List (Elem size) :=
  (List.range cnt).map fun k => elems array size m (k + 1)

/-- Nothing but the array has changed. -/
def SameOutside (array cnt size : Nat) (m m' : Mem) : Prop :=
  ∀ x, x < array ∨ array + cnt * size ≤ x → m' x = m x

variable {array cnt size n i j k rounds : Nat} {m m' : Mem} {compare : Elem size → Elem size → Int}
  {a' : Nat → Elem size}

theorem SameOutside.trans {m'' : Mem} (h : SameOutside array cnt size m m')
    (h' : SameOutside array cnt size m' m'') : SameOutside array cnt size m m'' :=
  fun x hx => (h' x hx).trans (h x hx)

/-- An element is within the array. -/
theorem elem_le (size array : Nat) (hk : k < cnt) :
    array + k * size + size ≤ array + cnt * size := by
  have hle := Nat.mul_le_mul_right size hk
  rw [Nat.succ_mul] at hle
  omega

namespace IsArray

theorem count_lt (h : IsArray array cnt size) : cnt < 2 ^ 31 := by
  have hpositive := h.positive
  by_cases hbytes : size = 1
  · have hobject := h.object hbytes
    unfold PTRDIFF_MAX at hobject
    omega
  · have hle : cnt * 2 ≤ cnt * size := Nat.mul_le_mul_left cnt (by omega)
    have hfits := h.fits
    omega

theorem elemPtr_eq (h : IsArray array cnt size) (hk : k < cnt) :
    elemPtr array size (k + 1) = array + k * size := by
  have hle := elem_le size array hk
  have hfits := h.fits
  exact Nat.mod_eq_of_lt (by rw [Nat.add_sub_cancel]; omega)

theorem elemAt_elemPtr (h : IsArray array cnt size) (hi : 1 ≤ i ∧ i ≤ cnt) (m : Mem) :
    elemAt m size (elemPtr array size i) = elems array size m i := by
  obtain ⟨k, rfl⟩ := Nat.exists_eq_succ_of_ne_zero (Nat.ne_zero_of_lt hi.1)
  rw [h.elemPtr_eq hi.2]
  rfl

end IsArray

/-! ### Swapping -/

/-- The loop exchanges the bytes of two blocks. -/
theorem swapBytes_apply {a b : Nat} (h : a + i + n ≤ b + i ∨ b + i + n ≤ a + i) (m : Mem) (x : Nat) :
    swapBytes a b n i m x =
      if a + i ≤ x ∧ x < a + i + n then m (b + (x - a))
      else if b + i ≤ x ∧ x < b + i + n then m (a + (x - b)) else m x := by
  induction n generalizing i m with
  | zero =>
      rw [if_neg (by omega), if_neg (by omega)]
      rfl
  | succ n ih =>
      have hput : ∀ y, y ≠ a + i → y ≠ b + i →
          ((m.put (a + i) (m (b + i))).put (b + i) (m (a + i))) y = m y := by
        intro y ha hb
        rw [Mem.put_other hb, Mem.put_other ha]
      rw [swapBytes, ih (by omega)]
      by_cases ha : x = a + i
      · rw [if_neg (by omega), if_neg (by omega), if_pos (by omega), Mem.put_other (by omega), ha,
          Mem.put_same]
        exact congrArg m (by omega)
      by_cases hb : x = b + i
      · rw [if_neg (by omega), if_neg (by omega), if_neg (by omega), if_pos (by omega), hb,
          Mem.put_same]
        exact congrArg m (by omega)
      by_cases hina : a + i ≤ x ∧ x < a + i + (n + 1)
      · rw [if_pos (by omega), if_pos hina]
        exact hput _ (by omega) (by omega)
      · rw [if_neg (by omega), if_neg hina]
        by_cases hinb : b + i ≤ x ∧ x < b + i + (n + 1)
        · rw [if_pos (by omega), if_pos hinb]
          exact hput _ (by omega) (by omega)
        · rw [if_neg (by omega), if_neg hinb]
          exact hput x ha hb

/-- Blocks of different elements do not overlap. -/
theorem elem_apart (size : Nat) (h : i < j) : i * size + size ≤ j * size := by
  have hle := Nat.mul_le_mul_right size h
  rwa [Nat.succ_mul] at hle

theorem not_in_block (array : Nat) {p q t : Nat} (hne : p ≠ q) (ht : t < size) :
    ¬ (array + q * size + 0 ≤ array + p * size + t ∧
      array + p * size + t < array + q * size + 0 + size) := by
  rcases Nat.lt_or_gt_of_ne hne with hlt | hgt
  · have happart := elem_apart size hlt
    omega
  · have happart := elem_apart size hgt
    omega

/-- `do_swap` exchanges two elements. -/
theorem doSwap_spec (harr : IsArray array cnt size) (hn : n ≤ cnt) (hi : 1 ≤ i ∧ i ≤ n)
    (hj : 1 ≤ j ∧ j ≤ n) (hne : i ≠ j) (m : Mem) : ∃ m', doSwap array size n m i j = .ok m' ∧
      elems array size m' = Heapsort.swap (elems array size m) i j ∧
      SameOutside array cnt size m m' := by
  obtain ⟨i, rfl⟩ := Nat.exists_eq_succ_of_ne_zero (Nat.ne_zero_of_lt hi.1)
  obtain ⟨j, rfl⟩ := Nat.exists_eq_succ_of_ne_zero (Nat.ne_zero_of_lt hj.1)
  have hblocks : array + i * size + 0 + size ≤ array + j * size + 0 ∨
      array + j * size + 0 + size ≤ array + i * size + 0 := by
    rcases Nat.lt_or_gt_of_ne (fun h => hne (congrArg Nat.succ h) : i ≠ j) with hlt | hgt
    · have happart := elem_apart size hlt
      exact Or.inl (by omega)
    · have happart := elem_apart size hgt
      exact Or.inr (by omega)
  have hswap := fun x => swapBytes_apply hblocks m x
  have hendi := elem_le size array (Nat.lt_of_lt_of_le hi.2 hn)
  have hendj := elem_le size array (Nat.lt_of_lt_of_le hj.2 hn)
  refine ⟨_, if_pos ⟨hi, hj⟩, ?_, fun x hx => ?_⟩
  · rw [harr.elemPtr_eq (Nat.lt_of_lt_of_le hi.2 hn), harr.elemPtr_eq (Nat.lt_of_lt_of_le hj.2 hn)]
    funext k t
    have ht := t.isLt
    cases k with
    | zero => rw [Heapsort.swap_other (by omega) (by omega)]; rfl
    | succ k =>
        have helem : ∀ m : Mem, elems array size m (k + 1) t = m (array + k * size + t) :=
          fun _ => rfl
        rw [helem, hswap]
        by_cases hki : k = i
        · subst hki
          rw [if_pos (by omega), Heapsort.swap_left]
          exact congrArg m (by omega)
        by_cases hkj : k = j
        · subst hkj
          rw [if_neg (by omega), if_pos (by omega), Heapsort.swap_right]
          exact congrArg m (by omega)
        rw [Heapsort.swap_other (by omega) (by omega), helem]
        rw [if_neg (not_in_block array hki ht), if_neg (not_in_block array hkj ht)]
  · rw [harr.elemPtr_eq (Nat.lt_of_lt_of_le hi.2 hn), harr.elemPtr_eq (Nat.lt_of_lt_of_le hj.2 hn),
      hswap, if_neg (by omega), if_neg (by omega)]

/-! ### The heap -/

/-- The order that the comparison stands for. -/
def NotGreater (compare : Elem size → Elem size → Int) (x y : Elem size) : Prop := compare x y ≤ 0

instance (compare : Elem size → Elem size → Int) : DecidableRel (NotGreater compare) :=
  fun x y => inferInstanceAs (Decidable (compare x y ≤ 0))

theorem TotalPreorder.total (h : TotalPreorder compare) : Std.Total (NotGreater compare) := by
  refine ⟨fun x y => ?_⟩
  unfold NotGreater
  by_cases hxy : 0 < compare x y
  · have := (h.sign x y).mp hxy
    omega
  · omega

theorem TotalPreorder.isTrans (h : TotalPreorder compare) : IsTrans (Elem size) (NotGreater compare) :=
  ⟨h.trans⟩

theorem pickMax_eq (harr : IsArray array cnt size) (hn : n ≤ cnt) (hi : 1 ≤ i)
    (hj : 1 ≤ j ∧ j ≤ n) (m : Mem) : pickMax compare array n m i j =
      .ok (Heapsort.greater (NotGreater compare) n (elems array size m) i j) := by
  unfold pickMax Heapsort.greater
  by_cases hin : i ≤ n
  · have hcompare : doCompare compare array n m i j =
        .ok (compare (elems array size m i) (elems array size m j)) := by
      unfold doCompare
      rw [if_pos ⟨⟨hi, hin⟩, hj⟩, harr.elemAt_elemPtr ⟨hi, by omega⟩,
        harr.elemAt_elemPtr ⟨hj.1, by omega⟩]
    rw [if_pos hin, hcompare, ok_bind]
    by_cases hgt : 0 < compare (elems array size m i) (elems array size m j)
    · rw [if_pos hgt, if_pos ⟨hin, by unfold NotGreater; omega⟩]
    · rw [if_neg hgt, if_neg fun h => h.2 (by unfold NotGreater; omega)]
  · rw [if_neg hin, if_neg fun h => hin h.1]

/-- `heapify` moves the elements as `Heapsort.siftDown` does; with `n < 2 ^ 31` the indices of the
children do not wrap around. -/
theorem heapify_refines (harr : IsArray array cnt size) (hn : n ≤ cnt) (hi : 1 ≤ i ∧ i ≤ n)
    (h : Heapsort.siftDown (NotGreater compare) n rounds (elems array size m) i = some a') :
    ∃ m', heapify compare array n rounds m i = .ok m' ∧ elems array size m' = a' ∧
      SameOutside array cnt size m m' := by
  induction rounds generalizing m i with
  | zero => cases h
  | succ rounds ih =>
      have hcount := harr.count_lt
      have hleft : 2 * i % 2 ^ 32 = 2 * i := Nat.mod_eq_of_lt (by omega)
      have hright : (2 * i + 1) % 2 ^ 32 = 2 * i + 1 := Nat.mod_eq_of_lt (by omega)
      have hmax := Heapsort.greatest_cases (NotGreater compare) n (elems array size m) i
      have hfirst : 1 ≤ Heapsort.greater (NotGreater compare) n (elems array size m) (2 * i) i ∧
          Heapsort.greater (NotGreater compare) n (elems array size m) (2 * i) i ≤ n := by
        rcases Heapsort.greater_cases (NotGreater compare) n (elems array size m) (2 * i) i with
          heq | ⟨heq, hle⟩
        · rw [heq]
          exact hi
        · rw [heq]
          omega
      unfold heapify
      rw [hleft, hright, pickMax_eq harr hn (by omega) hi, ok_bind,
        pickMax_eq harr hn (by omega) hfirst, ok_bind]
      unfold Heapsort.siftDown at h
      change ∃ m', (if Heapsort.greatest (NotGreater compare) n (elems array size m) i = i then _
        else _) = _ ∧ _
      by_cases hstop : Heapsort.greatest (NotGreater compare) n (elems array size m) i = i
      · rw [if_pos hstop] at h ⊢
        exact ⟨m, rfl, Option.some.inj h, fun _ _ => rfl⟩
      · obtain ⟨hchild, hle⟩ := hmax.resolve_left hstop
        have hgt := hchild.gt hi.1
        obtain ⟨m₁, hswap, helems, hsame⟩ :=
          doSwap_spec harr hn hi (by omega : 1 ≤ Heapsort.greatest (NotGreater compare) n
            (elems array size m) i ∧ Heapsort.greatest (NotGreater compare) n (elems array size m) i ≤ n)
            (Ne.symm hstop) m
        rw [if_neg hstop] at h ⊢
        rw [← helems] at h
        obtain ⟨m₂, hrest, helems₂, hsame₂⟩ := ih (by omega) h
        refine ⟨m₂, ?_, helems₂, hsame.trans hsame₂⟩
        exact (congrArg (· >>= _) hswap).trans hrest

/-- `heapify` returns for every comparison and every element of the heap. -/
theorem heapify_returns (harr : IsArray array cnt size) (hn : n ≤ cnt) (hi : 1 ≤ i ∧ i ≤ n)
    (compare : Elem size → Elem size → Int) (m : Mem) :
    ∃ m', heapify compare array n n m i = .ok m' := by
  obtain ⟨a', hdown, -⟩ := Heapsort.siftDown_permutes (r := NotGreater compare)
    (a := elems array size m) hi (by omega : n < i + n)
  obtain ⟨m', hheapify, -⟩ := heapify_refines harr hn hi hdown
  exact ⟨m', hheapify⟩

/-! ### The loops -/

theorem buildHeap_refines (harr : IsArray array cnt size) (hk : k ≤ cnt)
    (h : Heapsort.build (NotGreater compare) cnt k (elems array size m) = some a') :
    ∃ m', buildHeap compare array cnt k m = .ok m' ∧ elems array size m' = a' ∧
      SameOutside array cnt size m m' := by
  induction k generalizing m with
  | zero => exact ⟨m, rfl, Option.some.inj h, fun _ _ => rfl⟩
  | succ k ih =>
      rw [Heapsort.build] at h
      obtain ⟨a₁, hdown, hbuild⟩ := Option.bind_eq_some_iff.mp h
      obtain ⟨m₁, hheapify, helems, hsame⟩ :=
        heapify_refines harr (Nat.le_refl cnt) ⟨Nat.succ_pos k, hk⟩ hdown
      rw [← helems] at hbuild
      obtain ⟨m₂, hrest, helems₂, hsame₂⟩ := ih (by omega) hbuild
      refine ⟨m₂, ?_, helems₂, hsame.trans hsame₂⟩
      rw [buildHeap, hheapify, ok_bind, hrest]

theorem sortHeap_refines (harr : IsArray array cnt size) (hi : i ≤ cnt)
    (h : Heapsort.empty (NotGreater compare) i (elems array size m) = some a') :
    ∃ m', sortHeap compare array cnt i m = .ok m' ∧ elems array size m' = a' ∧
      SameOutside array cnt size m m' := by
  induction i using Nat.strongRecOn generalizing m with
  | ind i ih =>
      match i with
      | 0 => exact ⟨m, rfl, Option.some.inj h, fun _ _ => rfl⟩
      | 1 => exact ⟨m, rfl, Option.some.inj h, fun _ _ => rfl⟩
      | i + 2 =>
          rw [Heapsort.empty] at h
          obtain ⟨a₁, hdown, hempty⟩ := Option.bind_eq_some_iff.mp h
          obtain ⟨m₁, hswap, helems, hsame⟩ := doSwap_spec harr (Nat.le_refl cnt)
            (by omega : 1 ≤ 1 ∧ 1 ≤ cnt) (by omega : 1 ≤ i + 2 ∧ i + 2 ≤ cnt) (by omega) m
          rw [← helems] at hdown
          obtain ⟨m₂, hheapify, helems₂, hsame₂⟩ :=
            heapify_refines harr (by omega) (by omega : 1 ≤ 1 ∧ 1 ≤ i + 1) hdown
          rw [← helems₂] at hempty
          obtain ⟨m₃, hrest, helems₃, hsame₃⟩ := ih (i + 1) (by omega) (by omega) hempty
          refine ⟨m₃, ?_, helems₃, hsame.trans (hsame₂.trans hsame₃)⟩
          rw [sortHeap, hswap, ok_bind, hheapify, ok_bind, hrest]

/-- The elements in nondecreasing order. -/
def SortedBy (compare : Elem size → Elem size → Int) (l : List (Elem size)) : Prop :=
  l.Pairwise fun x y => compare x y ≤ 0

/-- `sort` sorts. -/
theorem sort_sorts (harr : IsArray array cnt size) (h : TotalPreorder compare) (m : Mem) :
    ∃ m', sort compare array m cnt = .ok m' ∧ SortedBy compare (elements array size m' cnt) ∧
      (elements array size m' cnt).Perm (elements array size m cnt) ∧
      SameOutside array cnt size m m' := by
  have htotal := h.total
  have htrans := h.isTrans
  obtain ⟨a', hsort, hperm, hsorted⟩ :=
    Heapsort.heapsort_spec (NotGreater compare) cnt (elems array size m)
  rw [Heapsort.heapsort] at hsort
  obtain ⟨a₁, hbuild, hempty⟩ := Option.bind_eq_some_iff.mp hsort
  obtain ⟨m₁, hbuildHeap, helems, hsame⟩ :=
    buildHeap_refines harr (Nat.div_le_self cnt 2) hbuild
  rw [← helems] at hempty
  obtain ⟨m₂, hsortHeap, helems₂, hsame₂⟩ := sortHeap_refines harr (Nat.le_refl cnt) hempty
  have hassert : ¬ ((array = 0 ∧ cnt ≠ 0) ∨ size = 0) := by
    intro hor
    rcases hor with ⟨hnull, hcnt⟩ | hzero
    · exact hcnt (harr.nonnull hnull)
    · exact Nat.ne_of_gt harr.positive hzero
  refine ⟨m₂, ?_, ?_, ?_, hsame.trans hsame₂⟩
  · unfold sort
    rw [if_neg hassert, hbuildHeap, ok_bind, hsortHeap]
  · unfold SortedBy elements
    rw [helems₂, List.pairwise_map]
    refine List.pairwise_lt_range.imp_of_mem fun {j k} _ hk hjk => ?_
    have hlast := List.mem_range.mp hk
    exact hsorted (j + 1) (k + 1) (Nat.succ_pos j) (by omega) (by omega)
  · unfold elements
    rw [helems₂]
    exact hperm.perm

end OsTools.Stdlib

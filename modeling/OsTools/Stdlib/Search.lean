import OsTools.Lib.Word
import OsTools.Stdlib.Sort
/-!
# OsTools.Stdlib.Search

`binary_search` of `lib/stdlib.c`, on an array that `sort` has sorted. The two pointers enclose
the elements that may still be equal to the key (`Enclosed`). With an array object the difference
of the pointers is a multiple of the size of an element.

## Proof shape

The loop keeps `Enclosed`. The middle is an element of the array because the difference of
the pointers is a multiple of the size, halved and rounded down; then the comparison
discards one side (`left`, `right`). That it may do so is `TotalPreorder.greater_mono`: in a
sorted array, to be less than the key is inherited to the front. The induction is on the
number of elements that are left.
-/

namespace OsTools.Stdlib

open OsTools.Kernel

section Code

variable {size : Nat} (compare : Elem size → Elem size → Int)

/-- The loop of `binary_search`, with a bound on its rounds, in an array from `array` up to
`bound`. -/
def searchLoop (m : Mem) (key : Elem size) (array bound : Nat) :
    Nat → Nat → Nat → Except Stop (Option Nat)
  | 0, _, _ => .error .fault
  | rounds + 1, first, last =>
      if first < last then
        let range := sub32 last first / size
        let middle := (first + range / 2 * size) % 2 ^ 32
        if middle < array ∨ bound < middle + size then .error .fault
        else
          let cmp := compare key (elemAt m size middle)
          if cmp < 0 then searchLoop m key array bound rounds first middle
          else if 0 < cmp then
            searchLoop m key array bound rounds ((middle + size) % 2 ^ 32) last
          else .ok (some middle)
      else .ok none

/-- `binary_search`. -/
def binarySearch (m : Mem) (key : Elem size) (array cnt : Nat) : Except Stop (Option Nat) :=
  searchLoop compare m key array ((array + size * cnt) % 2 ^ 32) (cnt + 1) array
    ((array + size * cnt) % 2 ^ 32)

end Code

/-- The result is an element equal to the key, or null when there is none. -/
def Finds {size : Nat} (compare : Elem size → Elem size → Int) (m : Mem) (key : Elem size)
    (array cnt : Nat) : Option Nat → Prop
  | some p => ∃ k < cnt, p = array + k * size ∧ compare key (elems array size m (k + 1)) = 0
  | none => ∀ k < cnt, compare key (elems array size m (k + 1)) ≠ 0

/-- The elements before `lo` are less than the key, and those from `hi` on are greater. -/
structure Enclosed {size : Nat} (compare : Elem size → Elem size → Int) (m : Mem) (key : Elem size)
    (array cnt lo hi : Nat) : Prop where
  le : lo ≤ hi
  bound : hi ≤ cnt
  before : ∀ k < lo, 0 < compare key (elems array size m (k + 1))
  behind : ∀ k, hi ≤ k → k < cnt → compare key (elems array size m (k + 1)) < 0

variable {array cnt size lo hi mid rounds : Nat} {m : Mem} {key : Elem size}
  {compare : Elem size → Elem size → Int}

/-- In a sorted array, what is less than the key comes before what is not. -/
theorem TotalPreorder.greater_mono (h : TotalPreorder compare) {x y : Elem size}
    (hxy : compare x y ≤ 0) (hy : 0 < compare key y) : 0 < compare key x := by
  by_contra hle
  have := h.trans key x y (by omega) hxy
  omega

theorem TotalPreorder.less_mono (h : TotalPreorder compare) {x y : Elem size}
    (hxy : compare x y ≤ 0) (hx : compare key x < 0) : compare key y < 0 := by
  have hgt := (h.sign x key).mpr hx
  by_contra hle
  have hyk : compare y key ≤ 0 := by
    by_contra hpos
    have := (h.sign y key).mp (by omega)
    omega
  have := h.trans x y key hxy hyk
  omega

theorem sorted_elems (h : TotalPreorder compare)
    (hs : SortedBy compare (elements array size m cnt)) {j k : Nat} (hjk : j ≤ k) (hk : k < cnt) :
    compare (elems array size m (j + 1)) (elems array size m (k + 1)) ≤ 0 := by
  by_cases heq : j = k
  · have hrefl := h.total.total (elems array size m (k + 1)) (elems array size m (k + 1))
    rw [heq]
    exact hrefl.elim id id
  · unfold SortedBy elements at hs
    rw [List.pairwise_map] at hs
    have hpair := (List.pairwise_iff_getElem.mp hs) j k (by simp; omega) (by simp; omega) (by omega)
    simpa using hpair

namespace Enclosed

/-- The key is less than the element in the middle. -/
theorem left (h : Enclosed compare m key array cnt lo hi) (hc : TotalPreorder compare)
    (hs : SortedBy compare (elements array size m cnt)) (hmid : lo ≤ mid ∧ mid < hi)
    (hless : compare key (elems array size m (mid + 1)) < 0) :
    Enclosed compare m key array cnt lo mid := by
  have hbound := h.bound
  refine ⟨hmid.1, by omega, h.before, fun k hk hkn => ?_⟩
  exact hc.less_mono (sorted_elems hc hs hk hkn) hless

/-- It is greater. -/
theorem right (h : Enclosed compare m key array cnt lo hi) (hc : TotalPreorder compare)
    (hs : SortedBy compare (elements array size m cnt)) (hmid : lo ≤ mid ∧ mid < hi)
    (hgreater : 0 < compare key (elems array size m (mid + 1))) :
    Enclosed compare m key array cnt (mid + 1) hi := by
  have hbound := h.bound
  refine ⟨by omega, h.bound, fun k hk => ?_, h.behind⟩
  exact hc.greater_mono (sorted_elems hc hs (Nat.le_of_lt_succ hk) (by omega)) hgreater

/-- There is nothing left between the pointers. -/
theorem none_equal (h : Enclosed compare m key array cnt lo lo) :
    Finds compare m key array cnt none := by
  intro k hk heq
  by_cases hlt : k < lo
  · have := h.before k hlt
    omega
  · have := h.behind k (by omega) hk
    omega

end Enclosed

/-- The element in the middle. -/
theorem middle_eq (harr : IsArray array cnt size) (hlt : lo < hi) (hhi : hi ≤ cnt) :
    (array + lo * size + sub32 (array + hi * size) (array + lo * size) / size / 2 * size) % 2 ^ 32 =
      array + (lo + (hi - lo) / 2) * size := by
  have hle : lo * size ≤ hi * size := Nat.mul_le_mul_right size (Nat.le_of_lt hlt)
  have htop : hi * size ≤ cnt * size := Nat.mul_le_mul_right size hhi
  have hfits := harr.fits
  have hrange : sub32 (array + hi * size) (array + lo * size) / size = hi - lo := by
    rw [sub32_eq (by omega) (by omega), Nat.add_sub_add_left, ← Nat.sub_mul,
      Nat.mul_div_cancel _ harr.positive]
  have hmid : (lo + (hi - lo) / 2) * size ≤ cnt * size := Nat.mul_le_mul_right size (by omega)
  rw [hrange, Nat.add_assoc, ← Nat.add_mul, Nat.mod_eq_of_lt (by omega)]

/-- The loop, with the pointers at two elements. -/
theorem searchLoop_spec (harr : IsArray array cnt size) (hc : TotalPreorder compare)
    (hs : SortedBy compare (elements array size m cnt))
    (h : Enclosed compare m key array cnt lo hi) (hrounds : hi - lo < rounds) :
    ∃ p, searchLoop compare m key array (array + cnt * size) rounds (array + lo * size)
      (array + hi * size) = .ok p ∧ Finds compare m key array cnt p := by
  induction rounds generalizing lo hi with
  | zero => exact absurd hrounds (Nat.not_lt_zero _)
  | succ rounds ih =>
      have hle := h.le
      have hbound := h.bound
      unfold searchLoop
      by_cases hlt : lo < hi
      · have hmul : lo * size < hi * size := Nat.mul_lt_mul_of_pos_right hlt harr.positive
        have hmid : lo ≤ lo + (hi - lo) / 2 ∧ lo + (hi - lo) / 2 < hi := by omega
        have hinside := elem_le size array (Nat.lt_of_lt_of_le hmid.2 hbound)
        have hfits := harr.fits
        rw [if_pos (by omega)]
        dsimp only
        rw [middle_eq harr hlt hbound]
        generalize lo + (hi - lo) / 2 = mid at hmid hinside ⊢
        have hnext : (array + mid * size + size) % 2 ^ 32 = array + (mid + 1) * size := by
          rw [Nat.succ_mul, ← Nat.add_assoc]
          exact Nat.mod_eq_of_lt (by omega)
        have helem : elemAt m size (array + mid * size) = elems array size m (mid + 1) := rfl
        rw [if_neg (by omega), hnext, helem]
        by_cases hless : compare key (elems array size m (mid + 1)) < 0
        · rw [if_pos hless]
          exact ih (h.left hc hs hmid hless) (by omega)
        by_cases hgreater : 0 < compare key (elems array size m (mid + 1))
        · rw [if_neg hless, if_pos hgreater]
          exact ih (h.right hc hs hmid hgreater) (by omega)
        · rw [if_neg hless, if_neg hgreater]
          exact ⟨_, rfl, mid, by omega, rfl, by omega⟩
      · have heq : hi = lo := by omega
        subst heq
        rw [if_neg (Nat.lt_irrefl _)]
        exact ⟨none, rfl, h.none_equal⟩

theorem binarySearch_finds (harr : IsArray array cnt size) (hc : TotalPreorder compare)
    (hs : SortedBy compare (elements array size m cnt)) (key : Elem size) :
    ∃ p, binarySearch compare m key array cnt = .ok p ∧ Finds compare m key array cnt p := by
  have hall : Enclosed compare m key array cnt 0 cnt :=
    ⟨Nat.zero_le cnt, Nat.le_refl cnt, nofun, fun k hk hkn => absurd hkn (Nat.not_lt_of_le hk)⟩
  have hend : (array + size * cnt) % 2 ^ 32 = array + cnt * size := by
    rw [Nat.mul_comm]
    exact Nat.mod_eq_of_lt harr.fits
  obtain ⟨p, hloop, hfinds⟩ := searchLoop_spec harr hc hs hall (Nat.lt_succ_self _)
  refine ⟨p, ?_, hfinds⟩
  rw [Nat.zero_mul] at hloop
  unfold binarySearch
  rw [hend]
  exact hloop

/-- **Sorting and searching.** `sort` leaves the array sorted, with the same elements; `heapify`
returns and keeps to the heap, for every heap in the array and every element of it; and
`binary_search` finds an element of a sorted array that is equal to the key, if there is one. -/
theorem sort_search_correct (harr : IsArray array cnt size) (hc : TotalPreorder compare) (m : Mem) :
    (∃ m', sort compare array m cnt = .ok m' ∧ SortedBy compare (elements array size m' cnt) ∧
      (elements array size m' cnt).Perm (elements array size m cnt) ∧
      SameOutside array cnt size m m') ∧
    (∀ n ≤ cnt, ∀ i, 1 ≤ i → i ≤ n → ∃ m', heapify compare array n n m i = .ok m') ∧
    (SortedBy compare (elements array size m cnt) → ∀ key, ∃ p,
      binarySearch compare m key array cnt = .ok p ∧ Finds compare m key array cnt p) :=
  ⟨sort_sorts harr hc m, fun _ hn _ hi hin => heapify_returns harr hn ⟨hi, hin⟩ compare m,
    fun hs key => binarySearch_finds harr hc hs key⟩

/-- Bytes, compared as numbers. -/
def compareBytes (x y : Elem 1) : Int := (x 0).toNat - (y 0).toNat

/-- Three bytes at the address 100. -/
theorem sort_search_correct_bytes :
    (∃ m', sort compareBytes 100 (fun a => UInt8.ofNat (200 - a)) 3 = .ok m' ∧
      SortedBy compareBytes (elements 100 1 m' 3) ∧
      (elements 100 1 m' 3).Perm (elements 100 1 (fun a => UInt8.ofNat (200 - a)) 3) ∧
      SameOutside 100 3 1 (fun a => UInt8.ofNat (200 - a)) m') ∧
    (∀ n ≤ 3, ∀ i, 1 ≤ i → i ≤ n → ∃ m',
      heapify compareBytes 100 n n (fun a => UInt8.ofNat (200 - a)) i = .ok m') ∧
    (SortedBy compareBytes (elements 100 1 (fun a => UInt8.ofNat (200 - a)) 3) → ∀ key, ∃ p,
      binarySearch compareBytes (fun a => UInt8.ofNat (200 - a)) key 100 3 = .ok p ∧
        Finds compareBytes (fun a => UInt8.ofNat (200 - a)) key 100 3 p) := by
  refine sort_search_correct ⟨by decide, by decide, by decide, by decide⟩ ⟨fun x y => ?_,
    fun x y z hxy hyz => ?_⟩ _
  · unfold compareBytes
    omega
  · unfold compareBytes at hxy hyz ⊢
    omega

end OsTools.Stdlib

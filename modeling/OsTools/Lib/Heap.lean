import Mathlib.Data.List.Nodup
import Mathlib.Data.List.Perm.Basic
import Mathlib.Logic.Equiv.Basic
import Mathlib.Order.Defs.Unbundled
/-!
# OsTools.Lib.Heap

Heapsort on an array with indices from 1 on, for any total preorder. The heap is built from the
last parent down to the root; then the root, which is a greatest element, changes places with
the last element of the heap, and the heap gets smaller by one.

`Sifting` is what holds while an element goes down the heap, and `Permutes` says of every part of
the algorithm that it exchanges elements of the heap only.

## Proof shape

The order of a heap is the relation between every child and its parent from some index on
(`OrderedFrom`). While an element goes down, the relation may fail between it and its
children, and only there; and its children are related to its parent, since it came from
there. That is `Sifting`, and a round moves the place where it may fail one level down
(`Sifting.step`). The loop ends when the element is related to its children, or there are
none.

Building goes from the last parent to the root, so that when an index is treated the heap is
in order behind it. Emptying keeps that everything behind the heap is in order and not less
than what is in the heap (`Emptying`), since the root is a greatest element.

That nothing but an exchange of elements happens is separate and needs no order: it holds
for every comparison, and with it that the rounds suffice.
-/

namespace OsTools.Heapsort

variable {α : Type}

/-- The array with two elements exchanged. -/
def swap (a : Nat → α) (i j : Nat) : Nat → α := fun k =>
  if k = i then a j else if k = j then a i else a k

section Algorithm

variable (r : α → α → Prop) [DecidableRel r]

/-- The index of the greater one of the element at `max` and the one at `c`, if that is there. -/
def greater (n : Nat) (a : Nat → α) (c max : Nat) : Nat :=
  if c ≤ n ∧ ¬ r (a c) (a max) then c else max

/-- The greatest among an element and its children. -/
def greatest (n : Nat) (a : Nat → α) (i : Nat) : Nat :=
  greater r n a (2 * i + 1) (greater r n a (2 * i) i)

/-- The element at `i` goes down the heap of `n` elements. -/
def siftDown (n : Nat) : Nat → (Nat → α) → Nat → Option (Nat → α)
  | 0, _, _ => none
  | rounds + 1, a, i =>
      if greatest r n a i = i then some a
      else siftDown n rounds (swap a i (greatest r n a i)) (greatest r n a i)

/-- The elements from `i` down to the root go down the heap. -/
def build (n : Nat) : Nat → (Nat → α) → Option (Nat → α)
  | 0, a => some a
  | i + 1, a => (siftDown r n n a (i + 1)).bind (build n i)

/-- The heap is emptied from its end. -/
def empty : Nat → (Nat → α) → Option (Nat → α)
  | 0, a => some a
  | 1, a => some a
  | i + 2, a => (siftDown r (i + 1) (i + 1) (swap a 1 (i + 2)) 1).bind (empty (i + 1))

def heapsort (n : Nat) (a : Nat → α) : Option (Nat → α) :=
  (build r n (n / 2) a).bind (empty r n)

end Algorithm

variable {r : α → α → Prop} {n n' i j k lo rounds : Nat} {a a' a'' : Nat → α}

@[simp] theorem swap_left (a : Nat → α) (i j : Nat) : swap a i j i = a j := if_pos rfl

@[simp] theorem swap_right (a : Nat → α) (i j : Nat) : swap a i j j = a i := by
  unfold swap
  by_cases h : j = i
  · rw [if_pos h, h]
  · rw [if_neg h, if_pos rfl]

theorem swap_other (hi : k ≠ i) (hj : k ≠ j) : swap a i j k = a k := by
  unfold swap
  rw [if_neg hi, if_neg hj]

/-! ### Exchanges -/

/-- Elements at the indices from 1 up to `n` have changed places. -/
def Permutes (n : Nat) (a a' : Nat → α) : Prop :=
  ∃ σ : Equiv.Perm Nat, (∀ k, k = 0 ∨ n < k → σ k = k) ∧ ∀ k, a' k = a (σ k)

namespace Permutes

theorem refl (n : Nat) (a : Nat → α) : Permutes n a a := ⟨Equiv.refl Nat, fun _ _ => rfl, fun _ => rfl⟩

theorem trans (h : Permutes n a a') (h' : Permutes n a' a'') : Permutes n a a'' := by
  obtain ⟨σ, hfix, hσ⟩ := h
  obtain ⟨τ, hfix', hτ⟩ := h'
  refine ⟨τ.trans σ, fun k hk => ?_, fun k => ?_⟩
  · rw [Equiv.trans_apply, hfix' k hk, hfix k hk]
  · rw [hτ, hσ]
    rfl

theorem mono (hn : n ≤ n') (h : Permutes n a a') : Permutes n' a a' := by
  obtain ⟨σ, hfix, hσ⟩ := h
  exact ⟨σ, fun k hk => hfix k (by omega), hσ⟩

theorem swap (hi : 0 < i ∧ i ≤ n) (hj : 0 < j ∧ j ≤ n) : Permutes n a (swap a i j) := by
  refine ⟨Equiv.swap i j, fun k hk => ?_, fun k => ?_⟩
  · exact Equiv.swap_apply_of_ne_of_ne (by omega) (by omega)
  · rw [Equiv.swap_apply_def, Heapsort.swap]
    split
    · rfl
    · split
      · rfl
      · rfl

theorem outside (h : Permutes n a a') (hk : k = 0 ∨ n < k) : a' k = a k := by
  obtain ⟨σ, hfix, hσ⟩ := h
  rw [hσ, hfix k hk]

/-- What is at an index of the heap was at one before. -/
theorem inside (h : Permutes n a a') (hk : 0 < k ∧ k ≤ n) :
    ∃ j, (0 < j ∧ j ≤ n) ∧ a' k = a j := by
  obtain ⟨σ, hfix, hσ⟩ := h
  refine ⟨σ k, ?_, hσ k⟩
  by_contra hout
  have hσk : σ k = k := σ.injective (hfix (σ k) (by omega))
  omega

/-- The elements are the same. -/
theorem perm (h : Permutes n a a') : ((List.range n).map fun k => a' (k + 1)).Perm
    ((List.range n).map fun k => a (k + 1)) := by
  obtain ⟨σ, hfix, hσ⟩ := h
  have hrange : ∀ k, k ∈ List.range' 1 n ↔ 0 < k ∧ k ≤ n := by
    intro k
    rw [List.mem_range'_1]
    omega
  have hmaps : ∀ k, σ k ∈ List.range' 1 n ↔ k ∈ List.range' 1 n := by
    intro k
    rw [hrange, hrange]
    constructor
    · intro hk
      by_contra hout
      rw [hfix k (by omega)] at hk
      exact hout hk
    · intro hk
      by_contra hout
      have hσk : σ k = k := σ.injective (hfix (σ k) (by omega))
      omega
  have hindices : ((List.range' 1 n).map σ).Perm (List.range' 1 n) := by
    rw [List.perm_ext_iff_of_nodup (List.Nodup.map σ.injective List.nodup_range')
      List.nodup_range']
    intro k
    rw [List.mem_map]
    constructor
    · rintro ⟨j, hj, rfl⟩
      exact (hmaps j).mpr hj
    · intro hk
      refine ⟨σ.symm k, (hmaps _).mp ?_, σ.apply_symm_apply k⟩
      rwa [σ.apply_symm_apply]
  have hshift : ∀ b : Nat → α, (List.range n).map (fun k => b (k + 1)) = (List.range' 1 n).map b := by
    intro b
    rw [List.range'_eq_map_range, List.map_map]
    exact List.map_congr_left fun k _ => congrArg b (Nat.add_comm k 1)
  rw [hshift, hshift]
  have h := hindices.map a
  rw [List.map_map] at h
  rwa [show a' = a ∘ σ from funext hσ]

end Permutes

/-! ### Going down -/

/-- `c` is a child of `p`. -/
def IsChild (c p : Nat) : Prop := c = 2 * p ∨ c = 2 * p + 1

/-- No child is greater than its parent, for the parents from `lo` on. -/
def OrderedFrom (r : α → α → Prop) (n : Nat) (a : Nat → α) (lo : Nat) : Prop :=
  ∀ p c, lo ≤ p → IsChild c p → c ≤ n → r (a c) (a p)

/-- The same but for the children of `i`, which are not greater than the parent of `i`. -/
structure Sifting (r : α → α → Prop) (n lo : Nat) (a : Nat → α) (i : Nat) : Prop where
  others : ∀ p c, lo ≤ p → p ≠ i → IsChild c p → c ≤ n → r (a c) (a p)
  grand : ∀ p c, lo ≤ p → IsChild i p → IsChild c i → c ≤ n → r (a c) (a p)

section Greatest

variable [DecidableRel r]

theorem greater_cases (r : α → α → Prop) [DecidableRel r] (n : Nat) (a : Nat → α) (c max : Nat) :
    greater r n a c max = max ∨ (greater r n a c max = c ∧ c ≤ n) := by
  unfold greater
  split
  · rename_i h
    exact Or.inr ⟨rfl, h.1⟩
  · exact Or.inl rfl

/-- The greatest one is the element or a child. -/
theorem greatest_cases (r : α → α → Prop) [DecidableRel r] (n : Nat) (a : Nat → α) (i : Nat) :
    greatest r n a i = i ∨ (IsChild (greatest r n a i) i ∧ greatest r n a i ≤ n) := by
  unfold greatest IsChild
  rcases greater_cases r n a (2 * i + 1) (greater r n a (2 * i) i) with h | ⟨h, hn⟩
  · rw [h]
    rcases greater_cases r n a (2 * i) i with h' | ⟨h', hn⟩
    · exact Or.inl h'
    · rw [h']
      exact Or.inr ⟨Or.inl rfl, hn⟩
  · rw [h]
    exact Or.inr ⟨Or.inr rfl, hn⟩

variable [Std.Total r]

theorem le_greater (n : Nat) (a : Nat → α) (c max : Nat) :
    r (a max) (a (greater r n a c max)) ∧ (c ≤ n → r (a c) (a (greater r n a c max))) := by
  unfold greater
  split
  · rename_i h
    exact ⟨(Std.Total.total _ _).resolve_left h.2, fun _ => Std.Refl.refl _⟩
  · rename_i h
    refine ⟨Std.Refl.refl _, fun hc => ?_⟩
    by_contra hr
    exact h ⟨hc, hr⟩

variable [IsTrans α r]

/-- It is not less than any of them. -/
theorem le_greatest (n : Nat) (a : Nat → α) (i : Nat) : r (a i) (a (greatest r n a i)) ∧
    ∀ c, IsChild c i → c ≤ n → r (a c) (a (greatest r n a i)) := by
  obtain ⟨hi, hleft⟩ := le_greater (r := r) n a (2 * i) i
  obtain ⟨hmax, hright⟩ := le_greater (r := r) n a (2 * i + 1) (greater r n a (2 * i) i)
  refine ⟨IsTrans.trans _ _ _ hi hmax, fun c hc hn => ?_⟩
  rcases hc with rfl | rfl
  · exact IsTrans.trans _ _ _ (hleft hn) hmax
  · exact hright hn

end Greatest

theorem IsChild.gt {c p : Nat} (h : IsChild c p) (hp : 0 < p) : p < c := by
  unfold IsChild at h
  omega

/-- A child has one parent. -/
theorem IsChild.parent_eq {c p q : Nat} (h : IsChild c p) (h' : IsChild c q) : p = q := by
  unfold IsChild at h h'
  omega

/-- One step down. -/
theorem Sifting.step {m : Nat} (h : Sifting r n lo a i) (hi : 0 < i) (hlo : lo ≤ i)
    (hm : IsChild m i) (hn : m ≤ n) (hself : r (a i) (a m))
    (hmax : ∀ c, IsChild c i → c ≤ n → r (a c) (a m)) : Sifting r n lo (swap a i m) m := by
  have hgt := hm.gt hi
  refine ⟨fun p c hp hpm hc hcn => ?_, fun p c hp hmp hc hcn => ?_⟩
  · by_cases hpi : p = i
    · -- the children of the place where the greatest one goes
      subst hpi
      rw [swap_left]
      by_cases hcm : c = m
      · rw [hcm, swap_right]
        exact hself
      · rw [swap_other (by have := hc.gt hi; omega) hcm]
        exact hmax c hc hcn
    · rw [swap_other hpi hpm]
      by_cases hci : c = i
      · -- its parent
        rw [hci, swap_left]
        exact h.grand p m hp (hci ▸ hc) hm hn
      · by_cases hcm : c = m
        · exact absurd ((hcm ▸ hc).parent_eq hm) hpi
        · rw [swap_other hci hcm]
          exact h.others p c hp hpi hc hcn
  · have hpi : p = i := hmp.parent_eq hm
    have hcgt := hc.gt (Nat.zero_lt_of_lt hgt)
    rw [hpi, swap_left, swap_other (by omega) (by omega)]
    exact h.others m c (by omega) (by omega) hc hcn

section Down

variable [DecidableRel r]

/-- The element goes down in at most as many rounds as there are indices behind it. -/
theorem siftDown_permutes (hi : 0 < i ∧ i ≤ n) (hrounds : n < i + rounds) :
    ∃ a', siftDown r n rounds a i = some a' ∧ Permutes n a a' := by
  induction rounds generalizing a i with
  | zero => exact absurd hrounds (by omega)
  | succ rounds ih =>
      unfold siftDown
      by_cases hstop : greatest r n a i = i
      · rw [if_pos hstop]
        exact ⟨a, rfl, .refl n a⟩
      · obtain ⟨hchild, hn⟩ := (greatest_cases r n a i).resolve_left hstop
        have hgt := hchild.gt hi.1
        rw [if_neg hstop]
        obtain ⟨a', hdown, hperm⟩ := @ih (greatest r n a i) (swap a i (greatest r n a i))
          ⟨by omega, hn⟩ (by omega)
        exact ⟨a', hdown, (Permutes.swap hi ⟨by omega, hn⟩).trans hperm⟩

variable [Std.Total r] [IsTrans α r]

/-- When the element has gone down, the heap is in order. -/
theorem siftDown_ordered (hi : 0 < i) (hlo : lo ≤ i) (h : Sifting r n lo a i)
    (hdown : siftDown r n rounds a i = some a') : OrderedFrom r n a' lo := by
  induction rounds generalizing a i with
  | zero => cases hdown
  | succ rounds ih =>
      obtain ⟨hself, hmax⟩ := le_greatest (r := r) n a i
      unfold siftDown at hdown
      by_cases hstop : greatest r n a i = i
      · rw [if_pos hstop] at hdown
        rw [hstop] at hmax
        cases hdown
        intro p c hp hc hcn
        by_cases hpi : p = i
        · rw [hpi] at hc ⊢
          exact hmax c hc hcn
        · exact h.others p c hp hpi hc hcn
      · rw [if_neg hstop] at hdown
        obtain ⟨hchild, hn⟩ := (greatest_cases r n a i).resolve_left hstop
        have hgt := hchild.gt hi
        exact ih (by omega) (by omega) (h.step hi hlo hchild hn hself hmax) hdown

end Down

/-! ### Sorting -/

section Sorting

variable [Std.Total r] [IsTrans α r]

/-- The root is a greatest element. -/
theorem le_root (h : OrderedFrom r n a 1) (hk : 0 < k ∧ k ≤ n) : r (a k) (a 1) := by
  induction k using Nat.strongRecOn with
  | ind k ih =>
      by_cases hone : k = 1
      · rw [hone]
        exact Std.Refl.refl _
      · have hparent : IsChild k (k / 2) := by
          unfold IsChild
          omega
        exact IsTrans.trans _ _ _ (h (k / 2) k (by omega) hparent hk.2)
          (ih (k / 2) (by omega) (by omega))

variable [DecidableRel r]

/-- Building: the heap is in order from `k + 1` on, and then from the root on. -/
theorem build_spec (hk : k ≤ n) (h : OrderedFrom r n a (k + 1)) :
    ∃ a', build r n k a = some a' ∧ OrderedFrom r n a' 1 ∧ Permutes n a a' := by
  induction k generalizing a with
  | zero => exact ⟨a, rfl, h, .refl n a⟩
  | succ k ih =>
      have hsift : Sifting r n (k + 1) a (k + 1) := by
        refine ⟨fun p c hp hpk hc hcn => h p c (by omega) hc hcn, fun p c hp hkp _ _ => ?_⟩
        have := hkp.gt (by omega)
        omega
      obtain ⟨a₁, hdown, hperm₁⟩ := siftDown_permutes (r := r) (a := a)
        ⟨Nat.succ_pos k, hk⟩ (by omega : n < k + 1 + n)
      obtain ⟨a₂, hbuild, hordered, hperm₂⟩ := ih (by omega)
        (siftDown_ordered (Nat.succ_pos k) (Nat.le_refl _) hsift hdown)
      refine ⟨a₂, ?_, hordered, hperm₁.trans hperm₂⟩
      rw [build, hdown, Option.bind_some, hbuild]

/-- The heap has `i` elements; those behind it are in order, and not less than the heap. -/
structure Emptying (r : α → α → Prop) (n i : Nat) (a : Nat → α) : Prop where
  heap : OrderedFrom r i a 1
  tail : ∀ j k, i < j → j ≤ k → k ≤ n → r (a j) (a k)
  below : ∀ j k, 0 < j → j ≤ i → i < k → k ≤ n → r (a j) (a k)

/-- The heap gets smaller by one. -/
theorem Emptying.step (h : Emptying r n (i + 2) a)
    (hdown : siftDown r (i + 1) (i + 1) (swap a 1 (i + 2)) 1 = some a')
    (hperm : Permutes (i + 1) (swap a 1 (i + 2)) a') : Emptying r n (i + 1) a' := by
  have hroot : a' (i + 2) = a 1 := by rw [hperm.outside (by omega), swap_right]
  have hbehind : ∀ k, i + 2 < k → a' k = a k := by
    intro k hk
    rw [hperm.outside (by omega), swap_other (by omega) (by omega)]
  have hheap : ∀ j, 0 < j → j ≤ i + 1 → ∃ j₀, (0 < j₀ ∧ j₀ ≤ i + 2) ∧ a' j = a j₀ := by
    intro j hj hji
    obtain ⟨j₁, hj₁, heq⟩ := hperm.inside ⟨hj, hji⟩
    by_cases hone : j₁ = 1
    · exact ⟨i + 2, by omega, by rw [heq, hone, swap_left]⟩
    · exact ⟨j₁, by omega, by rw [heq, swap_other hone (by omega)]⟩
  refine ⟨siftDown_ordered Nat.one_pos (Nat.le_refl 1) ⟨fun p c hp hp1 hc hcn => ?_,
    fun p c hp hone _ _ => ?_⟩ hdown, fun j k hij hjk hkn => ?_, fun j k hj hji hik hkn => ?_⟩
  · have := hc.gt (by omega)
    rw [swap_other (by omega) (by omega), swap_other hp1 (by omega)]
    exact h.heap p c hp hc (by omega)
  · have := hone.gt (by omega)
    omega
  · by_cases hj : j = i + 2
    · by_cases hk : k = i + 2
      · rw [hj, hk]
        exact Std.Refl.refl _
      · rw [hj, hroot, hbehind k (by omega)]
        exact h.below 1 k Nat.one_pos (by omega) (by omega) hkn
    · rw [hbehind j (by omega), hbehind k (by omega)]
      exact h.tail j k (by omega) hjk hkn
  · obtain ⟨j₀, hj₀, heq⟩ := hheap j hj hji
    rw [heq]
    by_cases hk : k = i + 2
    · rw [hk, hroot]
      exact le_root h.heap hj₀
    · rw [hbehind k (by omega)]
      exact h.below j₀ k hj₀.1 hj₀.2 (by omega) hkn

theorem empty_spec (hi : i ≤ n) (h : Emptying r n i a) : ∃ a', empty r i a = some a' ∧
    Permutes n a a' ∧ ∀ j k, 0 < j → j ≤ k → k ≤ n → r (a' j) (a' k) := by
  induction i using Nat.strongRecOn generalizing a with
  | ind i ih =>
      match i with
      | 0 => exact ⟨a, rfl, .refl n a, fun j k hj hjk hkn => h.tail j k hj hjk hkn⟩
      | 1 =>
          refine ⟨a, rfl, .refl n a, fun j k hj hjk hkn => ?_⟩
          by_cases hj1 : j = 1
          · by_cases hk1 : k = 1
            · rw [hj1, hk1]
              exact Std.Refl.refl _
            · exact h.below j k hj (by omega) (by omega) hkn
          · exact h.tail j k (by omega) hjk hkn
      | i + 2 =>
          obtain ⟨a₁, hdown, hperm₁⟩ := siftDown_permutes (r := r) (a := swap a 1 (i + 2))
            (⟨Nat.one_pos, by omega⟩ : 0 < 1 ∧ 1 ≤ i + 1) (by omega : i + 1 < 1 + (i + 1))
          obtain ⟨a₂, hempty, hperm₂, hsorted⟩ := ih (i + 1) (by omega) (by omega)
            (h.step hdown hperm₁)
          have hswap : Permutes n a (swap a 1 (i + 2)) := .swap (by omega) (by omega)
          refine ⟨a₂, ?_, hswap.trans ((hperm₁.mono (by omega)).trans hperm₂), hsorted⟩
          rw [empty, hdown, Option.bind_some, hempty]

/-- **Heapsort sorts.** -/
theorem heapsort_spec (r : α → α → Prop) [DecidableRel r] [Std.Total r] [IsTrans α r] (n : Nat)
    (a : Nat → α) : ∃ a', heapsort r n a = some a' ∧ Permutes n a a' ∧
      ∀ j k, 0 < j → j ≤ k → k ≤ n → r (a' j) (a' k) := by
  have hleaves : OrderedFrom r n a (n / 2 + 1) := by
    intro p c hp hc hcn
    unfold IsChild at hc
    omega
  obtain ⟨a₁, hbuild, hheap, hperm₁⟩ := build_spec (Nat.div_le_self n 2) hleaves
  have hemptying : Emptying r n n a₁ := by
    refine ⟨hheap, fun j k hj hjk hk => ?_, fun j k _ _ hk hkn => ?_⟩
    · omega
    · omega
  obtain ⟨a₂, hempty, hperm₂, hsorted⟩ := empty_spec (Nat.le_refl n) hemptying
  refine ⟨a₂, ?_, hperm₁.trans hperm₂, hsorted⟩
  rw [heapsort, hbuild, Option.bind_some, hempty]

end Sorting

end OsTools.Heapsort

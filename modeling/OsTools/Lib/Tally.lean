import Mathlib.Data.List.Dedup
/-!
# OsTools.Lib.Tally

How often each element occurs in a list, in a given order: sorting by a comparison (`sortBy`), and
the sorted table of the distinct elements with the numbers of their occurrences (`Tally`).
-/

namespace OsTools

variable {A K : Type}

/-! ### Sorting -/

/-- Sort by a comparison, keeping the order of what compares equal. -/
def sortBy (cmp : A → A → Ordering) (l : List A) : List A :=
  l.mergeSort fun a b => (cmp a b).isLE

theorem sortBy_perm (cmp : A → A → Ordering) (l : List A) : (sortBy cmp l).Perm l :=
  List.mergeSort_perm _ _

variable {cmp : A → A → Ordering} {l l' : List A}

theorem pairwise_sortBy [Std.TransCmp cmp] (l : List A) :
    (sortBy cmp l).Pairwise fun a b => (cmp a b).isLE = true := by
  refine List.pairwise_mergeSort (fun a b c => Std.TransCmp.isLE_trans) (fun a b => ?_) l
  have hswap : cmp a b = (cmp b a).swap := Std.OrientedCmp.eq_swap
  rw [hswap]
  cases cmp b a <;> rfl

/-- The order before the sort does not matter where only equal elements compare equal. -/
theorem sortBy_congr [Std.TransCmp cmp] (hp : l.Perm l')
    (heq : ∀ a ∈ l, ∀ b ∈ l, cmp a b = .eq → a = b) : sortBy cmp l = sortBy cmp l' := by
  have hperm : (sortBy cmp l).Perm (sortBy cmp l') :=
    (sortBy_perm cmp l).trans (hp.trans (sortBy_perm cmp l').symm)
  refine hperm.eq_of_pairwise (fun a b ha hb hab hba => ?_) (pairwise_sortBy l) (pairwise_sortBy l')
  refine heq a ((sortBy_perm cmp l).mem_iff.mp ha) b
    (hp.mem_iff.mpr ((sortBy_perm cmp l').mem_iff.mp hb)) ?_
  have hswap : cmp a b = (cmp b a).swap := Std.OrientedCmp.eq_swap
  rw [hswap] at hab ⊢
  cases hcmp : cmp b a with
  | lt => simp [hcmp] at hab
  | eq => rfl
  | gt => simp [hcmp] at hba

/-- Different elements are in ascending order where only equal elements compare equal. -/
theorem ascending_sortBy [Std.TransCmp cmp] (hnodup : l.Nodup)
    (heq : ∀ a ∈ l, ∀ b ∈ l, cmp a b = .eq → a = b) :
    (sortBy cmp l).Pairwise fun a b => cmp a b = .lt := by
  have hperm := sortBy_perm cmp l
  have hdistinct : (sortBy cmp l).Pairwise (· ≠ ·) := hperm.nodup_iff.mpr hnodup
  refine ((pairwise_sortBy l).and hdistinct).imp_of_mem fun {a b} ha hb hab => ?_
  obtain ⟨hle, hne⟩ := hab
  cases hcmp : cmp a b with
  | lt => rfl
  | eq => exact absurd (heq a (hperm.mem_iff.mp ha) b (hperm.mem_iff.mp hb) hcmp) hne
  | gt => simp [hcmp] at hle

/-- Sorting the images is sorting by what they compare. -/
theorem sortBy_map {B : Type} (cmp : B → B → Ordering) (f : A → B) (l : List A) :
    sortBy cmp (l.map f) = (sortBy (fun a b => cmp (f a) (f b)) l).map f := by
  have hmerge := @List.map_mergeSort A B (fun a b => (cmp (f a) (f b)).isLE)
    (fun a b => (cmp a b).isLE) f l fun _ _ _ _ => rfl
  exact hmerge.symm

/-! ### Counting -/

variable [DecidableEq K]

/-- Every distinct key, with the number of its occurrences. -/
def counts (keys : List K) : List (K × Nat) := keys.dedup.map fun k => (k, keys.count k)

/-- The lines are the distinct keys with the numbers of their occurrences, in ascending order. -/
structure Tally (cmp : K × Nat → K × Nat → Ordering) (keys : List K)
    (lines : List (K × Nat)) : Prop where
  ascending : lines.Pairwise fun a b => cmp a b = .lt
  mem_iff : ∀ k n, (k, n) ∈ lines ↔ k ∈ keys ∧ n = keys.count k

variable {cmp : K × Nat → K × Nat → Ordering} {keys : List K} {lines : List (K × Nat)}

theorem mem_counts {k : K} {n : Nat} : (k, n) ∈ counts keys ↔ k ∈ keys ∧ n = keys.count k := by
  unfold counts
  simp only [List.mem_map, List.mem_dedup, Prod.mk.injEq]
  constructor
  · rintro ⟨k', hk', rfl, rfl⟩
    exact ⟨hk', rfl⟩
  · rintro ⟨hk, rfl⟩
    exact ⟨k, hk, rfl, rfl⟩

theorem counts_nodup (keys : List K) : (counts keys).Nodup :=
  (List.nodup_dedup keys).map fun _ _ h => (Prod.mk.inj h).1

/-- Lines for the same key are the same. -/
theorem counts_unique {a b : K × Nat} (ha : a ∈ counts keys) (hb : b ∈ counts keys)
    (h : a.1 = b.1) : a = b := by
  obtain ⟨k, n⟩ := a
  obtain ⟨k', n'⟩ := b
  rw [(mem_counts.mp ha).2, (mem_counts.mp hb).2]
  obtain rfl : k = k' := h
  rfl

/-- **Sorting the counts** gives the tally, if the comparison tells the keys apart. -/
theorem tally_sortBy [Std.TransCmp cmp] (hkey : ∀ a b, cmp a b = .eq → a.1 = b.1) (keys : List K) :
    Tally cmp keys (sortBy cmp (counts keys)) := by
  constructor
  · exact ascending_sortBy (counts_nodup keys) fun a ha b hb hab =>
      counts_unique ha hb (hkey a b hab)
  · intro k n
    rw [(sortBy_perm cmp (counts keys)).mem_iff]
    exact mem_counts

/-- The counts in any order are sorted to the same lines. -/
theorem sortBy_counts [Std.TransCmp cmp] (hkey : ∀ a b, cmp a b = .eq → a.1 = b.1)
    (hp : lines.Perm (counts keys)) : sortBy cmp lines = sortBy cmp (counts keys) := by
  refine sortBy_congr hp fun a ha b hb hab => ?_
  exact counts_unique (hp.mem_iff.mp ha) (hp.mem_iff.mp hb) (hkey a b hab)

end OsTools

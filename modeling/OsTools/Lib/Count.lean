import Mathlib.Data.Fintype.Card
import Mathlib.Data.Finset.Card
import Mathlib.Algebra.BigOperators.Ring.Finset
/-!
# OsTools.Lib.Count

Counting the members of a finite index type whose value under `f` satisfies a
Boolean predicate. The invariants of the thread models tie shared counters to
such counts, and one step changes `f` at one or two indices, so the lemma that
carries them is `count_update`: an update moves the count by the difference
between the new and the old value's membership.

A step of a thread model changes the state of one thread, by `Function.update`. An invariant
of the form "the field is the number of threads in this class of states" is kept by such a
step if the field goes up and down with the class, which `count_update` makes a linear
equation between numbers; `omega` does the rest.
-/

namespace OsTools

variable {ι α : Type*} [Fintype ι] [DecidableEq ι]

/-- The number of indices whose value satisfies `p`. -/
def count (p : α → Bool) (f : ι → α) : Nat :=
  (Finset.univ.filter fun i => p (f i) = true).card

omit [DecidableEq ι] in
theorem count_eq_sum (p : α → Bool) (f : ι → α) :
    count p f = ∑ i, (p (f i)).toNat := by
  unfold count
  rw [Finset.card_filter]
  refine Finset.sum_congr rfl fun i _ => ?_
  cases p (f i) <;> rfl

/-- Updating one index moves a sum by that index's change. -/
theorem sum_update (f : ι → Nat) (i : ι) (a : Nat) :
    ∑ j, Function.update f i a j + f i = ∑ j, f j + a := by
  rw [← Finset.add_sum_erase _ _ (Finset.mem_univ i), ← Finset.add_sum_erase _ f (Finset.mem_univ i)]
  have hrest : ∑ j ∈ Finset.univ.erase i, Function.update f i a j =
      ∑ j ∈ Finset.univ.erase i, f j := by
    refine Finset.sum_congr rfl fun j hj => ?_
    rw [Function.update_of_ne (Finset.ne_of_mem_erase hj)]
  rw [hrest, Function.update_self]
  omega

/-- Updating one index moves the count by that index's change of membership. -/
theorem count_update (p : α → Bool) (f : ι → α) (i : ι) (a : α) :
    count p (Function.update f i a) + (p (f i)).toNat = count p f + (p a).toNat := by
  rw [count_eq_sum, count_eq_sum, ← sum_update (fun j => (p (f j)).toNat) i]
  congr 1
  refine Finset.sum_congr rfl fun j _ => ?_
  by_cases hj : j = i
  · subst hj
    rw [Function.update_self, Function.update_self]
  · rw [Function.update_of_ne hj, Function.update_of_ne hj]

/-- An update that keeps the index's membership keeps the count. -/
theorem count_update_of_eq {p : α → Bool} {f : ι → α} {i : ι} {a : α} (h : p a = p (f i)) :
    count p (Function.update f i a) = count p f := by
  have := count_update p f i a
  rw [h] at this
  omega

/-- An update that does not give up the index's membership keeps or raises the
count. -/
theorem count_le_update {p : α → Bool} {f : ι → α} {i : ι} {a : α}
    (h : p (f i) = true → p a = true) : count p f ≤ count p (Function.update f i a) := by
  have hcount := count_update p f i a
  have hle : (p (f i)).toNat ≤ (p a).toNat := by
    cases hf : p (f i) with
    | false => exact Nat.zero_le _
    | true => rw [h hf]
  omega

omit [DecidableEq ι] in
/-- A count is positive as soon as one index qualifies. -/
theorem count_pos {p : α → Bool} {f : ι → α} {i : ι} (h : p (f i) = true) :
    0 < count p f :=
  Finset.card_pos.mpr ⟨i, by simpa using h⟩

omit [DecidableEq ι] in
theorem exists_of_count_pos {p : α → Bool} {f : ι → α} (h : 0 < count p f) :
    ∃ i, p (f i) = true := by
  obtain ⟨i, hi⟩ := Finset.card_pos.mp h
  exact ⟨i, by simpa using hi⟩

omit [DecidableEq ι] in
theorem count_eq_zero {p : α → Bool} {f : ι → α} (h : ∀ i, p (f i) = false) :
    count p f = 0 := by
  rw [count_eq_sum]
  exact Finset.sum_eq_zero fun i _ => by rw [h i]; rfl

omit [DecidableEq ι] in
theorem count_le_card (p : α → Bool) (f : ι → α) : count p f ≤ Fintype.card ι :=
  Finset.card_filter_le _ _

omit [DecidableEq ι] in
/-- Counting fewer kinds of values counts less. -/
theorem count_mono {p q : α → Bool} {f : ι → α} (h : ∀ a, p a = true → q a = true) :
    count p f ≤ count q f := by
  refine Finset.card_le_card fun i hi => ?_
  have hp : p (f i) = true := by simpa using hi
  simpa using h _ hp

omit [DecidableEq ι] in
/-- At most one index qualifies when the count is at most one. -/
theorem eq_of_count_le_one {p : α → Bool} {f : ι → α} (h : count p f ≤ 1) {i j : ι}
    (hi : p (f i) = true) (hj : p (f j) = true) : i = j :=
  Finset.card_le_one.mp h i (by simpa using hi) j (by simpa using hj)

/-- A duplicate-free list of qualifying indices is no longer than the count. -/
theorem length_le_count {p : α → Bool} {f : ι → α} {l : List ι} (hl : l.Nodup)
    (h : ∀ i ∈ l, p (f i) = true) : l.length ≤ count p f := by
  rw [← List.toFinset_card_of_nodup hl]
  refine Finset.card_le_card fun i hi => ?_
  simpa using h i (List.mem_toFinset.mp hi)

/-- A list that contains every qualifying index is at least as long as the
count. -/
theorem count_le_length {p : α → Bool} {f : ι → α} {l : List ι}
    (h : ∀ i, p (f i) = true → i ∈ l) : count p f ≤ l.length := by
  refine le_trans (Finset.card_le_card fun i hi => ?_) (List.toFinset_card_le l)
  exact List.mem_toFinset.mpr (h i (by simpa using hi))

/-- Setting one entry of a list moves a sum over the entries by that entry's change. -/
theorem sum_map_set {α : Type*} {l : List α} {i : Nat} {a b : α} (h : l[i]? = some a)
    (f : α → Nat) : ((l.set i b).map f).sum + f a = (l.map f).sum + f b := by
  induction l generalizing i with
  | nil => cases h
  | cons c l ih =>
      cases i with
      | zero =>
          cases h
          simp only [List.set_cons_zero, List.map_cons, List.sum_cons]
          omega
      | succ i =>
          have htail := ih (i := i) h
          simp only [List.set_cons_succ, List.map_cons, List.sum_cons]
          omega

end OsTools

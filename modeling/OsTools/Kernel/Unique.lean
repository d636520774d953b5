import Mathlib.Data.List.SplitBy
import Mathlib.Data.List.TakeWhile
import OsTools.Kernel.InPlaceSort
/-!
# OsTools.Kernel.Unique

`list_unique` and `list_insert_ordered` of `lib/kernel/list.c`, as `OsTools.Kernel.ListSort` and
`OsTools.Kernel.InPlaceSort` have `list_sort`: on the list of elements first, then on the links
in memory.

`list_unique` compares each element with the last one that it has kept. As elements that `less`
does not tell apart are the same to a strict weak order, this is the first of a maximal run.

## Proof shape

On lists of elements, `uniqueLoop_spec` is by induction on what is behind the last element
that was kept, with the elements of its run that have been removed already as an
accumulator. That the runs are maximal identifies them with those of `List.splitBy`, of
which there are no two (`MaximalRuns.eq_splitBy`).

In memory, an element that is removed goes to the end of the second list or to none
(`Second`), which are the two ways to call the function.
-/

namespace OsTools.Kernel

section Elements

variable {α : Type*} (less : α → α → Bool)

/-- `!less (a, b) && !less (b, a)`. -/
def equivalent (a b : α) : Bool := !less a b && !less b a

/-- The loop of `list_unique` behind `elem`: the elements that it keeps there, and those that it
removes. -/
def uniqueLoop (elem : α) : List α → List α × List α
  | [] => ([], [])
  | next :: l =>
      if equivalent less elem next then
        let (kept, removed) := uniqueLoop elem l
        (kept, next :: removed)
      else
        let (kept, removed) := uniqueLoop next l
        (next :: kept, removed)

/-- `list_unique`. -/
def listUnique : List α → List α × List α
  | [] => ([], [])
  | elem :: l =>
      let (kept, removed) := uniqueLoop less elem l
      (elem :: kept, removed)

/-- The place of `list_insert_ordered`: what is before it and what is behind it. -/
def insertPlace (elem : α) (l : List α) : List α × List α :=
  (l.takeWhile fun e => !less elem e, l.dropWhile fun e => !less elem e)

/-- `runs` are the longest stretches of `l` of elements that are equivalent. -/
structure MaximalRuns (l : List α) (runs : List (List α)) : Prop where
  flatten : runs.flatten = l
  nonempty : [] ∉ runs
  equal : ∀ run ∈ runs, run.Pairwise fun a b => equivalent less a b = true
  maximal : runs.IsChain fun run run' => ∀ a ∈ run, ∀ b ∈ run', equivalent less a b = false

end Elements

/-! ### Equivalent elements -/

section Equivalent

variable {α : Type*} {less : α → α → Bool} {a b c elem : α} {l dups : List α}

theorem equivalent_iff : equivalent less a b = true ↔ less a b = false ∧ less b a = false := by
  simp [equivalent]

theorem equivalent_symm (h : equivalent less a b = true) : equivalent less b a = true := by
  rw [equivalent_iff] at h ⊢
  exact h.symm

/-- There is only one way to cut a list into maximal runs. -/
theorem MaximalRuns.eq_splitBy {runs : List (List α)} (h : MaximalRuns less l runs) :
    runs = l.splitBy (equivalent less) := by
  refine (List.splitBy_eq_iff.mpr ⟨h.flatten.symm, h.nonempty, ?_, ?_⟩).symm
  · intro run hrun
    exact (h.equal run hrun).isChain
  · refine h.maximal.imp_of_mem_imp ?_
    intro run run' hrun hrun' hdiffer
    have hne : run ≠ [] := fun hnil => h.nonempty (hnil ▸ hrun)
    have hne' : run' ≠ [] := fun hnil => h.nonempty (hnil ▸ hrun')
    exact ⟨hne, hne', hdiffer _ (List.getLast_mem hne) _ (List.head_mem hne')⟩

variable (hless : StrictWeakOrder less)
include hless

theorem equivalent_trans (hab : equivalent less a b = true) (hbc : equivalent less b c = true) :
    equivalent less a c = true := by
  rw [equivalent_iff] at hab hbc ⊢
  exact ⟨hless.trans a b c hab.1 hbc.1, hless.trans c b a hbc.2 hab.2⟩

theorem run_equal (hrun : l.Pairwise fun a b => equivalent less a b = true) (ha : a ∈ l)
    (hb : b ∈ l) : equivalent less a b = true := by
  have : Std.Symm fun a b => equivalent less a b = true := ⟨fun _ _ => equivalent_symm⟩
  refine hrun.forall_of_forall (fun x _ => ?_) ha hb
  have hself : less x x = false := by
    by_contra h
    rw [Bool.not_eq_false] at h
    exact absurd (hless.asymm x x h) (by simp [h])
  exact equivalent_iff.mpr ⟨hself, hself⟩

/-- The elements that have been compared with `elem` and found equivalent are one run. -/
theorem run_pairwise (hdups : ∀ d ∈ dups, equivalent less elem d = true) :
    (elem :: dups).Pairwise fun a b => equivalent less a b = true := by
  refine List.pairwise_cons.mpr ⟨hdups, ?_⟩
  refine List.Pairwise.imp_of_mem (R := fun _ _ => True) ?_ (List.pairwise_of_forall fun _ _ => trivial)
  intro a b ha hb _
  exact equivalent_trans hless (equivalent_symm (hdups a ha)) (hdups b hb)

/-- The loop keeps the first element of each run. `dups` are the elements of the run of `elem`
that have been removed already. -/
theorem uniqueLoop_spec (hdups : ∀ d ∈ dups, equivalent less elem d = true) :
    elem :: (uniqueLoop less elem l).1 =
        ((elem :: dups ++ l).splitBy (equivalent less)).filterMap List.head? ∧
      dups ++ (uniqueLoop less elem l).2 =
        ((elem :: dups ++ l).splitBy (equivalent less)).flatMap List.tail := by
  induction l generalizing elem dups with
  | nil =>
      have hone := List.splitBy_of_isChain (List.cons_ne_nil elem dups)
        (run_pairwise hless hdups).isChain
      rw [List.append_nil, hone]
      simp [uniqueLoop]
  | cons next l ih =>
      unfold uniqueLoop
      by_cases hequiv : equivalent less elem next = true
      · -- `next` belongs to the run of `elem`.
        rw [if_pos hequiv]
        have hdups' : ∀ d ∈ dups ++ [next], equivalent less elem d = true := by
          intro d hd
          rcases List.mem_append.mp hd with hd | hd
          · exact hdups d hd
          · rw [List.mem_singleton.mp hd]
            exact hequiv
        have htail := ih hdups'
        rw [← List.cons_append, List.append_assoc, List.append_assoc, List.singleton_append,
          List.singleton_append] at htail
        exact htail
      · -- `next` begins the next run; the last element of this one is equivalent to `elem`.
        rw [if_neg hequiv]
        have hlast : ∀ x ∈ (elem :: dups).getLast?, ∀ y ∈ (next :: l).head?,
            equivalent less x y = false := by
          intro x hx y hy
          obtain rfl : next = y := by simpa using hy
          rw [Bool.eq_false_iff]
          intro hnext
          rcases List.mem_cons.mp (List.mem_of_getLast? hx) with rfl | hmem
          · exact hequiv hnext
          · exact hequiv (equivalent_trans hless (hdups x hmem) hnext)
        have hone := List.splitBy_of_isChain (List.cons_ne_nil elem dups)
          (run_pairwise hless hdups).isChain
        have hnone : ∀ d ∈ ([] : List α), equivalent less next d = true := by simp
        obtain ⟨hkept, hremoved⟩ := ih hnone
        rw [List.splitBy_append hlast, hone]
        simp only [List.cons_append, List.nil_append] at hkept hremoved
        simp [hkept, hremoved]

/-- The runs that `List.splitBy` makes are the maximal ones. -/
theorem maximalRuns_splitBy (l : List α) :
    MaximalRuns less l (l.splitBy (equivalent less)) := by
  have hequal : ∀ run ∈ l.splitBy (equivalent less),
      run.Pairwise fun a b => equivalent less a b = true := by
    intro run hrun
    have : Trans (fun a b => equivalent less a b = true) (fun a b => equivalent less a b = true)
        fun a b => equivalent less a b = true := ⟨equivalent_trans hless⟩
    exact (List.isChain_of_mem_splitBy hrun).pairwise
  refine ⟨List.flatten_splitBy _ l, List.nil_notMem_splitBy _ l, hequal, ?_⟩
  refine (List.isChain_getLast_head_splitBy (equivalent less) l).imp_of_mem_imp ?_
  intro run run' hrun hrun' hseam a ha b hb
  obtain ⟨hne, hne', hdiffer⟩ := hseam
  rw [Bool.eq_false_iff] at hdiffer ⊢
  intro hab
  -- The ends of the runs are equivalent to what is in them.
  have hlast := run_equal hless (hequal run hrun) (List.getLast_mem hne) ha
  have hhead := run_equal hless (hequal run' hrun') hb (List.head_mem hne')
  exact hdiffer (equivalent_trans hless (equivalent_trans hless hlast hab) hhead)

/-- `list_unique` keeps the first element of each maximal run and removes the others. -/
theorem listUnique_spec (l : List α) :
    ∃ runs, MaximalRuns less l runs ∧
      listUnique less l = (runs.filterMap List.head?, runs.flatMap List.tail) := by
  refine ⟨_, maximalRuns_splitBy hless l, ?_⟩
  cases l with
  | nil => simp [listUnique]
  | cons elem l =>
      have hnone : ∀ d ∈ ([] : List α), equivalent less elem d = true := by simp
      obtain ⟨hkept, hremoved⟩ := uniqueLoop_spec (l := l) hless hnone
      simp only [List.cons_append, List.nil_append] at hkept hremoved
      rw [← hkept, ← hremoved]
      rfl

/-- The place of `list_insert_ordered` in a list in order. -/
theorem insertPlace_spec {before behind : List α} (hsorted : Sorted less l)
    (hplace : insertPlace less elem l = (before, behind)) :
    before ++ behind = l ∧ (∀ e ∈ before, less elem e = false) ∧
      (∀ e ∈ behind, less elem e = true) ∧ Sorted less (before ++ elem :: behind) := by
  cases hplace
  have hbefore : ∀ e ∈ l.takeWhile fun e => !less elem e, less elem e = false := by
    intro e he
    simpa using List.mem_takeWhile_imp he
  have happend := List.takeWhile_append_dropWhile (p := fun e => !less elem e) (l := l)
  have hpairs : Sorted less (l.takeWhile (fun e => !less elem e) ++
      l.dropWhile fun e => !less elem e) := by rwa [happend]
  obtain ⟨hfront, hback, hacross⟩ := List.pairwise_append.mp hpairs
  -- The first element behind the place is greater, and what follows is not less than it.
  have hbehind : ∀ e ∈ l.dropWhile fun e => !less elem e, less elem e = true := by
    intro e he
    cases hdrop : l.dropWhile fun e => !less elem e with
    | nil => simp [hdrop] at he
    | cons y rest =>
        have hy : less elem y = true := by
          have hhead := List.head?_dropWhile_not (fun e => !less elem e) l
          rw [hdrop] at hhead
          simpa using hhead
        rw [hdrop] at he hback
        rcases List.mem_cons.mp he with rfl | he
        · exact hy
        · by_contra hnot
          rw [Bool.not_eq_true] at hnot
          have := hless.trans elem e y hnot ((List.pairwise_cons.mp hback).1 e he)
          simp [hy] at this
  refine ⟨happend, hbefore, hbehind, ?_⟩
  refine List.pairwise_append.mpr ⟨hfront, List.pairwise_cons.mpr ⟨fun y hy => ?_, hback⟩, ?_⟩
  · exact hless.asymm elem y (hbehind y hy)
  · intro x hx y hy
    rcases List.mem_cons.mp hy with rfl | hy
    · exact hbefore x hx
    · exact hacross x hx y hy

end Equivalent

namespace InPlace

open Mem

section Model

variable (less : Nat → Nat → Bool)

/-- `if (duplicates != NULL) list_push_back (duplicates, next)`. -/
def addDuplicate (m : Mem) (duplicates next : Nat) : Except Stop Mem :=
  if duplicates ≠ 0 then listPushBack m duplicates next else .ok m

/-- The loop of `list_unique`. -/
def uniqueLoop (list duplicates : Nat) : Nat → Mem → Nat → Except Stop Mem
  | 0, _, _ => .error .fault
  | rounds + 1, m, elem => do
      let next ← listNext m elem
      let last ← listEnd list
      if next = last then .ok m
      else if !less elem next && !less next elem then do
        let (m, _) ← listRemove m next
        let m ← addDuplicate m duplicates next
        uniqueLoop list duplicates rounds m elem
      else uniqueLoop list duplicates rounds m next

/-- `list_unique`. -/
def listUnique (m : Mem) (list duplicates : Nat) : Except Stop Mem :=
  if list = 0 then .error .assertion
  else do
    if ← listEmpty m list then .ok m
    else
      let elem ← listBegin m list
      uniqueLoop less list duplicates maxCells m elem

/-- The loop of `list_insert_ordered`. -/
def insertOrderedLoop (m : Mem) (list elem : Nat) : Nat → Nat → Except Stop Nat
  | 0, _ => .error .fault
  | rounds + 1, e => do
      let last ← listEnd list
      if e = last then .ok e
      else if less elem e then .ok e
      else
        let e ← listNext m e
        insertOrderedLoop m list elem rounds e

/-- `list_insert_ordered`. -/
def listInsertOrdered (m : Mem) (list elem : Nat) : Except Stop Mem :=
  if list = 0 ∨ elem = 0 then .error .assertion
  else do
    let e ← listBegin m list
    let e ← insertOrderedLoop less m list elem maxCells e
    listInsert m e elem

end Model

/-! ### Removing duplicates -/

section Unique

variable {less : Nat → Nat → Bool} {m m' : Mem} {w w' : Lists} {list duplicates e elem rounds : Nat}
variable {l l₁ l₂ before behind d d' kept removed : List Nat}

/-- The lists `list` and `duplicates`, if there is one, have got new elements. -/
def putBoth (w : Lists) (list duplicates : Nat) (l d : List Nat) : Lists :=
  if duplicates = 0 then w.put list l else (w.put list l).put duplicates d

/-- The list for the duplicates is null, or another one with the elements `d`. -/
def Second (w : Lists) (list duplicates : Nat) (d : List Nat) : Prop :=
  duplicates ≠ 0 → duplicates ≠ list ∧ w duplicates = some d

theorem putBoth_list (hsecond : Second w list duplicates d) (l : List Nat) :
    putBoth w list duplicates l d' list = some l := by
  unfold putBoth
  by_cases hnull : duplicates = 0
  · rw [if_pos hnull, Lists.put_self]
  · rw [if_neg hnull, Lists.put_of_ne _ _ (hsecond hnull).1.symm, Lists.put_self]

theorem Second.putBoth (hsecond : Second w list duplicates d) (l : List Nat) :
    Second (putBoth w list duplicates l d') list duplicates d' := by
  intro hnull
  unfold InPlace.putBoth
  rw [if_neg hnull, Lists.put_self]
  exact ⟨(hsecond hnull).1, rfl⟩

theorem putBoth_same (hlist : w list = some l) (hsecond : Second w list duplicates d) :
    putBoth w list duplicates l d = w := by
  unfold putBoth
  rw [Lists.put_same hlist]
  by_cases hnull : duplicates = 0
  · rw [if_pos hnull]
  · rw [if_neg hnull, Lists.put_same (hsecond hnull).2]

theorem putBoth_putBoth (hsecond : Second w list duplicates d) (l l' : List Nat)
    {d₁ d₂ : List Nat} :
    putBoth (putBoth w list duplicates l d₁) list duplicates l' d₂ =
      putBoth w list duplicates l' d₂ := by
  unfold putBoth
  by_cases hnull : duplicates = 0
  · simp only [if_pos hnull, Lists.put, Function.update_idem]
  · simp only [if_neg hnull, Lists.put]
    rw [Function.update_comm (hsecond hnull).1, Function.update_idem, Function.update_idem]

/-- An element is taken out of the list and appended to the second one. -/
theorem takeOut_spec (h : Represents m w) (hlist : w list = some (l₁ ++ ([e] ++ l₂)))
    (hsecond : Second w list duplicates d) :
    ∃ m₁ m₂ q, listRemove m e = .ok (m₁, q) ∧ addDuplicate m₁ duplicates e = .ok m₂ ∧
      Represents m₂ (putBoth w list duplicates (l₁ ++ l₂) (d ++ [e])) ∧
      Untouched m m₂ w (putBoth w list duplicates (l₁ ++ l₂) (d ++ [e])) [list, duplicates] := by
  obtain ⟨q, hq⟩ := exists_behind l₂ (listTail list)
  obtain ⟨m₁, hexec, hrep₁, hun₁⟩ := effect_refines h (.remove hlist hq)
  obtain ⟨⟨m₁', q'⟩, hremove, hret⟩ := bind_eq_ok hexec
  cases hret
  unfold addDuplicate putBoth
  by_cases hnull : duplicates = 0
  · simp only [hnull, ne_eq, not_true_eq_false, if_false, if_true]
    exact ⟨m₁, m₁, q, hremove, rfl, hrep₁, hun₁.mono (by simp)⟩
  · simp only [hnull, ne_eq, not_false_eq_true, if_true, if_false]
    obtain ⟨hne, hdup⟩ := hsecond hnull
    have hdup₁ : (w.put list (l₁ ++ l₂)) duplicates = some d := by
      rw [Lists.put_of_ne _ _ hne, hdup]
    obtain ⟨m₂, hexec₂, hrep₂, hun₂⟩ :=
      effect_refines hrep₁ (.pushBack hdup₁ (h.fresh_removed hlist))
    obtain ⟨m₂', hpush, hret⟩ := bind_eq_ok hexec₂
    cases hret
    exact ⟨m₁, m₂, q, hremove, hpush, hrep₂, (hun₁.trans hun₂).mono (by simp)⟩

/-- The loop does to the links what it does to the elements. The induction is on what is behind
`elem`, the last element that has been kept. -/
theorem uniqueLoop_spec (h : Represents m w) (hlist : w list = some (before ++ elem :: l))
    (hsecond : Second w list duplicates d)
    (hloop : Kernel.uniqueLoop less elem l = (kept, removed)) (hrounds : l.length < rounds) :
    ∃ m', uniqueLoop less list duplicates rounds m elem = .ok m' ∧
      Represents m' (putBoth w list duplicates (before ++ elem :: kept) (d ++ removed)) ∧
      Untouched m m' w (putBoth w list duplicates (before ++ elem :: kept) (d ++ removed))
        [list, duplicates] := by
  induction l generalizing m w before elem d kept removed rounds with
  | nil =>
      obtain ⟨rounds, rfl⟩ : ∃ k, rounds = k + 1 := ⟨rounds - 1, by simp at hrounds; omega⟩
      have hl := h.linked _ _ hlist
      have hnext : listNext m elem = .ok (listTail list) := listNext_cons hl rfl
      cases hloop
      rw [List.append_nil, putBoth_same hlist hsecond]
      refine ⟨m, ?_, h, Untouched.refl m w _⟩
      unfold uniqueLoop listEnd
      rw [hnext, ok_bind, if_neg (list_ne_zero hl), ok_bind, if_pos rfl]
  | cons next l ih =>
      obtain ⟨rounds, rfl⟩ : ∃ k, rounds = k + 1 := ⟨rounds - 1, by simp at hrounds; omega⟩
      have hl := h.linked _ _ hlist
      have hlist' : w list = some ((before ++ [elem]) ++ ([next] ++ l)) := by simpa using hlist
      have hnext : listNext m elem = .ok next := listNext_cons hl rfl
      have hne : next ≠ listTail list := (listNext_elem (h.linked _ _ hlist')).1
      unfold uniqueLoop listEnd
      have hcond : (!less elem next && !less next elem) = equivalent less elem next := rfl
      rw [hnext, ok_bind, if_neg (list_ne_zero hl), ok_bind, if_neg hne, hcond]
      unfold Kernel.uniqueLoop at hloop
      by_cases hequiv : equivalent less elem next = true
      · rw [if_pos hequiv] at hloop
        rw [if_pos hequiv]
        generalize htail : Kernel.uniqueLoop less elem l = r at hloop
        obtain ⟨kept₀, removed₀⟩ := r
        cases hloop
        obtain ⟨m₁, m₂, q, hremove, hadd, hrep, huntouched⟩ := takeOut_spec h hlist' hsecond
        have hshape : (before ++ [elem]) ++ l = before ++ elem :: l := by simp
        rw [hshape] at hrep huntouched
        -- `elem` stays the last one that is kept.
        obtain ⟨m', hrest, hrep', huntouched'⟩ := ih hrep (putBoth_list hsecond _)
          (hsecond.putBoth _) htail (by simpa using hrounds)
        rw [putBoth_putBoth hsecond, List.append_assoc] at hrep' huntouched'
        refine ⟨m', ?_, hrep', (huntouched.trans huntouched').mono (by simp)⟩
        rw [hremove, ok_bind]
        dsimp only
        rw [hadd, ok_bind]
        exact hrest
      · rw [if_neg hequiv] at hloop
        rw [if_neg hequiv]
        generalize htail : Kernel.uniqueLoop less next l = r at hloop
        obtain ⟨kept₀, removed₀⟩ := r
        cases hloop
        obtain ⟨m', hrest, hrep, huntouched⟩ := ih h hlist' hsecond htail (by simpa using hrounds)
        rw [List.append_assoc, List.singleton_append] at hrep huntouched
        exact ⟨m', hrest, hrep, huntouched⟩

/-- `list_unique` does to the lists what it does to the elements. -/
theorem listUnique_represents (h : Represents m w) (hlist : w list = some l)
    (hsecond : Second w list duplicates d) (hunique : Kernel.listUnique less l = (kept, removed)) :
    ∃ m', listUnique less m list duplicates = .ok m' ∧
      Represents m' (putBoth w list duplicates kept (d ++ removed)) ∧
      Untouched m m' w (putBoth w list duplicates kept (d ++ removed)) [list, duplicates] := by
  have hl := h.linked _ _ hlist
  unfold listUnique
  rw [if_neg (list_ne_zero hl)]
  cases l with
  | nil =>
      cases hunique
      rw [listEmpty_nil hl, ok_bind, List.append_nil, putBoth_same hlist hsecond]
      exact ⟨m, rfl, h, Untouched.refl m w _⟩
  | cons elem l =>
      have hlength := length_lt_maxCells hl
      have hfirst : m.next list = elem := hl.links.1
      have hrounds : l.length < maxCells := by
        rw [List.length_cons] at hlength
        omega
      cases hunique
      have hlist' : w list = some ([] ++ elem :: l) := hlist
      have hloop : Kernel.uniqueLoop less elem l = ((Kernel.uniqueLoop less elem l).1,
        (Kernel.uniqueLoop less elem l).2) := rfl
      obtain ⟨m', hexec, hrep, huntouched⟩ := uniqueLoop_spec h hlist' hsecond hloop hrounds
      refine ⟨m', ?_, hrep, huntouched⟩
      unfold listBegin
      rw [listEmpty_ne_nil hl (List.cons_ne_nil elem l), ok_bind]
      rw [if_neg (by simp), if_neg (list_ne_zero hl), ok_bind, hfirst]
      exact hexec

end Unique

/-! ### Inserting in order -/

section Insert

variable {less : Nat → Nat → Bool} {m : Mem} {w : Lists} {list e elem rounds : Nat}
variable {l before behind : List Nat}

/-- The loop stops at the first element that is greater, or at the tail. -/
theorem insertOrderedLoop_spec (hl : Linked m list (listTail list) (before ++ l))
    (he : e ∈ (l ++ [listTail list]).head?) (hrounds : l.length < rounds) :
    ∃ q, insertOrderedLoop less m list elem rounds e = .ok q ∧
      q ∈ ((insertPlace less elem l).2 ++ [listTail list]).head? := by
  induction l generalizing before e rounds with
  | nil =>
      obtain ⟨rounds, rfl⟩ : ∃ k, rounds = k + 1 := ⟨rounds - 1, by simp at hrounds; omega⟩
      obtain rfl : listTail list = e := by simpa using he
      refine ⟨listTail list, ?_, rfl⟩
      unfold insertOrderedLoop listEnd
      rw [if_neg (list_ne_zero hl), ok_bind, if_pos rfl]
  | cons x l ih =>
      obtain ⟨rounds, rfl⟩ : ∃ k, rounds = k + 1 := ⟨rounds - 1, by simp at hrounds; omega⟩
      obtain rfl : x = e := by simpa using he
      have hl' : Linked m list (listTail list) ((before ++ [x]) ++ l) := by rwa [List.append_assoc]
      unfold insertOrderedLoop listEnd
      rw [if_neg (list_ne_zero hl), ok_bind, if_neg (listNext_elem hl).1]
      by_cases hless : less elem x = true
      · rw [if_pos hless]
        exact ⟨x, rfl, by simp [insertPlace, hless]⟩
      · obtain ⟨q, hq⟩ := exists_behind l (listTail list)
        have hnext : listNext m x = .ok q := listNext_cons hl hq
        obtain ⟨p, hloop, hp⟩ := ih hl' hq (by simpa using hrounds)
        rw [if_neg hless, hnext, ok_bind]
        refine ⟨p, hloop, ?_⟩
        simpa [insertPlace, List.dropWhile_cons, hless] using hp

/-- `list_insert_ordered` puts the element at its place. -/
theorem listInsertOrdered_represents (h : Represents m w) (hlist : w list = some l)
    (helem : w.Fresh elem) (hplace : insertPlace less elem l = (before, behind)) :
    ∃ m', listInsertOrdered less m list elem = .ok m' ∧
      Represents m' (w.put list (before ++ elem :: behind)) ∧
      Untouched m m' w (w.put list (before ++ elem :: behind)) [list] := by
  have hl := h.linked _ _ hlist
  have happend : before ++ behind = l := by
    cases hplace
    exact List.takeWhile_append_dropWhile
  have hl₀ : Linked m list (listTail list) ([] ++ l) := hl
  obtain ⟨q, hq⟩ := exists_behind l (listTail list)
  have hfirst : m.next list = q := (hl₀.joined rfl hq).1
  obtain ⟨p, hloop, hp⟩ : ∃ p, insertOrderedLoop less m list elem maxCells q = .ok p ∧
      ((insertPlace less elem l).2 ++ [listTail list]).head? = some p :=
    insertOrderedLoop_spec hl₀ hq (length_lt_maxCells hl)
  rw [hplace] at hp
  have hsplit : w list = some (before ++ behind) := by rw [happend, hlist]
  obtain ⟨m', hexec, hrep, huntouched⟩ := effect_refines h (.insert hsplit hp helem)
  obtain ⟨m₁, hinsert, hret⟩ := bind_eq_ok hexec
  cases hret
  refine ⟨m', ?_, hrep, huntouched⟩
  have helem₀ : elem ≠ 0 := by
    have := helem.1.1
    omega
  unfold listInsertOrdered listBegin
  rw [if_neg (by simp [list_ne_zero hl, helem₀]), if_neg (list_ne_zero hl), ok_bind, hfirst, hloop,
    ok_bind]
  exact hinsert

end Insert

/-! ### Both functions, on lists in memory -/

section InMemory

variable {less : Nat → Nat → Bool} {m : Mem} {w : Lists} {list : Nat} {l : List Nat}

/-- `list_unique` ends, keeps the first element of each maximal run of equivalent elements, and
appends the others to the second list, if there is one, in the order they were in.
`list_insert_ordered` puts an element into a list in order behind all that are not greater, and
the list is in order then. Both leave all lists in order, and those that they are not given as
they were. -/
theorem list_unique_insert_ordered_correct (hless : StrictWeakOrder less) (h : Represents m w)
    (hlist : w list = some l) :
    (∀ duplicates d, Second w list duplicates d →
      ∃ m' runs, MaximalRuns less l runs ∧
        listUnique less m list duplicates = .ok m' ∧
        forward m' list = .ok (runs.filterMap List.head?) ∧
        backward m' list = .ok (runs.filterMap List.head?).reverse ∧
        (duplicates ≠ 0 → forward m' duplicates = .ok (d ++ runs.flatMap List.tail) ∧
          backward m' duplicates = .ok (d ++ runs.flatMap List.tail).reverse) ∧
        Represents m' (putBoth w list duplicates (runs.filterMap List.head?)
          (d ++ runs.flatMap List.tail)) ∧
        Untouched m m' w (putBoth w list duplicates (runs.filterMap List.head?)
          (d ++ runs.flatMap List.tail)) [list, duplicates]) ∧
    (∀ elem, w.Fresh elem → Sorted less l →
      ∃ m' before behind, before ++ behind = l ∧ (∀ e ∈ before, less elem e = false) ∧
        (∀ e ∈ behind, less elem e = true) ∧ Sorted less (before ++ elem :: behind) ∧
        listInsertOrdered less m list elem = .ok m' ∧
        forward m' list = .ok (before ++ elem :: behind) ∧
        backward m' list = .ok (before ++ elem :: behind).reverse ∧
        Represents m' (w.put list (before ++ elem :: behind)) ∧
        Untouched m m' w (w.put list (before ++ elem :: behind)) [list]) := by
  constructor
  · intro duplicates d hsecond
    obtain ⟨runs, hruns, hunique⟩ := Kernel.listUnique_spec hless l
    obtain ⟨m', hexec, hrep, huntouched⟩ := listUnique_represents h hlist hsecond hunique
    have hkept := hrep.linked _ _ (putBoth_list hsecond _)
    refine ⟨m', runs, hruns, hexec, forward_linked hkept, backward_linked hkept, ?_, hrep,
      huntouched⟩
    intro hnull
    have hremoved := hrep.linked _ _ (hsecond.putBoth (w := w) _ hnull).2
    exact ⟨forward_linked hremoved, backward_linked hremoved⟩
  · intro elem helem hsorted
    have hplace : insertPlace less elem l =
        ((insertPlace less elem l).1, (insertPlace less elem l).2) := rfl
    obtain ⟨happend, hbefore, hbehind, hsorted'⟩ := insertPlace_spec hless hsorted hplace
    obtain ⟨m', hexec, hrep, huntouched⟩ := listInsertOrdered_represents h hlist helem hplace
    have hlinked := hrep.linked _ _ (Lists.put_self w list _)
    exact ⟨m', _, _, happend, hbefore, hbehind, hsorted', hexec, forward_linked hlinked,
      backward_linked hlinked, hrep, huntouched⟩

/-- The first two of three elements are equivalent, and so are the last and a new one. -/
theorem list_unique_insert_ordered_correct_three :
    let less : Nat → Nat → Bool := fun a b => a < 130 && 130 ≤ b
    ∃ m m₁ m₂, forward m 16 = .ok [100, 120, 140] ∧
      listUnique less m 16 64 = .ok m₁ ∧ forward m₁ 16 = .ok [100, 140] ∧
      forward m₁ 64 = .ok [120] ∧
      listInsertOrdered less m 16 160 = .ok m₂ ∧ ∃ before behind, before ++ behind = [100, 120, 140] ∧
        forward m₂ 16 = .ok (before ++ 160 :: behind) ∧ Sorted less (before ++ 160 :: behind) := by
  intro less
  have hless : StrictWeakOrder less := by
    constructor
    · intro a b h
      simp only [less, Bool.and_eq_true, Bool.and_eq_false_iff, decide_eq_true_eq,
        decide_eq_false_iff_not] at h ⊢
      omega
    · intro a b c hab hbc
      simp only [less, Bool.and_eq_false_iff, decide_eq_false_iff_not] at hab hbc ⊢
      omega
  have hapart : ∀ e, e = 64 ∨ e = 72 ∨ e = 160 →
      Lists.Fresh (Lists.put (fun _ => none) 16 [100, 120, 140]) e := by
    intro e he
    refine (Lists.fresh_none (by omega)).put fun x hx => ?_
    simp only [cellsOf, listTail, List.cons_append, List.nil_append, List.mem_cons,
      List.not_mem_nil, or_false] at hx
    unfold CellsApart
    omega
  obtain ⟨m₀, hrep₀⟩ := @exists_represents 16 [100, 120, 140] (by decide)
    (by simp [cellsOf, listTail, CellsApart])
  obtain ⟨m, -, hrep⟩ := hrep₀.init (hapart 64 (by decide)) (hapart 72 (by decide))
  obtain ⟨hunique, hinsert⟩ := @list_unique_insert_ordered_correct less m _ 16 [100, 120, 140] hless
    hrep rfl
  obtain ⟨m₁, runs, hruns, hexec, hkept, -, hremoved, -⟩ := hunique 64 [] fun _ => ⟨by decide, rfl⟩
  have hfresh : Lists.Fresh (Lists.put (Lists.put (fun _ => none) 16 [100, 120, 140]) 64 []) 160 :=
    (hapart 160 (by decide)).put (by simp [cellsOf, listTail, CellsApart])
  obtain ⟨m₂, before, behind, happend, -, -, hsorted, hexec', hforward, -⟩ := hinsert 160 hfresh
    ((descents_eq_zero hless).mp rfl)
  have hsplit : runs = [[100, 120], [140]] := hruns.eq_splitBy.trans rfl
  subst hsplit
  exact ⟨m, m₁, m₂, forward_linked (hrep.linked 16 _ rfl), hexec, hkept, (hremoved (by decide)).1,
    hexec', before, behind, happend, hforward, hsorted⟩

end InMemory

end InPlace

end OsTools.Kernel

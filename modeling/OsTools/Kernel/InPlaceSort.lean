import OsTools.Kernel.ListSort
import OsTools.Kernel.Lists
/-!
# OsTools.Kernel.InPlaceSort

`list_sort` of `lib/kernel/list.c` on the links in memory. A run ends at the address of the
cell behind it; a merge moves the cells of the second run over the end of the first one.

Each function does to the links what the function of the same name in `OsTools.Kernel.ListSort`
does to the list of elements, so that the order of the result is proved there. `less` looks at
what the elements contain, which the sort does not change.

## Proof shape

The functions on links and the functions on lists have the same names, and each lemma says
that the one does what the other does: a run is given by the cell behind its last element,
and a list of elements by where it begins and ends. The loop of `inplace_merge` is the only
one that changes links, by splices of one element (`splice_before`); its invariant names the
elements in place and those left of the two runs.
-/

namespace OsTools.Kernel.InPlace

open Mem

section Model

variable (less : Nat → Nat → Bool)

/-- The loop of `is_sorted`. -/
def isSortedLoop (m : Mem) (b : Nat) : Nat → Nat → Except Stop Bool
  | 0, _ => .error .fault
  | rounds + 1, a => do
      let a ← listNext m a
      if a = b then .ok true
      else
        let prev ← listPrev m a
        if less a prev then .ok false else isSortedLoop m b rounds a

/-- `is_sorted`. -/
def isSorted (m : Mem) (a b : Nat) : Except Stop Bool :=
  if a ≠ b then isSortedLoop less m b maxCells a else .ok true

/-- The loop of `find_end_of_run`. -/
def findEndOfRunLoop (m : Mem) (b : Nat) : Nat → Nat → Except Stop Nat
  | 0, _ => .error .fault
  | rounds + 1, a => do
      let a ← listNext m a
      if a ≠ b then
        let prev ← listPrev m a
        if !less a prev then findEndOfRunLoop m b rounds a else .ok a
      else .ok a

/-- `find_end_of_run`. -/
def findEndOfRun (m : Mem) (a b : Nat) : Except Stop Nat :=
  if a ≠ 0 ∧ b ≠ 0 ∧ a ≠ b then findEndOfRunLoop less m b maxCells a else .error .assertion

/-- The loop of `inplace_merge`. -/
def inplaceMergeLoop (b1 : Nat) : Nat → Mem → Nat → Nat → Except Stop Mem
  | 0, _, _, _ => .error .fault
  | rounds + 1, m, a0, a1b0 =>
      if a0 ≠ a1b0 ∧ a1b0 ≠ b1 then
        if !less a1b0 a0 then do
          let a0 ← listNext m a0
          inplaceMergeLoop b1 rounds m a0 a1b0
        else do
          let a1b0 ← listNext m a1b0
          let prev ← listPrev m a1b0
          let m ← listSplice m a0 prev a1b0
          inplaceMergeLoop b1 rounds m a0 a1b0
      else .ok m

/-- `inplace_merge`. -/
def inplaceMerge (m : Mem) (a0 a1b0 b1 : Nat) : Except Stop Mem := do
  if a0 = 0 ∨ a1b0 = 0 ∨ b1 = 0 then .error .assertion
  else
    let sorted ← isSorted less m a0 a1b0
    let sorted' ← isSorted less m a1b0 b1
    if sorted && sorted' then inplaceMergeLoop less b1 maxCells m a0 a1b0
    else .error .assertion

/-- A round of the outer loop of `list_sort`, from `a0` on: memory and `output_run_cnt`. -/
def sortRound (last : Nat) : Nat → Mem → Nat → Nat → Except Stop (Mem × Nat)
  | 0, _, _, _ => .error .fault
  | rounds + 1, m, a0, outputRunCnt =>
      if a0 ≠ last then do
        let outputRunCnt := outputRunCnt + 1
        let a1b0 ← findEndOfRun less m a0 last
        if a1b0 = last then .ok (m, outputRunCnt)
        else
          let b1 ← findEndOfRun less m a1b0 last
          let m ← inplaceMerge less m a0 a1b0 b1
          sortRound last rounds m b1 outputRunCnt
      else .ok (m, outputRunCnt)

/-- The outer loop of `list_sort`. -/
def sortLoop (list : Nat) : Nat → Mem → Except Stop Mem
  | 0, _ => .error .fault
  | rounds + 1, m => do
      let first ← listBegin m list
      let last ← listEnd list
      let (m, outputRunCnt) ← sortRound less last maxCells m first 0
      if outputRunCnt > 1 then sortLoop list rounds m else .ok m

/-- `list_sort`. -/
def listSort (m : Mem) (list : Nat) : Except Stop Mem :=
  if list = 0 then .error .assertion
  else do
    let m ← sortLoop less list maxCells m
    let first ← listBegin m list
    let last ← listEnd list
    let sorted ← isSorted less m first last
    if sorted then .ok m else .error .assertion

end Model

/-! ### Places in a list -/

section Places

variable {m : Mem} {list t a b e q : Nat} {l l₁ l₂ s : List Nat}

/-- The cell before a place behind the element `e`. -/
theorem listPrev_place (hl : Linked m list t (l₁ ++ e :: l₂)) (hq : q ∈ (l₂ ++ [t]).head?) :
    listPrev m q = .ok e := by
  have hl' : Linked m list t ((l₁ ++ [e]) ++ l₂) := by rwa [List.append_assoc]
  have he : e ∈ (list :: (l₁ ++ [e])).getLast? := by
    rw [← List.cons_append, List.getLast?_concat]
    rfl
  unfold listPrev
  rw [if_pos (place_ok hl' hq), (hl'.joined he hq).2]

/-- Two places are the same only if nothing lies between them. -/
theorem place_eq_iff (hl : Linked m list t (l₁ ++ (s ++ l₂)))
    (ha : a ∈ (s ++ l₂ ++ [t]).head?) (hb : b ∈ (l₂ ++ [t]).head?) : a = b ↔ s = [] := by
  cases s with
  | nil =>
      have hab : some a = some b := ha.symm.trans hb
      exact ⟨fun _ => rfl, fun _ => Option.some.inj hab⟩
  | cons x s =>
      obtain rfl : x = a := by simpa using ha
      refine ⟨fun hxb => ?_, fun h => by cases h⟩
      have hnodup := hl.nodup
      have hshape : list :: (l₁ ++ (x :: s ++ l₂)) ++ [t] =
          (list :: l₁) ++ ((x :: s) ++ (l₂ ++ [t])) := by simp
      rw [hshape] at hnodup
      have hdis := (List.nodup_append.mp (List.nodup_append.mp hnodup).2.1).2.2
      exact absurd hxb (hdis x List.mem_cons_self b (List.mem_of_head? hb))

/-- No place is null. -/
theorem place_ne_zero (hl : Linked m list t (l₁ ++ l₂)) (hq : q ∈ (l₂ ++ [t]).head?) : q ≠ 0 := by
  have := (hl.bound q (Linked.mem_behind _ _ hq)).1
  omega

/-- `list_next` goes on to the next place. -/
theorem listNext_cons (hl : Linked m list t (l₁ ++ e :: l₂)) (hq : q ∈ (l₂ ++ [t]).head?) :
    listNext m e = .ok q := by
  obtain ⟨-, q', hq', hnext⟩ := listNext_elem hl
  rwa [Option.some.inj (hq.symm.trans hq')]

end Places

/-! ### Runs -/

section Runs

variable {less : Nat → Nat → Bool} {m : Mem} {list t a b rounds : Nat}
variable {l l₁ l₂ s run rest : List Nat}

/-- The run ends at the place behind its last element. The induction is on what is behind `a`,
and `a` is the last element that has been taken into the run. -/
theorem findEndOfRunLoop_spec (hl : Linked m list t (l₁ ++ a :: l))
    (hrun : Kernel.findEndOfRun less a l = (run, rest)) (hrounds : l.length < rounds) :
    ∃ e, findEndOfRunLoop less m t rounds a = .ok e ∧ e ∈ (rest ++ [t]).head? := by
  induction l generalizing l₁ a run rounds with
  | nil =>
      obtain ⟨rounds, rfl⟩ : ∃ k, rounds = k + 1 := ⟨rounds - 1, by simp at hrounds; omega⟩
      cases hrun
      refine ⟨t, ?_, rfl⟩
      unfold findEndOfRunLoop
      rw [listNext_cons hl rfl, ok_bind]
      simp
  | cons b l ih =>
      obtain ⟨rounds, rfl⟩ : ∃ k, rounds = k + 1 := ⟨rounds - 1, by simp at hrounds; omega⟩
      have hl' : Linked m list t ((l₁ ++ [a]) ++ b :: l) := by rwa [List.append_assoc]
      have hne : b ≠ t := (listNext_elem hl').1
      have hnext : listNext m a = .ok b := listNext_cons hl rfl
      have hprev : listPrev m b = .ok a := listPrev_place hl rfl
      unfold Kernel.findEndOfRun at hrun
      unfold findEndOfRunLoop
      rw [hnext, ok_bind, if_pos hne, hprev, ok_bind]
      by_cases hless : less b a = true
      · rw [if_pos hless] at hrun
        cases hrun
        exact ⟨b, by simp [hless], rfl⟩
      · rw [if_neg hless] at hrun
        generalize htail : Kernel.findEndOfRun less b l = r at hrun
        obtain ⟨run₀, rest₀⟩ := r
        cases hrun
        obtain ⟨e, hloop, he⟩ := ih hl' htail (by simpa using hrounds)
        refine ⟨e, ?_, he⟩
        simpa [hless] using hloop

/-- `find_end_of_run`. -/
theorem findEndOfRun_spec (hl : Linked m list t (l₁ ++ a :: l))
    (hrun : Kernel.findEndOfRun less a l = (run, rest)) :
    ∃ e, findEndOfRun less m a t = .ok e ∧ e ∈ (rest ++ [t]).head? := by
  have hlength := length_lt_maxCells hl
  rw [List.length_append, List.length_cons] at hlength
  have ha : a ≠ 0 := place_ne_zero hl rfl
  have ht : t ≠ 0 := by
    have := (hl.bound t (List.mem_append_right _ (List.mem_singleton_self t))).1
    omega
  unfold findEndOfRun
  rw [if_pos ⟨ha, ht, (listNext_elem hl).1⟩]
  exact findEndOfRunLoop_spec hl hrun (by omega)

/-- The loop of `is_sorted` on the elements behind `a`. -/
theorem isSortedLoop_spec (hl : Linked m list t (l₁ ++ a :: (s ++ l₂)))
    (hsorted : Sorted less (a :: s)) (hb : b ∈ (l₂ ++ [t]).head?) (hrounds : s.length < rounds) :
    isSortedLoop less m b rounds a = .ok true := by
  induction s generalizing l₁ a rounds with
  | nil =>
      obtain ⟨rounds, rfl⟩ : ∃ k, rounds = k + 1 := ⟨rounds - 1, by simp at hrounds; omega⟩
      unfold isSortedLoop
      rw [listNext_cons hl hb, ok_bind, if_pos rfl]
  | cons x s ih =>
      obtain ⟨rounds, rfl⟩ : ∃ k, rounds = k + 1 := ⟨rounds - 1, by simp at hrounds; omega⟩
      have hl' : Linked m list t ((l₁ ++ [a]) ++ ((x :: s) ++ l₂)) := by rwa [List.append_assoc]
      have hne : x ≠ b := fun heq => List.cons_ne_nil x s ((place_eq_iff hl' rfl hb).mp heq)
      have hnext : listNext m a = .ok x := listNext_cons hl rfl
      have hprev : listPrev m x = .ok a := listPrev_place hl rfl
      obtain ⟨hle, htail⟩ := List.pairwise_cons.mp hsorted
      unfold isSortedLoop
      rw [hnext, ok_bind, if_neg hne, hprev, ok_bind, hle x List.mem_cons_self]
      exact ih hl' htail (by simpa using hrounds)

/-- `is_sorted` on a segment in order. -/
theorem isSorted_spec (hl : Linked m list t (l₁ ++ (s ++ l₂))) (hsorted : Sorted less s)
    (ha : a ∈ (s ++ l₂ ++ [t]).head?) (hb : b ∈ (l₂ ++ [t]).head?) :
    isSorted less m a b = .ok true := by
  have hlength := length_lt_maxCells hl
  rw [List.length_append, List.length_append] at hlength
  unfold isSorted
  cases s with
  | nil => rw [if_neg (not_not_intro ((place_eq_iff hl ha hb).mpr rfl))]
  | cons x s =>
      obtain rfl : x = a := by simpa using ha
      have hne : x ≠ b := fun heq => List.cons_ne_nil x s ((place_eq_iff hl ha hb).mp heq)
      rw [if_pos hne]
      exact isSortedLoop_spec hl hsorted hb (by simp at hlength; omega)

end Runs

/-! ### Merging -/

section Merging

variable {less : Nat → Nat → Bool} {m : Mem} {list t a0 a1b0 b1 q y rounds : Nat}
variable {before xs ys behind rest C : List Nat}

/-- `list_splice` moves the first cell of the second run before the first run. -/
theorem splice_before (hl : Linked m list t (before ++ (xs ++ ([y] ++ rest))))
    (ha : a0 ∈ xs.head?) (hq : q ∈ (rest ++ [t]).head?) :
    ∃ m', listSplice m a0 y q = .ok m' ∧ Linked m' list t (before ++ ([y] ++ (xs ++ rest))) ∧
      m.SameBut m' (InCells (list :: (before ++ (xs ++ ([y] ++ rest))) ++ [t])) := by
  have hperm : (list :: (before ++ (xs ++ ([y] ++ rest))) ++ [t]).Perm
      (list :: (before ++ ([y] ++ (xs ++ rest))) ++ [t]) :=
    (((List.perm_append_comm_assoc xs [y] rest).append_left before).append_right [t]).cons list
  have hl' : Linked m list t ((before ++ xs) ++ ([y] ++ rest)) := by rwa [List.append_assoc]
  obtain ⟨p, hp⟩ := exists_before list (before ++ xs)
  obtain ⟨a, ha'⟩ := exists_before list before
  have hne : xs ≠ [] := List.ne_nil_of_mem (List.mem_of_head? ha)
  have hplace : (isInterior m a0 || isTail m a0) = true :=
    target_ok hl (by simp [List.mem_of_head? ha])
  have hbefore : a0 ∈ (xs ++ rest ++ [t]).head? := by
    rwa [List.append_assoc, List.head?_append_of_ne_nil _ hne]
  obtain ⟨hcut, hself, hsame⟩ := hl'.cut hp hq
  rw [List.append_assoc] at hcut
  have hcells := hl.cells.perm hperm
  have hfirst : y ∈ [y].head? := rfl
  have hlast : y ∈ [y].getLast? := rfl
  obtain ⟨hpaste, hsame'⟩ := hcut.paste hself hcells ha' hfirst hlast hbefore
  refine ⟨_, listSplice_linked hl' hp hfirst hlast hq hplace hcut ha' hbefore hcells, hpaste,
    (hsame.mono fun x hx => hx.mono ?_).trans (hsame'.mono fun x hx => hx.mono hperm.symm.subset)⟩
  rw [List.append_assoc]
  exact (((((List.Sublist.refl rest).cons y).append_left xs).append_left before).cons_cons
    list).append_right [t] |>.subset

/-- The loop of `inplace_merge`. The elements before `a0` are in place, `xs` are those that are
left of the first run, and `ys` those of the second. -/
theorem inplaceMergeLoop_spec (hl : Linked m list t (before ++ (xs ++ (ys ++ behind))))
    (hC : list :: (before ++ (xs ++ (ys ++ behind))) ++ [t] ⊆ C)
    (ha0 : a0 ∈ (xs ++ (ys ++ behind) ++ [t]).head?) (ha1 : a1b0 ∈ (ys ++ behind ++ [t]).head?)
    (hb1 : b1 ∈ (behind ++ [t]).head?) (hrounds : xs.length + ys.length < rounds) :
    ∃ m', inplaceMergeLoop less b1 rounds m a0 a1b0 = .ok m' ∧
      Linked m' list t (before ++ (Kernel.inplaceMerge less xs ys ++ behind)) ∧
      m.SameBut m' (InCells C) := by
  induction rounds generalizing m before xs ys a0 a1b0 with
  | zero => omega
  | succ rounds ih =>
      have hl' : Linked m list t ((before ++ xs) ++ (ys ++ behind)) := by rwa [List.append_assoc]
      have hfirst : a0 = a1b0 ↔ xs = [] := place_eq_iff hl ha0 ha1
      have hsecond : a1b0 = b1 ↔ ys = [] := place_eq_iff hl' ha1 hb1
      unfold inplaceMergeLoop
      cases xs with
      | nil =>
          refine ⟨m, ?_, ?_, SameBut.refl m _⟩
          · rw [if_neg fun h => h.1 (hfirst.mpr rfl)]
          · rwa [Kernel.inplaceMerge, List.nil_merge]
      | cons x xs =>
          cases ys with
          | nil =>
              refine ⟨m, ?_, ?_, SameBut.refl m _⟩
              · rw [if_neg fun h => h.2 (hsecond.mpr rfl)]
              · rwa [Kernel.inplaceMerge, List.merge_right]
          | cons y ys =>
              obtain rfl : x = a0 := by simpa using ha0
              obtain rfl : y = a1b0 := by simpa using ha1
              have hmore : x ≠ y ∧ y ≠ b1 :=
                ⟨fun h => List.cons_ne_nil _ _ (hfirst.mp h),
                  fun h => List.cons_ne_nil _ _ (hsecond.mp h)⟩
              rw [if_pos hmore, Kernel.inplaceMerge, List.cons_merge_cons]
              by_cases hless : (!less y x) = true
              · -- The first run's element stays where it is.
                rw [if_pos hless, if_pos hless]
                obtain ⟨q, hq⟩ := exists_behind (xs ++ ((y :: ys) ++ behind)) t
                have hl₁ : Linked m list t ((before ++ [x]) ++ (xs ++ ((y :: ys) ++ behind))) := by
                  rwa [List.append_assoc]
                obtain ⟨m', hloop, hlinked, hsame⟩ := ih hl₁ (by rwa [List.append_assoc]) hq ha1
                  (by simp only [List.length_cons] at hrounds ⊢; omega)
                refine ⟨m', ?_, ?_, hsame⟩
                · have hnext : listNext m x = .ok q := listNext_cons hl hq
                  rw [hnext, ok_bind]
                  exact hloop
                · rwa [List.append_assoc] at hlinked
              · -- The second run's element is spliced in before it. Both runs then begin
                -- where they did, one cell further on.
                rw [if_neg hless, if_neg hless]
                obtain ⟨q, hq⟩ := exists_behind (ys ++ behind) t
                have hnext : listNext m y = .ok q := listNext_cons hl' hq
                have hprev : listPrev m q = .ok y := listPrev_place hl' hq
                have hl₁ : Linked m list t (before ++ ((x :: xs) ++ ([y] ++ (ys ++ behind)))) := hl
                obtain ⟨m₁, hsplice, hlinked₁, hsame₁⟩ := splice_before hl₁ rfl hq
                have hperm : (list :: (before ++ ((x :: xs) ++ ([y] ++ (ys ++ behind)))) ++ [t]).Perm
                    (list :: (before ++ ([y] ++ ((x :: xs) ++ (ys ++ behind)))) ++ [t]) :=
                  (((List.perm_append_comm_assoc (x :: xs) [y] (ys ++ behind)).append_left
                    before).append_right [t]).cons list
                have hl₂ : Linked m₁ list t ((before ++ [y]) ++ ((x :: xs) ++ (ys ++ behind))) := by
                  rwa [List.append_assoc]
                have hhead : x ∈ ((x :: xs) ++ (ys ++ behind) ++ [t]).head? := rfl
                obtain ⟨m', hloop, hlinked, hsame⟩ := ih hl₂
                  (by rw [List.append_assoc]; exact List.Subset.trans hperm.symm.subset hC) hhead hq
                  (by simp only [List.length_cons] at hrounds ⊢; omega)
                refine ⟨m', ?_, ?_, (hsame₁.mono fun z hz => hz.mono hC).trans hsame⟩
                · rw [hnext, ok_bind, hprev, ok_bind, hsplice, ok_bind]
                  exact hloop
                · rwa [List.append_assoc] at hlinked

/-- `inplace_merge` on two runs in order. -/
theorem inplaceMerge_spec (hl : Linked m list t (before ++ (xs ++ (ys ++ behind))))
    (hxs : Sorted less xs) (hys : Sorted less ys)
    (ha0 : a0 ∈ (xs ++ (ys ++ behind) ++ [t]).head?) (ha1 : a1b0 ∈ (ys ++ behind ++ [t]).head?)
    (hb1 : b1 ∈ (behind ++ [t]).head?) :
    ∃ m', inplaceMerge less m a0 a1b0 b1 = .ok m' ∧
      Linked m' list t (before ++ (Kernel.inplaceMerge less xs ys ++ behind)) ∧
      m.SameBut m' (InCells (list :: (before ++ (xs ++ (ys ++ behind))) ++ [t])) := by
  have hl' : Linked m list t ((before ++ xs) ++ (ys ++ behind)) := by rwa [List.append_assoc]
  have hl'' : Linked m list t ((before ++ xs ++ ys) ++ behind) := by rwa [List.append_assoc]
  have hlength := length_lt_maxCells hl
  simp only [List.length_append] at hlength
  unfold inplaceMerge
  rw [if_neg (by simp [place_ne_zero hl ha0, place_ne_zero hl' ha1, place_ne_zero hl'' hb1]),
    isSorted_spec hl hxs ha0 ha1, ok_bind, isSorted_spec hl' hys ha1 hb1, ok_bind]
  exact inplaceMergeLoop_spec hl (List.Subset.refl _) ha0 ha1 hb1 (by omega)

end Merging

/-! ### Sorting -/

section Sorting

variable {less : Nat → Nat → Bool} {m : Mem} {list t a0 cnt k n rounds : Nat}
variable {before l out C : List Nat}

/-- The cells of a list whose elements have changed places. -/
theorem cells_subset (before : List Nat) {l' : List Nat} (h : l'.Perm l)
    (hC : list :: (before ++ l) ++ [t] ⊆ C) : list :: (before ++ l') ++ [t] ⊆ C :=
  List.Subset.trans (((h.append_left before).append_right [t]).cons list).subset hC

/-- A round does to the links what it does to the elements from `a0` on. By induction on the
rounds; `before` are the runs that have been merged, which lie in front of the rest in the
same list. -/
theorem sortRound_spec (hless : StrictWeakOrder less) (hl : Linked m list t (before ++ l))
    (hC : list :: (before ++ l) ++ [t] ⊆ C) (ha : a0 ∈ (l ++ [t]).head?) (hn : l.length ≤ n)
    (hround : Kernel.sortRound less n l = (cnt, out)) (hrounds : l.length < rounds) :
    ∃ m', sortRound less t rounds m a0 k = .ok (m', k + cnt) ∧
      Linked m' list t (before ++ out) ∧ m.SameBut m' (InCells C) := by
  induction rounds generalizing m before l a0 k n cnt out with
  | zero => omega
  | succ rounds ih =>
      unfold sortRound
      cases l with
      | nil =>
          obtain rfl : t = a0 := by simpa using ha
          have hnil : (cnt, out) = (0, []) := by
            rw [← hround]
            cases n <;> rfl
          cases hnil
          exact ⟨m, by simp, hl, SameBut.refl m _⟩
      | cons a l =>
          obtain rfl : a = a0 := by simpa using ha
          obtain ⟨n, rfl⟩ : ∃ j, n = j + 1 := ⟨n - 1, by simp at hn; omega⟩
          rw [if_pos (listNext_elem hl).1]
          unfold Kernel.sortRound at hround
          generalize hrun : Kernel.findEndOfRun less a l = r at hround
          obtain ⟨run, rest⟩ := r
          obtain ⟨happend, hne, hzero, -⟩ := Kernel.findEndOfRun_spec hrun
          obtain ⟨a1b0, hend, hplace⟩ := findEndOfRun_spec hl hrun
          -- The first run goes up to `a1b0`; if that is the tail, it is the last one.
          dsimp only
          rw [hend, ok_bind]
          rw [← happend] at hl hC
          cases rest with
          | nil =>
              obtain rfl : t = a1b0 := by simpa using hplace
              cases hround
              rw [List.append_nil] at hl
              exact ⟨m, by simp, hl, SameBut.refl m _⟩
          | cons b rest =>
              obtain rfl : b = a1b0 := by simpa using hplace
              dsimp only at hround
              generalize hrun' : Kernel.findEndOfRun less b rest = r' at hround
              obtain ⟨run', rest'⟩ := r'
              obtain ⟨happend', -, hzero', -⟩ := Kernel.findEndOfRun_spec hrun'
              have hl₁ : Linked m list t ((before ++ run) ++ b :: rest) := by
                rwa [List.append_assoc]
              obtain ⟨b1, hend', hplace'⟩ := findEndOfRun_spec hl₁ hrun'
              rw [if_neg (listNext_elem hl₁).1, hend', ok_bind]
              dsimp only at hround
              generalize htail : Kernel.sortRound less n rest' = r at hround
              obtain ⟨cnt₀, out₀⟩ := r
              cases hround
              rw [← happend'] at hl hC
              have hfirst : a ∈ (run ++ (run' ++ rest') ++ [t]).head? := by
                rw [happend', happend]
                rfl
              have hsecond : b ∈ (run' ++ rest' ++ [t]).head? := by
                rw [happend']
                rfl
              -- The two runs are merged, and the round goes on behind them.
              obtain ⟨m₁, hmerge, hlinked₁, hsame₁⟩ := inplaceMerge_spec hl
                ((descents_eq_zero hless).mp hzero) ((descents_eq_zero hless).mp hzero')
                hfirst hsecond hplace'
              have hperm : (Kernel.inplaceMerge less run run' ++ rest').Perm
                  (run ++ (run' ++ rest')) := by
                rw [← List.append_assoc]
                exact inplaceMerge_perm.append_right rest'
              have hall := congrArg List.length happend
              have hrest := congrArg List.length happend'
              have hpos := List.length_pos_iff.mpr hne
              simp only [List.length_append, List.length_cons] at hall hrest hn hrounds
              have hl₂ : Linked m₁ list t
                  ((before ++ Kernel.inplaceMerge less run run') ++ rest') := by
                rwa [List.append_assoc]
              obtain ⟨m', hloop, hlinked, hsame⟩ := ih (k := k + 1) hl₂
                (by rw [List.append_assoc]; exact cells_subset before hperm hC) hplace' (by omega)
                htail (by omega)
              refine ⟨m', ?_, ?_, (hsame₁.mono fun z hz => hz.mono hC).trans hsame⟩
              · rw [hmerge, ok_bind, hloop, Nat.add_right_comm, Nat.add_assoc]
              · rwa [List.append_assoc] at hlinked

/-- The outer loop takes the rounds that it takes on the elements. -/
theorem sortLoop_spec (hless : StrictWeakOrder less) (hl : Linked m list (listTail list) l)
    (hC : list :: l ++ [listTail list] ⊆ C) (hloop : Kernel.sortLoop less n l = some out)
    (hn : n ≤ rounds) :
    ∃ m', sortLoop less list rounds m = .ok m' ∧ Linked m' list (listTail list) out ∧
      m.SameBut m' (InCells C) := by
  induction n generalizing m l rounds with
  | zero => cases hloop
  | succ n ih =>
      obtain ⟨rounds, rfl⟩ : ∃ j, rounds = j + 1 := ⟨rounds - 1, by omega⟩
      unfold Kernel.sortLoop at hloop
      generalize hround : Kernel.sortRound less l.length l = r at hloop
      obtain ⟨cnt, out₁⟩ := r
      obtain ⟨q, hq⟩ := exists_behind l (listTail list)
      have hl₀ : Linked m list (listTail list) ([] ++ l) := hl
      have hfirst : m.next list = q := (hl₀.joined rfl hq).1
      obtain ⟨m₁, hexec, hlinked₁, hsame₁⟩ := sortRound_spec (k := 0) hless hl₀ hC hq
        (Nat.le_refl _) hround (length_lt_maxCells hl)
      have hperm := (Kernel.sortRound_spec hless (Nat.le_refl _) hround).1
      unfold sortLoop listBegin listEnd
      rw [if_neg (list_ne_zero hl), if_neg (list_ne_zero hl), ok_bind, ok_bind, hfirst, hexec,
        ok_bind]
      dsimp only at hloop ⊢
      rw [Nat.zero_add]
      by_cases hmore : cnt > 1
      · rw [if_pos hmore] at hloop ⊢
        obtain ⟨m', hrest, hlinked, hsame⟩ := ih hlinked₁ (cells_subset [] hperm hC) hloop
          (Nat.le_of_succ_le_succ hn)
        exact ⟨m', hrest, hlinked, hsame₁.trans hsame⟩
      · rw [if_neg hmore] at hloop ⊢
        cases hloop
        exact ⟨m₁, rfl, hlinked₁, hsame₁⟩

/-- `list_sort` does to the links what it does to the elements. -/
theorem listSort_linked (hless : StrictWeakOrder less) (hl : Linked m list (listTail list) l)
    (hsort : Kernel.listSort less l = some out) (hsorted : Sorted less out) :
    ∃ m', listSort less m list = .ok m' ∧ Linked m' list (listTail list) out ∧
      m.SameBut m' (InCells (list :: l ++ [listTail list])) := by
  have hlength := length_lt_maxCells hl
  have hrounds : l.length + 1 ≤ maxCells := by omega
  obtain ⟨m', hloop, hlinked, hsame⟩ := sortLoop_spec hless hl (List.Subset.refl _) hsort hrounds
  refine ⟨m', ?_, hlinked, hsame⟩
  obtain ⟨q, hq⟩ := exists_behind out (listTail list)
  have hl₀ : Linked m' list (listTail list) ([] ++ out) := hlinked
  have hl₁ : Linked m' list (listTail list) ([] ++ (out ++ [])) := by rwa [List.append_nil]
  have hfirst : m'.next list = q := (hl₀.joined rfl hq).1
  have hcheck : isSorted less m' q (listTail list) = .ok true :=
    isSorted_spec hl₁ hsorted (by rwa [List.append_nil]) rfl
  unfold listSort listBegin listEnd
  rw [if_neg (list_ne_zero hl), hloop, ok_bind, if_neg (list_ne_zero hl),
    if_neg (list_ne_zero hl), ok_bind, ok_bind, hfirst, hcheck]
  rfl

/-- `list_sort` ends, whatever the strict weak order, and leaves a list in order with the same
sentinels: both traversals come by the elements it had, in nondecreasing order, and equal
elements come in the order they were in. It writes to no other byte. -/
theorem list_sort_correct (hless : StrictWeakOrder less)
    (hl : Linked m list (listTail list) l) :
    ∃ m' out, listSort less m list = .ok m' ∧ Linked m' list (listTail list) out ∧
      forward m' list = .ok out ∧ backward m' list = .ok out.reverse ∧ out.Perm l ∧
      Sorted less out ∧ KeepsOrder less l out ∧
      m.SameBut m' (InCells (list :: l ++ [listTail list])) := by
  obtain ⟨out, hsort, hperm, hsorted⟩ := Kernel.listSort_spec hless l
  obtain ⟨m', hexec, hlinked, hsame⟩ := listSort_linked hless hl hsort hsorted
  exact ⟨m', out, hexec, hlinked, forward_linked hlinked, backward_linked hlinked, hperm, hsorted,
    keepsOrder_sortLoop hless hsort, hsame⟩

/-- The last of three elements is less than the other two, which are equal. -/
theorem list_sort_correct_three :
    let less : Nat → Nat → Bool := fun a b => a = 140 && b ≠ 140
    ∃ m m' out, forward m 16 = .ok [100, 120, 140] ∧ listSort less m 16 = .ok m' ∧
      forward m' 16 = .ok out ∧ backward m' 16 = .ok out.reverse ∧
      out.Perm [100, 120, 140] ∧ Sorted less out ∧ [100, 120].Sublist out := by
  intro less
  have hless : StrictWeakOrder less := by
    constructor
    · intro a b h
      simp only [less, Bool.and_eq_true, decide_eq_true_eq] at h
      simp [less, h.2]
    · intro a b c hab hbc
      simp only [less, Bool.and_eq_false_iff, decide_eq_false_iff_not] at hab hbc ⊢
      omega
  obtain ⟨m, hrep⟩ := @exists_represents 16 [100, 120, 140] (by decide)
    (by simp [cellsOf, listTail, CellsApart])
  have hl : Linked m 16 (listTail 16) [100, 120, 140] := hrep.linked 16 _ rfl
  obtain ⟨m', out, hsort, -, hforward, hbackward, hperm, hsorted, hkeeps, -⟩ :=
    list_sort_correct hless hl
  exact ⟨m, m', out, forward_linked hl, hsort, hforward, hbackward, hperm, hsorted,
    hkeeps 100 120 (by decide) (by decide)⟩

end Sorting

end OsTools.Kernel.InPlace

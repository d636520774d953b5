import OsTools.Kernel.List
/-!
# OsTools.Kernel.ListOps

The operations of `lib/kernel/list.c` that move whole stretches of a list,
`list_splice` and `list_reverse`, and the traversals in both directions. Each has one
lemma on the sequence of elements that the list is linked up to.

The loops over a list have a bound on their rounds, `maxCells`. There is no room in
the address space for a longer list (`Cells.length_le`).

## Proof shape

`list_splice` cuts a segment out and puts it before another cell, which are four changes of
links, all of them at the ends of segments. `list_reverse` swaps the two links of every
element while it follows the swapped ones; `Swapped` says what its loop has done to the
elements so far, and then the links of the two sentinels and of the cells beside them are
put right (`Turned`). A traversal is an induction on the elements that are left.
-/

namespace OsTools.Kernel

open Mem

/-- `is_head`. -/
def isHead (m : Mem) (elem : Nat) : Bool := elem ≠ 0 ∧ m.prev elem = 0 ∧ m.next elem ≠ 0

/-- `list_next`. -/
def listNext (m : Mem) (elem : Nat) : Except Stop Nat :=
  if isHead m elem || isInterior m elem then .ok (m.next elem) else .error .assertion

/-- `list_prev`. -/
def listPrev (m : Mem) (elem : Nat) : Except Stop Nat :=
  if isInterior m elem || isTail m elem then .ok (m.prev elem) else .error .assertion

/-- `list_rbegin`. -/
def listRbegin (m : Mem) (list : Nat) : Except Stop Nat :=
  if list = 0 then .error .assertion else .ok (m.prev (listTail list))

/-- `list_rend`. -/
def listRend (list : Nat) : Except Stop Nat :=
  if list = 0 then .error .assertion else .ok list

/-- `list_back`. -/
def listBack (m : Mem) (list : Nat) : Except Stop Nat := do
  if ← listEmpty m list then .error .assertion else .ok (m.prev (listTail list))

/-- `list_pop_back`. -/
def listPopBack (m : Mem) (list : Nat) : Except Stop (Mem × Nat) := do
  let back ← listBack m list
  let (m, _) ← listRemove m back
  .ok (m, back)

/-- `list_splice`. -/
def listSplice (m : Mem) (before first last : Nat) : Except Stop Mem :=
  if isInterior m before || isTail m before then
    if first = last then .ok m
    else do
      let last ← listPrev m last
      if isInterior m first && isInterior m last then
        -- Cleanly remove first...last from its current list.
        let m := m.setNext (m.prev first) (m.next last)
        let m := m.setPrev (m.next last) (m.prev first)
        -- Splice first...last into the new list.
        let m := m.setPrev first (m.prev before)
        let m := m.setNext last before
        let m := m.setNext (m.prev before) first
        .ok (m.setPrev before last)
      else .error .assertion
  else .error .assertion

/-- `swap (&e->prev, &e->next)`. -/
def swapLinks (m : Mem) (e : Nat) : Mem := (m.setPrev e (m.next e)).setNext e (m.prev e)

/-- The number of cells in the address space. -/
def maxCells : Nat := 2 ^ 29

/-- The loop of `list_reverse`, which follows the links that it has swapped. -/
def reverseLoop (list : Nat) : Nat → Mem → Nat → Except Stop Mem
  | 0, _, _ => .error .fault
  | rounds + 1, m, e => do
      let last ← listEnd list
      if e = last then .ok m
      else
        let m := swapLinks m e
        reverseLoop list rounds m (m.prev e)

/-- `swap (&list->head.next, &list->tail.prev)`. -/
def swapEnds (m : Mem) (list : Nat) : Mem :=
  (m.setNext list (m.prev (listTail list))).setPrev (listTail list) (m.next list)

/-- `swap (&list->head.next->prev, &list->tail.prev->next)`. -/
def swapOuter (m : Mem) (list : Nat) : Mem :=
  let a := m.next list
  let b := m.prev (listTail list)
  (m.setPrev a (m.next b)).setNext b (m.prev a)

/-- `list_reverse`. -/
def listReverse (m : Mem) (list : Nat) : Except Stop Mem := do
  if ← listEmpty m list then .ok m
  else
    let first ← listBegin m list
    let m ← reverseLoop list maxCells m first
    .ok (swapOuter (swapEnds m list) list)

/-- The elements from `e` on that a loop with `list_next` comes by before `last`. -/
def forwardLoop (m : Mem) (last : Nat) : Nat → Nat → Except Stop (List Nat)
  | 0, _ => .error .fault
  | rounds + 1, e =>
      if e = last then .ok []
      else do
        let next ← listNext m e
        let rest ← forwardLoop m last rounds next
        .ok (e :: rest)

/-- `for (e = list_begin (list); e != list_end (list); e = list_next (e))`. -/
def forward (m : Mem) (list : Nat) : Except Stop (List Nat) := do
  let first ← listBegin m list
  let last ← listEnd list
  forwardLoop m last maxCells first

/-- The elements from `e` on that a loop with `list_prev` comes by before `last`. -/
def backwardLoop (m : Mem) (last : Nat) : Nat → Nat → Except Stop (List Nat)
  | 0, _ => .error .fault
  | rounds + 1, e =>
      if e = last then .ok []
      else do
        let prev ← listPrev m e
        let rest ← backwardLoop m last rounds prev
        .ok (e :: rest)

/-- `for (e = list_rbegin (list); e != list_rend (list); e = list_prev (e))`. -/
def backward (m : Mem) (list : Nat) : Except Stop (List Nat) := do
  let first ← listRbegin m list
  let last ← listRend list
  backwardLoop m last maxCells first

variable {m m' : Mem} {list e : Nat} {l l₁ l₂ s : List Nat}

/-! ### Taking off either end -/

theorem listEmpty_nil (hl : Linked m list (listTail list) []) : listEmpty m list = .ok true := by
  have hfirst : m.next list = listTail list := hl.links.1
  unfold listEmpty listBegin listEnd
  rw [if_neg (list_ne_zero hl), if_neg (list_ne_zero hl), ok_bind, ok_bind, hfirst]
  simp

theorem listEmpty_ne_nil (hl : Linked m list (listTail list) l) (hne : l ≠ []) :
    listEmpty m list = .ok false := by
  cases l with
  | nil => exact absurd rfl hne
  | cons e l =>
      have hfirst : m.next list = e := hl.links.1
      have htail : e ≠ listTail list := by
        have hnodup := (List.nodup_cons.mp hl.nodup).2
        exact (List.nodup_append.mp hnodup).2.2 e List.mem_cons_self _ (List.mem_singleton_self _)
      unfold listEmpty listBegin listEnd
      rw [if_neg (list_ne_zero hl), if_neg (list_ne_zero hl), ok_bind, ok_bind, hfirst]
      simp [htail]

theorem listPopFront_linked (hl : Linked m list (listTail list) (e :: l)) :
    ∃ m', listPopFront m list = .ok (m', e) ∧ Linked m' list (listTail list) l ∧
      m.SameBut m' (InCells (list :: l ++ [listTail list])) := by
  have hl₀ : Linked m list (listTail list) ([] ++ ([e] ++ l)) := hl
  obtain ⟨m', q, hrem, -, hl', hsame⟩ := listRemove_linked hl₀
  refine ⟨m', ?_, hl', hsame⟩
  have hfirst : m.next list = e := hl.links.1
  unfold listPopFront listFront
  rw [listEmpty_ne_nil hl (List.cons_ne_nil e l), ok_bind, hfirst]
  show (Except.ok e >>= _) = _
  rw [ok_bind, hrem, ok_bind]

theorem listPopBack_linked (hl : Linked m list (listTail list) (l ++ [e])) :
    ∃ m', listPopBack m list = .ok (m', e) ∧ Linked m' list (listTail list) l ∧
      m.SameBut m' (InCells (list :: l ++ [listTail list])) := by
  have hl₀ : Linked m list (listTail list) (l ++ ([e] ++ [])) := hl
  obtain ⟨m', q, hrem, -, hl', hsame⟩ := listRemove_linked hl₀
  rw [List.append_nil] at hl' hsame
  refine ⟨m', ?_, hl', hsame⟩
  have hwhole : Linked m list (listTail list) ((l ++ [e]) ++ []) := by rwa [List.append_nil]
  have hbefore : e ∈ (list :: (l ++ [e])).getLast? := by
    rw [← List.cons_append, List.getLast?_concat]
    rfl
  have hlast : m.prev (listTail list) = e := (hwhole.joined hbefore rfl).2
  unfold listPopBack listBack
  rw [listEmpty_ne_nil hl (by simp), ok_bind, hlast]
  show (Except.ok e >>= _) = _
  rw [ok_bind, hrem, ok_bind]

/-! ### Splicing -/

/-- Every cell but the head has one before it. -/
theorem target_ok {t x : Nat} (hl : Linked m list t l) (hx : x ∈ l ++ [t]) :
    (isInterior m x || isTail m x) = true := by
  rcases List.mem_append.mp hx with hx | hx
  · rw [interior_ok hl hx]
    rfl
  · have hwhole : Linked m list t (l ++ []) := by rwa [List.append_nil]
    rw [List.mem_singleton.mp hx]
    exact place_ok hwhole rfl

/-- `list_splice`, where the list at `list` is without the segment already. The code reads the
neighbours of both places while it writes, and the equations in the middle say what it reads
then. -/
theorem listSplice_linked {src ts t p q a before first last : Nat} {k₁ k₂ : List Nat}
    (hl : Linked m src ts (l₁ ++ (s ++ l₂))) (hp : p ∈ (src :: l₁).getLast?)
    (hf : first ∈ s.head?) (hz : last ∈ s.getLast?) (hq : q ∈ (l₂ ++ [ts]).head?)
    (hplace : (isInterior m before || isTail m before) = true)
    (hdst : Linked (m.unlink p q) list t (k₁ ++ k₂)) (ha : a ∈ (list :: k₁).getLast?)
    (hb : before ∈ (k₂ ++ [t]).head?) (hcells : Cells (list :: (k₁ ++ (s ++ k₂)) ++ [t])) :
    listSplice m before first q = .ok ((m.unlink p q).link a first last before) := by
  obtain ⟨⟨-, hprev⟩, hnext, hlast⟩ := joined_segment hl hp hf hz hq
  have hfs : first ∈ s := List.mem_of_head? hf
  have hzs : last ∈ s := List.mem_of_getLast? hz
  have hsrc := hl.cells
  have hshape : src :: (l₁ ++ (s ++ l₂)) ++ [ts] = (src :: l₁) ++ (s ++ (l₂ ++ [ts])) := by simp
  have hnodup := hl.nodup
  have hpC := Linked.mem_before (s ++ l₂) ts hp
  rw [hshape] at hsrc hpC hnodup
  have hinS : ∀ x ∈ s, x ∈ (src :: l₁) ++ (s ++ (l₂ ++ [ts])) := fun x hx =>
    List.mem_append_right _ (List.mem_append_left _ hx)
  have hps : ∀ x ∈ s, CellsApart p x := fun x hx => hsrc.cellsApart hpC (hinS x hx)
    ((List.nodup_append.mp hnodup).2.2 p (List.mem_of_getLast? hp) x (List.mem_append_left _ hx))
  have hqs : first ≠ q := (List.nodup_append.mp (List.nodup_append.mp hnodup).2.1).2.2 first hfs q
    (List.mem_of_head? hq)
  have hshape' : list :: (k₁ ++ (s ++ k₂)) ++ [t] = (list :: k₁) ++ (s ++ (k₂ ++ [t])) := by simp
  have hback : ∀ x ∈ s, CellsApart x before := by
    intro x hx
    have hnodup' := hcells.nodup
    rw [hshape'] at hcells hnodup'
    refine hcells.cellsApart (List.mem_append_right _ (List.mem_append_left _ hx))
      (List.mem_append_right _ (List.mem_append_right _ (List.mem_of_head? hb))) ?_
    exact (List.nodup_append.mp (List.nodup_append.mp hnodup').2.1).2.2 x hx before
      (List.mem_of_head? hb)
  have hplace' : (isInterior m q || isTail m q) = true := by
    have hl' : Linked m src ts ((l₁ ++ s) ++ l₂) := by rwa [List.append_assoc]
    exact place_ok hl' hq
  have hin : ∀ x ∈ s, isInterior m x = true := fun x hx => interior_ok hl (by simp [hx])
  -- What is read after the writes to `p` and `q`, and then to the ends of the segment.
  have hread : (m.setNext p q).prev first = p := by
    rw [prev_setNext (Or.inr (hps first hfs)), hprev]
  have hread' : (m.setNext p q).next last = q := by
    rw [next_setNext (hps last hzs), hnext]
  have hbefore : (m.unlink p q).prev before = a := (hdst.joined ha hb).2
  have hread'' : (((m.unlink p q).setPrev first a).setNext last before).prev before = a := by
    rw [prev_setNext (Or.inr (hback last hzs)), prev_setPrev (hback first hfs), hbefore]
  unfold listSplice listPrev
  rw [if_pos hplace, if_neg hqs, if_pos hplace', ok_bind, hlast]
  rw [if_pos (by rw [hin first hfs, hin last hzs]; rfl)]
  dsimp only
  have hcut : (m.setNext p q).setPrev q p = m.unlink p q := rfl
  rw [hprev, hnext, hread, hread', hcut, hbefore, hread'']
  rfl

/-! ### Reversing -/

theorem length_lt_maxCells {t : Nat} (hl : Linked m list t l) : l.length < maxCells := by
  have := hl.cells.length_le
  simp only [List.length_append, List.length_cons, List.length_nil] at this
  unfold maxCells
  omega

theorem next_swapLinks {C : List Nat} {y : Nat} (h : Cells C) (he : e ∈ C) (hy : y ∈ C) :
    (swapLinks m e).next y = if e = y then m.prev y else m.next y := by
  unfold swapLinks
  rw [next_setNext_eq (h.eq_or_apart he hy) (prev_lt m e), next_setPrev (h.eq_or_apart he hy)]
  by_cases hey : e = y
  · rw [if_pos hey, if_pos hey, hey]
  · rw [if_neg hey, if_neg hey]

theorem prev_swapLinks {C : List Nat} {y : Nat} (h : Cells C) (he : e ∈ C) (hy : y ∈ C) :
    (swapLinks m e).prev y = if e = y then m.next y else m.prev y := by
  unfold swapLinks
  rw [prev_setNext (h.eq_or_apart he hy), prev_setPrev_eq (h.eq_or_apart he hy) (next_lt m e)]
  by_cases hey : e = y
  · rw [if_pos hey, if_pos hey, hey]
  · rw [if_neg hey, if_neg hey]

/-- What the loop of `list_reverse` does to the links, and which bytes it writes. -/
structure Swapped (m m' : Mem) (C l : List Nat) : Prop where
  next : ∀ y ∈ C, m'.next y = if y ∈ l then m.prev y else m.next y
  prev : ∀ y ∈ C, m'.prev y = if y ∈ l then m.next y else m.prev y
  same : m.SameBut m' (InCells C)

/-- The loop swaps the links of each element once: the induction is on the elements that
are left, whose links are still the old ones. -/
theorem reverseLoop_spec {C : List Nat} {rounds : Nat} (hC : Cells C) (hlist : list ≠ 0)
    (hin : ∀ x ∈ l ++ [listTail list], x ∈ C) (hnodup : (l ++ [listTail list]).Nodup)
    (hlinks : Links m (l ++ [listTail list])) (he : e ∈ (l ++ [listTail list]).head?)
    (hrounds : l.length < rounds) :
    ∃ m', reverseLoop list rounds m e = .ok m' ∧ Swapped m m' C l := by
  induction l generalizing m e rounds with
  | nil =>
      obtain ⟨rounds, rfl⟩ : ∃ k, rounds = k + 1 := ⟨rounds - 1, by simp at hrounds; omega⟩
      obtain rfl : listTail list = e := by simpa using he
      refine ⟨m, ?_, by simp, by simp, SameBut.refl m _⟩
      unfold reverseLoop listEnd
      rw [if_neg hlist, ok_bind, if_pos rfl]
  | cons x l ih =>
      obtain ⟨rounds, rfl⟩ : ∃ k, rounds = k + 1 := ⟨rounds - 1, by simp at hrounds; omega⟩
      obtain rfl : x = e := by simpa using he
      obtain ⟨hx, hnodup'⟩ := List.nodup_cons.mp hnodup
      have hxC : x ∈ C := hin x List.mem_cons_self
      obtain ⟨q, hq⟩ := exists_behind l (listTail list)
      obtain ⟨-, hrest, hseam⟩ := (links_append (A := [x])).mp hlinks
      have hq' : (swapLinks m x).prev x = q := by
        rw [prev_swapLinks hC hxC hxC, if_pos rfl]
        exact (hseam x rfl q hq).1
      have hother : ∀ y ∈ l ++ [listTail list], x ≠ y := fun y hy heq => hx (heq ▸ hy)
      have hlinks' : Links (swapLinks m x) (l ++ [listTail list]) := by
        refine hrest.congr (fun y hy => ?_) fun y hy => ?_
        · have hy' := List.dropLast_subset _ hy
          rw [next_swapLinks hC hxC (hin y (List.mem_cons_of_mem _ hy')), if_neg (hother y hy')]
        · have hy' := List.mem_of_mem_tail hy
          rw [prev_swapLinks hC hxC (hin y (List.mem_cons_of_mem _ hy')), if_neg (hother y hy')]
      obtain ⟨m', hloop, hswap⟩ := ih (fun y hy => hin y (List.mem_cons_of_mem _ hy)) hnodup'
        hlinks' hq (by simpa using hrounds)
      have hne : x ≠ listTail list := hother _ (by simp)
      refine ⟨m', ?_, fun y hy => ?_, fun y hy => ?_, ?_⟩
      · unfold reverseLoop listEnd
        rw [if_neg hlist, ok_bind, if_neg hne]
        dsimp only
        rw [hq']
        exact hloop
      · rw [hswap.next y hy, next_swapLinks hC hxC hy, prev_swapLinks hC hxC hy]
        by_cases hxy : x = y
        · have hyl : y ∉ l := fun hyl => hother y (List.mem_append_left _ hyl) hxy
          rw [if_neg hyl, if_pos hxy, if_pos (by simp [hxy])]
        · simp [hxy, Ne.symm hxy]
      · rw [hswap.prev y hy, next_swapLinks hC hxC hy, prev_swapLinks hC hxC hy]
        by_cases hxy : x = y
        · have hyl : y ∉ l := fun hyl => hother y (List.mem_append_left _ hyl) hxy
          rw [if_neg hyl, if_pos hxy, if_pos (by simp [hxy])]
        · simp [hxy, Ne.symm hxy]
      · exact ((SameBut.setPrev_in hxC _).trans (SameBut.setNext_in hxC _)).trans hswap.same

/-- The elements are linked up the other way round by then. -/
theorem Swapped.links {C : List Nat} (h : Swapped m m' C l) (hin : ∀ x ∈ l, x ∈ C)
    (hlinks : Links m l) : Links m' l.reverse := by
  rw [links_iff_isChain] at hlinks ⊢
  rw [List.isChain_reverse]
  refine hlinks.imp_of_mem_imp fun x y hx hy hxy => ⟨?_, ?_⟩
  · rw [h.next y (hin y hy), if_pos hy]
    exact hxy.2
  · rw [h.prev x (hin x hx), if_pos hx]
    exact hxy.1

/-- What the two swaps behind the loop do, where `f` was the first element of the list and
`z` the last. -/
structure Turned (m m' : Mem) (C : List Nat) (list f z : Nat) : Prop where
  next : ∀ y ∈ C, m'.next y =
    if list = y then z else if f = y then listTail list else m.next y
  prev : ∀ y ∈ C, m'.prev y =
    if listTail list = y then f else if z = y then list else m.prev y
  same : m.SameBut m' (InCells C)

/-- The four writes at the ends of `list_reverse`. The list is not empty, so that the
sentinels are apart from `f` and `z`; these two may be the same cell. -/
theorem swaps_turned {C : List Nat} {f z : Nat} (hC : Cells C) (h₁ : list ∈ C)
    (h₂ : listTail list ∈ C) (hf : f ∈ C) (hz : z ∈ C) (hlf : list ≠ f) (htz : listTail list ≠ z)
    (hfirst : m.next list = f) (hlast : m.prev (listTail list) = z)
    (hprevz : m.prev z = listTail list) (hnextf : m.next f = list) :
    Turned m (swapOuter (swapEnds m list) list) C list f z := by
  have hnext : ∀ y ∈ C, (swapEnds m list).next y = if list = y then z else m.next y := by
    intro y hy
    unfold swapEnds
    rw [next_setPrev (hC.eq_or_apart h₂ hy), hlast,
      next_setNext_eq (hC.eq_or_apart h₁ hy) (hC.lt hz)]
  have hprev : ∀ y ∈ C, (swapEnds m list).prev y = if listTail list = y then f else m.prev y := by
    intro y hy
    unfold swapEnds
    rw [hfirst, prev_setPrev_eq (hC.eq_or_apart h₂ hy) (hC.lt hf),
      prev_setNext (hC.eq_or_apart h₁ hy)]
  have houter : swapOuter (swapEnds m list) list =
      ((swapEnds m list).setPrev z list).setNext f (listTail list) := by
    unfold swapOuter
    dsimp only
    rw [hnext _ h₁, if_pos rfl, hprev _ h₂, if_pos rfl, hnext f hf, if_neg hlf, hnextf,
      hprev z hz, if_neg htz, hprevz]
  refine ⟨fun y hy => ?_, fun y hy => ?_, ?_⟩
  · rw [houter, next_setNext_eq (hC.eq_or_apart hf hy) (hC.lt h₂),
      next_setPrev (hC.eq_or_apart hz hy), hnext y hy]
    by_cases hfy : f = y
    · rw [if_pos hfy, if_neg fun h : list = y => hlf (h.trans hfy.symm), if_pos hfy]
    · rw [if_neg hfy, if_neg hfy]
  · rw [houter, prev_setNext (hC.eq_or_apart hf hy),
      prev_setPrev_eq (hC.eq_or_apart hz hy) (hC.lt h₁), hprev y hy]
    by_cases hzy : z = y
    · rw [if_pos hzy, if_neg fun h : listTail list = y => htz (h.trans hzy.symm), if_pos hzy]
    · rw [if_neg hzy, if_neg hzy]
  · rw [houter]
    exact (((SameBut.setNext_in h₁ _).trans (SameBut.setPrev_in h₂ _)).trans
      (SameBut.setPrev_in hz _)).trans (SameBut.setNext_in hf _)

/-- `list_reverse`. The loop swaps the two links of every element; then the sentinels get the
element at the other end each, whose links back to them are exchanged. What results is the
list that is linked in the reversed order. -/
theorem listReverse_linked (hl : Linked m list (listTail list) l) :
    ∃ m', listReverse m list = .ok m' ∧ Linked m' list (listTail list) l.reverse ∧
      m.SameBut m' (InCells (list :: l.reverse ++ [listTail list])) := by
  by_cases hne : l = []
  · subst hne
    refine ⟨m, ?_, hl, SameBut.refl m _⟩
    unfold listReverse
    rw [listEmpty_nil hl, ok_bind]
    rfl
  obtain ⟨f, hf⟩ : ∃ f, f ∈ l.head? := ⟨_, List.head?_eq_some_head hne⟩
  obtain ⟨z, hz⟩ : ∃ z, z ∈ l.getLast? := ⟨_, List.getLast?_eq_some_getLast hne⟩
  have hfl : f ∈ l := List.mem_of_head? hf
  have hzl : z ∈ l := List.mem_of_getLast? hz
  have hwhole : Linked m list (listTail list) ([] ++ (l ++ [])) := by rwa [List.append_nil]
  have hbefore : list ∈ [list].getLast? := rfl
  obtain ⟨⟨hfirst, hprevf⟩, hnextz, hlast⟩ := joined_segment hwhole hbefore hf hz rfl
  have hC := hl.cells
  obtain ⟨hlist, hnodup⟩ := List.nodup_cons.mp hl.nodup
  have hlinks : Links m (l ++ [listTail list]) := ((links_append (A := [list])).mp hl.links).2.1
  have hin : ∀ x ∈ l ++ [listTail list], x ∈ list :: l ++ [listTail list] := fun x hx =>
    List.mem_cons_of_mem _ hx
  have hinl : ∀ x ∈ l, x ∈ list :: l ++ [listTail list] := fun x hx =>
    hin x (List.mem_append_left _ hx)
  have h₁ : list ∈ list :: l ++ [listTail list] := List.mem_cons_self
  have h₂ : listTail list ∈ list :: l ++ [listTail list] := hin _ (by simp)
  have hlistl : list ∉ l := fun h => hlist (List.mem_append_left _ h)
  have hlistt : list ≠ listTail list := fun h => hlist (List.mem_append_right _ (by simp [← h]))
  have hdis : ∀ x ∈ l, x ≠ listTail list := fun x hx =>
    (List.nodup_append.mp hnodup).2.2 x hx _ (List.mem_singleton_self _)
  have htail : listTail list ∉ l := fun h => hdis _ h rfl
  have hlf : list ≠ f := fun h => hlistl (h ▸ hfl)
  have hlz : z ≠ list := fun h => hlistl (h ▸ hzl)
  obtain ⟨m₁, hloop, hswap⟩ := reverseLoop_spec hC (list_ne_zero hl) hin hnodup hlinks
    (by rwa [List.head?_append_of_ne_nil _ hne]) (length_lt_maxCells hl)
  -- the loop swaps the links of the inner elements, the rest turns the ends around
  have hturned : Turned m₁ (swapOuter (swapEnds m₁ list) list) (list :: l ++ [listTail list])
      list f z := by
    refine swaps_turned hC h₁ h₂ (hinl f hfl) (hinl z hzl) hlf (hdis z hzl).symm ?_ ?_ ?_ ?_
    · rw [hswap.next _ h₁, if_neg hlistl, hfirst]
    · rw [hswap.prev _ h₂, if_neg htail, hlast]
    · rw [hswap.prev z (hinl z hzl), if_pos hzl, hnextz]
    · rw [hswap.next f (hinl f hfl), if_pos hfl, hprevf]
  have hperm : (list :: l ++ [listTail list]).Perm (list :: l.reverse ++ [listTail list]) :=
    (l.reverse_perm.symm.append_right _).cons list
  have hC' := hC.perm hperm
  have hinside := fun x (hx : InCells (list :: l ++ [listTail list]) x) => hx.mono hperm.subset
  refine ⟨_, ?_, ⟨?_, ?_, ?_, hC'.apart, hC'.bound⟩,
    (hswap.same.trans hturned.same).mono hinside⟩
  · unfold listReverse listBegin
    rw [listEmpty_ne_nil hl hne, ok_bind]
    show ((if list = 0 then _ else _) >>= _) = _
    rw [if_neg (list_ne_zero hl), ok_bind, hfirst, hloop, ok_bind]
  · have hmid := hswap.links hinl (links_append.mp hlinks).1
    refine Links.paste (A := [list]) trivial hmid trivial hC'.nodup rfl
      (by rwa [List.head?_reverse]) (by rwa [List.getLast?_reverse]) rfl ?_ ?_
    · exact fun y hy => hturned.next y (hperm.mem_iff.mpr hy)
    · exact fun y hy => hturned.prev y (hperm.mem_iff.mpr hy)
  · rw [hturned.prev _ h₁, if_neg hlistt.symm, if_neg hlz, hswap.prev _ h₁, if_neg hlistl]
    exact hl.first
  · rw [hturned.next _ h₂, if_neg hlistt, if_neg (hdis f hfl), hswap.next _ h₂, if_neg htail]
    exact hl.last

/-! ### Traversing -/

/-- From any cell but the tail a traversal goes on to the cell behind it. -/
theorem listNext_place {t p q : Nat} (hl : Linked m list t (l₁ ++ l₂))
    (hp : p ∈ (list :: l₁).getLast?) (hq : q ∈ (l₂ ++ [t]).head?) : listNext m p = .ok q := by
  have hnext := (hl.joined hp hq).1
  have hnext₀ : m.next p ≠ 0 := by
    rw [hnext]
    have := (hl.bound q (Linked.mem_behind _ _ hq)).1
    omega
  have hp₀ := (hl.bound p (Linked.mem_before _ _ hp)).1
  have hcell : (isHead m p || isInterior m p) = true := by
    unfold isHead isInterior
    rw [Bool.or_eq_true, decide_eq_true_iff, decide_eq_true_iff]
    by_cases hprev : m.prev p = 0
    · exact Or.inl ⟨by omega, hprev, hnext₀⟩
    · exact Or.inr ⟨by omega, hprev, hnext₀⟩
  unfold listNext
  rw [if_pos hcell, hnext]

theorem listNext_elem {t : Nat} (hl : Linked m list t (l₁ ++ e :: l₂)) :
    e ≠ t ∧ ∃ q ∈ (l₂ ++ [t]).head?, listNext m e = .ok q := by
  obtain ⟨q, hq⟩ := exists_behind l₂ t
  have hl' : Linked m list t ((l₁ ++ [e]) ++ l₂) := by rwa [List.append_assoc]
  have he : e ∈ (list :: (l₁ ++ [e])).getLast? := by
    rw [← List.cons_append, List.getLast?_concat]
    rfl
  refine ⟨?_, q, hq, listNext_place hl' he hq⟩
  exact (List.nodup_append.mp hl.nodup).2.2 e (by simp) t (List.mem_singleton_self t)

/-- The loop comes by the elements that are left in order. -/
theorem forwardLoop_spec {t rounds : Nat} (hl : Linked m list t (l₁ ++ l₂))
    (he : e ∈ (l₂ ++ [t]).head?) (hrounds : l₂.length < rounds) :
    forwardLoop m t rounds e = .ok l₂ := by
  induction l₂ generalizing l₁ e rounds with
  | nil =>
      obtain ⟨rounds, rfl⟩ : ∃ k, rounds = k + 1 := ⟨rounds - 1, by simp at hrounds; omega⟩
      obtain rfl : t = e := by simpa using he
      unfold forwardLoop
      rw [if_pos rfl]
  | cons x l₂ ih =>
      obtain ⟨rounds, rfl⟩ : ∃ k, rounds = k + 1 := ⟨rounds - 1, by simp at hrounds; omega⟩
      obtain rfl : x = e := by simpa using he
      obtain ⟨hne, q, hq, hnext⟩ := listNext_elem hl
      have hrest : Linked m list t ((l₁ ++ [x]) ++ l₂) := by rwa [List.append_assoc]
      unfold forwardLoop
      rw [if_neg hne, hnext, ok_bind, ih hrest hq (by simpa using hrounds), ok_bind]

/-- The same from the back: the elements that are left are those before `e`. -/
theorem backwardLoop_spec {t rounds : Nat} (hl : Linked m list t (l₁ ++ l₂))
    (he : e ∈ (list :: l₁).getLast?) (hrounds : l₁.length < rounds) :
    backwardLoop m list rounds e = .ok l₁.reverse := by
  induction l₁ using List.reverseRecOn generalizing l₂ e rounds with
  | nil =>
      obtain ⟨rounds, rfl⟩ : ∃ k, rounds = k + 1 := ⟨rounds - 1, by simp at hrounds; omega⟩
      obtain rfl : list = e := by simpa using he
      unfold backwardLoop
      rw [if_pos rfl]
      rfl
  | append_singleton l₁ x ih =>
      obtain ⟨rounds, rfl⟩ : ∃ k, rounds = k + 1 := ⟨rounds - 1, by simp at hrounds; omega⟩
      rw [← List.cons_append, List.getLast?_concat] at he
      obtain rfl : x = e := Option.some.inj he
      obtain ⟨p, hp⟩ := exists_before list l₁
      obtain ⟨q, hq⟩ := exists_behind l₂ t
      have hseg : Linked m list t (l₁ ++ ([x] ++ l₂)) := by rwa [← List.append_assoc]
      obtain ⟨hprev, -⟩ := joined_elem hseg hp hq
      have hne : x ≠ list := by
        have hnodup := hl.nodup
        intro heq
        exact (List.nodup_cons.mp hnodup).1 (by simp [heq])
      unfold backwardLoop listPrev
      rw [if_neg hne, interior_ok hl (by simp), Bool.true_or, if_pos rfl, ok_bind, hprev,
        ih hseg hp (by simpa using hrounds), ok_bind, List.reverse_concat]

/-- A list is traversed in order. -/
theorem forward_linked (hl : Linked m list (listTail list) l) : forward m list = .ok l := by
  obtain ⟨q, hq⟩ := exists_behind l (listTail list)
  have hl₀ : Linked m list (listTail list) ([] ++ l) := hl
  have hfirst : m.next list = q := (hl₀.joined rfl hq).1
  unfold forward listBegin listEnd
  rw [if_neg (list_ne_zero hl), if_neg (list_ne_zero hl), ok_bind, ok_bind, hfirst]
  exact forwardLoop_spec hl₀ hq (length_lt_maxCells hl)

/-- From the back it is traversed in reverse order. -/
theorem backward_linked (hl : Linked m list (listTail list) l) :
    backward m list = .ok l.reverse := by
  obtain ⟨p, hp⟩ := exists_before list l
  have hl₀ : Linked m list (listTail list) (l ++ []) := by rwa [List.append_nil]
  have hlast : m.prev (listTail list) = p := (hl₀.joined hp rfl).2
  unfold backward listRbegin listRend
  rw [if_neg (list_ne_zero hl), if_neg (list_ne_zero hl), ok_bind, ok_bind, hlast]
  exact backwardLoop_spec hl₀ hp (length_lt_maxCells hl)

end OsTools.Kernel

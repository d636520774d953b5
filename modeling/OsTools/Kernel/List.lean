import OsTools.Kernel.Bitmap
import OsTools.Lib.DList
/-!
# OsTools.Kernel.List

The doubly linked lists of `lib/kernel/list.c`, over byte memory. A `struct
list_elem` is a cell of `OsTools.Lib.DList`; a `struct list` at the address `list`
is its head at `list` and its tail at `list + 8`. Null is the address 0.

`Holds m list F` says that the list at `list` is in order and that its elements are
those that satisfy `F`. Every operation has one lemma in these terms.

## Proof shape

`OsTools.Lib.DList` has the links of a segment of cells; here a list is the segment between
its two sentinels. A place in a list is a cell with one before it (`exists_before`,
`exists_behind`), and inserting and removing are the two changes of the links around a
place. The assertions of the source (`is_interior`, `is_tail`) are about null links, which
`interior_ok` and `place_ok` answer.
-/

namespace OsTools.Kernel

open Mem

/-- `is_interior`. -/
def isInterior (m : Mem) (elem : Nat) : Bool := elem ≠ 0 ∧ m.prev elem ≠ 0 ∧ m.next elem ≠ 0

/-- `is_tail`. -/
def isTail (m : Mem) (elem : Nat) : Bool := elem ≠ 0 ∧ m.prev elem ≠ 0 ∧ m.next elem = 0

/-- `&list->tail`. -/
def listTail (list : Nat) : Nat := list + 8

/-- `list_init`. -/
def listInit (m : Mem) (list : Nat) : Except Stop Mem :=
  if list = 0 then .error .assertion
  else
    let m := m.setPrev list 0
    let m := m.setNext list (listTail list)
    let m := m.setPrev (listTail list) list
    .ok (m.setNext (listTail list) 0)

/-- `list_begin`. -/
def listBegin (m : Mem) (list : Nat) : Except Stop Nat :=
  if list = 0 then .error .assertion else .ok (m.next list)

/-- `list_end`. -/
def listEnd (list : Nat) : Except Stop Nat :=
  if list = 0 then .error .assertion else .ok (listTail list)

/-- `list_insert`. -/
def listInsert (m : Mem) (before elem : Nat) : Except Stop Mem :=
  if isInterior m before || isTail m before then
    if elem = 0 then .error .assertion
    else
      let m := m.setPrev elem (m.prev before)
      let m := m.setNext elem before
      let m := m.setNext (m.prev before) elem
      .ok (m.setPrev before elem)
  else .error .assertion

/-- `list_push_front`. -/
def listPushFront (m : Mem) (list elem : Nat) : Except Stop Mem := do
  let before ← listBegin m list
  listInsert m before elem

/-- `list_push_back`. -/
def listPushBack (m : Mem) (list elem : Nat) : Except Stop Mem := do
  let before ← listEnd list
  listInsert m before elem

/-- `list_remove`. -/
def listRemove (m : Mem) (elem : Nat) : Except Stop (Mem × Nat) :=
  if isInterior m elem then
    let m := m.setNext (m.prev elem) (m.next elem)
    let m := m.setPrev (m.next elem) (m.prev elem)
    .ok (m, m.next elem)
  else .error .assertion

/-- `list_empty`. -/
def listEmpty (m : Mem) (list : Nat) : Except Stop Bool := do
  let first ← listBegin m list
  let last ← listEnd list
  .ok (first = last)

/-- `list_front`. -/
def listFront (m : Mem) (list : Nat) : Except Stop Nat := do
  if ← listEmpty m list then .error .assertion else .ok (m.next list)

/-- `list_pop_front`. -/
def listPopFront (m : Mem) (list : Nat) : Except Stop (Mem × Nat) := do
  let front ← listFront m list
  let (m, _) ← listRemove m front
  .ok (m, front)

/-! ### The elements of a list -/

/-- The list at `list` is in order and its elements are those that satisfy `F`. -/
def Holds (m : Mem) (list : Nat) (F : Nat → Prop) : Prop :=
  ∃ l, Linked m list (listTail list) l ∧ ∀ e, e ∈ l ↔ F e

/-- The bytes of a list and of its elements. -/
def ListBytes (list : Nat) (F : Nat → Prop) (x : Nat) : Prop :=
  (list ≤ x ∧ x < list + 16) ∨ ∃ e, F e ∧ e ≤ x ∧ x < e + 8

/-- `e` lies apart from the list and its elements. -/
def ApartFrom (list : Nat) (F : Nat → Prop) (e : Nat) : Prop :=
  CellsApart e list ∧ CellsApart e (listTail list) ∧ ∀ x, F x → CellsApart e x

variable {m m' : Mem} {list e : Nat} {l l₁ l₂ s : List Nat} {F G : Nat → Prop}

theorem Holds.congr (h : Holds m list F) (hFG : ∀ e, F e ↔ G e) : Holds m list G := by
  obtain ⟨l, hl, hmem⟩ := h
  exact ⟨l, hl, fun e => (hmem e).trans (hFG e)⟩

theorem listBytes_of_inCells (hF : ∀ e ∈ l, F e) {x : Nat}
    (hx : InCells (list :: l ++ [listTail list]) x) : ListBytes list F x := by
  obtain ⟨c, hc, hlo, hhi⟩ := hx
  unfold listTail at hc
  rcases List.mem_append.mp hc with hc | hc
  · rcases List.mem_cons.mp hc with rfl | hc
    · exact Or.inl ⟨hlo, by omega⟩
    · exact Or.inr ⟨c, hF c hc, hlo, hhi⟩
  · rw [List.mem_singleton.mp hc] at hlo hhi
    exact Or.inl ⟨by omega, by omega⟩

/-- A change outside the list and its elements. -/
theorem Holds.keep (h : Holds m list F) {P : Nat → Prop} (hm : m.SameBut m' P)
    (hP : ∀ x, ListBytes list F x → ¬ P x) : Holds m' list F := by
  obtain ⟨l, hl, hmem⟩ := h
  refine ⟨l, hl.keep hm fun c hc i hi => hP _ ?_, hmem⟩
  exact listBytes_of_inCells (fun e he => (hmem e).mp he) ⟨c, hc, by omega, by omega⟩

/-! ### Places in a list -/

/-- The cell before a place. -/
theorem exists_before (list : Nat) (l : List Nat) : ∃ p, p ∈ (list :: l).getLast? :=
  ⟨_, List.getLast?_eq_getLast_of_ne_nil (List.cons_ne_nil list l)⟩

/-- The cell behind it. -/
theorem exists_behind (l : List Nat) (t : Nat) : ∃ q, q ∈ (l ++ [t]).head? := by
  cases l with
  | nil => exact ⟨t, rfl⟩
  | cons q l => exact ⟨q, rfl⟩

/-- Every cell behind a place is an element or the tail. -/
theorem place_ok {t q : Nat} (hl : Linked m list t (l₁ ++ l₂)) (hq : q ∈ (l₂ ++ [t]).head?) :
    (isInterior m q || isTail m q) = true := by
  obtain ⟨p, hp⟩ := exists_before list l₁
  have hprev := (hl.joined hp hq).2
  have hp₀ := (hl.bound p (Linked.mem_before _ _ hp)).1
  have hq₀ := (hl.bound q (Linked.mem_behind _ _ hq)).1
  unfold isInterior isTail
  rw [Bool.or_eq_true, decide_eq_true_iff, decide_eq_true_iff, hprev]
  by_cases h : m.next q = 0
  · exact Or.inr ⟨by omega, by omega, h⟩
  · exact Or.inl ⟨by omega, by omega, h⟩

/-- The cells around the first and the last element of a segment. -/
theorem joined_segment {t first last p q : Nat} (hl : Linked m list t (l₁ ++ (s ++ l₂)))
    (hp : p ∈ (list :: l₁).getLast?) (hf : first ∈ s.head?) (hz : last ∈ s.getLast?)
    (hq : q ∈ (l₂ ++ [t]).head?) : Joined m p first ∧ Joined m last q := by
  have hs : s ≠ [] := List.ne_nil_of_mem (List.mem_of_head? hf)
  constructor
  · refine hl.joined hp ?_
    rwa [List.append_assoc, List.head?_append_of_ne_nil _ hs]
  · rw [← List.append_assoc] at hl
    refine hl.joined ?_ hq
    rwa [← List.cons_append, List.getLast?_append_of_ne_nil _ hs]

/-- The cells around one element. -/
theorem joined_elem {t p q : Nat} (hl : Linked m list t (l₁ ++ ([e] ++ l₂)))
    (hp : p ∈ (list :: l₁).getLast?) (hq : q ∈ (l₂ ++ [t]).head?) :
    m.prev e = p ∧ m.next e = q := by
  have hfirst : e ∈ [e].head? := rfl
  have hlast : e ∈ [e].getLast? := rfl
  obtain ⟨⟨-, hprev⟩, hnext, -⟩ := joined_segment hl hp hfirst hlast hq
  exact ⟨hprev, hnext⟩

/-- Every element lies between two cells. -/
theorem interior_ok {t : Nat} (hl : Linked m list t l) (he : e ∈ l) : isInterior m e = true := by
  obtain ⟨l₁, l₂, rfl⟩ := List.append_of_mem he
  obtain ⟨p, hp⟩ := exists_before list l₁
  obtain ⟨q, hq⟩ := exists_behind l₂ t
  have hseg : Linked m list t (l₁ ++ ([e] ++ l₂)) := hl
  obtain ⟨hprev, hnext⟩ := joined_elem hseg hp hq
  have hq' := Linked.mem_behind list (l₁ ++ [e]) hq
  rw [List.append_assoc] at hq'
  have h₁ := (hl.bound p (Linked.mem_before _ _ hp)).1
  have h₂ := (hl.bound q hq').1
  have h₃ := (hl.bound e (by simp)).1
  unfold isInterior
  rw [decide_eq_true_iff, hprev, hnext]
  omega

theorem list_ne_zero {t : Nat} (hl : Linked m list t l) : list ≠ 0 := by
  have := (hl.bound list List.mem_cons_self).1
  omega

/-! ### The operations -/

/-- `list_init`. -/
theorem listInit_spec (hlo : 0 < list) (hhi : list + 16 ≤ 2 ^ 32) :
    ∃ m', listInit m list = .ok m' ∧ Holds m' list (fun _ => False) ∧
      m.SameBut m' (ListBytes list fun _ => False) := by
  have happ : CellsApart list (listTail list) := Or.inl (Nat.le_refl _)
  have happ' : CellsApart (listTail list) list := Or.inr (Nat.le_refl _)
  have hsub : ∀ x, x = list ∨ x = listTail list → ∀ y, InCells [x] y →
      ListBytes list (fun _ => False) y := by
    intro x hx y hy
    refine listBytes_of_inCells (l := []) (fun e he => absurd he List.not_mem_nil) ?_
    obtain ⟨c, hc, hy⟩ := hy
    rw [List.mem_singleton.mp hc] at hy
    refine ⟨x, ?_, hy⟩
    rcases hx with rfl | rfl <;> simp
  unfold listInit
  rw [if_neg (by omega)]
  refine ⟨_, rfl, ⟨[], ⟨⟨?_, ?_, trivial⟩, ?_, ?_, ?_, fun x hx => ?_⟩, fun e => ?_⟩, ?_⟩
  · rw [next_setNext happ', next_setPrev (Or.inr happ'), next_setNext_self]
    unfold listTail
    omega
  · rw [prev_setNext (Or.inl rfl), prev_setPrev_self (by omega)]
  · rw [prev_setNext (Or.inr happ'), prev_setPrev happ', prev_setNext (Or.inl rfl),
      prev_setPrev_self (by omega)]
  · rw [next_setNext_self (by omega)]
  · simpa using happ
  · unfold listTail at hx
    simp only [List.cons_append, List.nil_append, List.mem_cons, List.not_mem_nil, or_false] at hx
    omega
  · simp
  · exact ((((SameBut.setPrev m _ _).mono (hsub _ (Or.inl rfl))).trans
      ((SameBut.setNext _ _ _).mono (hsub _ (Or.inl rfl)))).trans
      ((SameBut.setPrev _ _ _).mono (hsub _ (Or.inr rfl)))).trans
      ((SameBut.setNext _ _ _).mono (hsub _ (Or.inr rfl)))

/-- `list_insert` before the cell `q`. -/
theorem listInsert_linked {t q : Nat} (hl : Linked m list t (l₁ ++ l₂))
    (hq : q ∈ (l₂ ++ [t]).head?) (hcells : Cells (list :: (l₁ ++ ([e] ++ l₂)) ++ [t])) :
    ∃ m', listInsert m q e = .ok m' ∧ Linked m' list t (l₁ ++ ([e] ++ l₂)) ∧
      m.SameBut m' (InCells (list :: (l₁ ++ ([e] ++ l₂)) ++ [t])) := by
  obtain ⟨p, hp⟩ := exists_before list l₁
  have hprev := (hl.joined hp hq).2
  have he : e ∈ list :: (l₁ ++ ([e] ++ l₂)) ++ [t] := by simp
  have hq' : q ∈ list :: (l₁ ++ ([e] ++ l₂)) ++ [t] := by
    have := Linked.mem_behind list (l₁ ++ [e]) hq
    rwa [List.append_assoc] at this
  have hne : e ≠ q := by
    have hnodup := hcells.nodup
    have hshape : list :: (l₁ ++ ([e] ++ l₂)) ++ [t] = (list :: l₁ ++ [e]) ++ (l₂ ++ [t]) := by simp
    rw [hshape] at hnodup
    exact (List.nodup_append.mp hnodup).2.2 e (by simp) q (List.mem_of_head? hq)
  have hapart := hcells.cellsApart he hq' hne
  have hread : ((m.setPrev e p).setNext e q).prev q = p := by
    rw [prev_setNext (Or.inr hapart), prev_setPrev hapart, hprev]
  have hzero : e ≠ 0 := by
    have := (hcells.bound e he).1
    omega
  unfold listInsert
  rw [if_pos (place_ok hl hq), if_neg hzero]
  refine ⟨_, rfl, ?_⟩
  rw [hprev, hread]
  exact hl.paste (m := m) (s := [e]) trivial hcells hp rfl rfl hq

/-- `list_remove`. -/
theorem listRemove_linked {t : Nat} (hl : Linked m list t (l₁ ++ ([e] ++ l₂))) :
    ∃ m' q, listRemove m e = .ok (m', q) ∧ q ∈ (l₂ ++ [t]).head? ∧
      Linked m' list t (l₁ ++ l₂) ∧ m.SameBut m' (InCells (list :: (l₁ ++ l₂) ++ [t])) := by
  obtain ⟨p, hp⟩ := exists_before list l₁
  obtain ⟨q, hq⟩ := exists_behind l₂ t
  obtain ⟨hprev, hnext⟩ := joined_elem hl hp hq
  obtain ⟨hl', -, hsame⟩ := hl.cut hp hq
  have he : e ∈ list :: (l₁ ++ ([e] ++ l₂)) ++ [t] := by simp
  have hp' := Linked.mem_before ([e] ++ l₂) t hp
  have hne : p ≠ e := by
    have hnodup := hl.nodup
    rw [← List.cons_append, List.append_assoc] at hnodup
    exact (List.nodup_append.mp hnodup).2.2 p (List.mem_of_getLast? hp) e (by simp)
  have hapart := hl.cells.cellsApart hp' he hne
  refine ⟨_, q, ?_, hq, hl', hsame⟩
  unfold listRemove
  rw [if_pos (interior_ok hl (by simp))]
  dsimp only
  have hread : (m.setNext p q).prev e = p := by rw [prev_setNext (Or.inr hapart), hprev]
  have hread' : (m.setNext p q).next e = q := by rw [next_setNext hapart, hnext]
  have hlast : ((m.setNext p q).setPrev q p).next e = q := by
    have hq' := Linked.mem_behind list (l₁ ++ [e]) hq
    rw [List.append_assoc] at hq'
    rw [next_setPrev (hl.cells.eq_or_apart hq' he), hread']
  rw [hprev, hnext, hread, hread', hlast]
  rfl

/-- The cells of a list with another segment in it. -/
theorem cells_paste {t : Nat} (hl : Linked m list t (l₁ ++ l₂)) (hs : Cells s)
    (hapart : ∀ e ∈ s, ∀ x ∈ list :: (l₁ ++ l₂) ++ [t], CellsApart e x) :
    Cells (list :: (l₁ ++ (s ++ l₂)) ++ [t]) := by
  refine (hs.append hl.cells hapart).perm ?_
  have hshape : list :: (l₁ ++ (s ++ l₂)) ++ [t] = (list :: l₁) ++ (s ++ (l₂ ++ [t])) := by simp
  have hshape' : s ++ (list :: (l₁ ++ l₂) ++ [t]) = s ++ ((list :: l₁) ++ (l₂ ++ [t])) := by simp
  rw [hshape, hshape']
  exact List.perm_append_comm_assoc _ _ _

/-- The cells of a list with another element in it. -/
theorem cells_insert {t : Nat} (hl : Linked m list t (l₁ ++ l₂))
    (he : ∀ x ∈ list :: (l₁ ++ l₂) ++ [t], CellsApart e x) (hbound : 0 < e ∧ e + 8 ≤ 2 ^ 32) :
    Cells (list :: (l₁ ++ ([e] ++ l₂)) ++ [t]) := by
  refine cells_paste hl ⟨List.pairwise_singleton _ e, fun x hx => ?_⟩ fun x hx => ?_
  · rw [List.mem_singleton.mp hx]
    exact hbound
  · rw [List.mem_singleton.mp hx]
    exact he

theorem cells_push {t : Nat} (hl : Linked m list t l) (he : ∀ x ∈ list :: l ++ [t], CellsApart e x)
    (hbound : 0 < e ∧ e + 8 ≤ 2 ^ 32) : Cells (list :: (l ++ [e]) ++ [t]) := by
  have hl₀ : Linked m list t (l ++ []) := by rwa [List.append_nil]
  have hcells := cells_insert (e := e) hl₀ (by rwa [List.append_nil]) hbound
  rwa [List.append_nil] at hcells

theorem apart_of_apartFrom (h : ApartFrom list F e) (hF : ∀ x ∈ l, F x) :
    ∀ x ∈ list :: l ++ [listTail list], CellsApart e x := by
  intro x hx
  rcases List.mem_append.mp hx with hx | hx
  · rcases List.mem_cons.mp hx with rfl | hx
    · exact h.1
    · exact h.2.2 x (hF x hx)
  · rw [List.mem_singleton.mp hx]
    exact h.2.1

/-- `list_push_front`. -/
theorem listPushFront_linked (hl : Linked m list (listTail list) l)
    (hcells : Cells (list :: ([e] ++ l) ++ [listTail list])) :
    ∃ m', listPushFront m list e = .ok m' ∧ Linked m' list (listTail list) (e :: l) ∧
      m.SameBut m' (InCells (list :: e :: l ++ [listTail list])) := by
  obtain ⟨q, hq⟩ := exists_behind l (listTail list)
  have hl₀ : Linked m list (listTail list) ([] ++ l) := hl
  obtain ⟨m', hins, hl', hsame⟩ := listInsert_linked (e := e) hl₀ hq hcells
  refine ⟨m', ?_, hl', hsame⟩
  unfold listPushFront listBegin
  have hfirst : m.next list = q := (hl₀.joined rfl hq).1
  rw [if_neg (list_ne_zero hl), ok_bind, hfirst]
  exact hins

/-- `list_push_back`. -/
theorem listPushBack_linked (hl : Linked m list (listTail list) l)
    (hcells : Cells (list :: (l ++ [e]) ++ [listTail list])) :
    ∃ m', listPushBack m list e = .ok m' ∧ Linked m' list (listTail list) (l ++ [e]) ∧
      m.SameBut m' (InCells (list :: (l ++ [e]) ++ [listTail list])) := by
  have hl₀ : Linked m list (listTail list) (l ++ []) := by rwa [List.append_nil]
  obtain ⟨m', hins, hl', hsame⟩ := listInsert_linked (e := e) (q := listTail list) hl₀ rfl
    (by rwa [List.append_nil])
  rw [List.append_nil] at hl' hsame
  refine ⟨m', ?_, hl', hsame⟩
  unfold listPushBack listEnd
  rw [if_neg (list_ne_zero hl), ok_bind]
  exact hins

/-- `list_push_front`. -/
theorem listPushFront_spec (h : Holds m list F) (he : ApartFrom list F e)
    (hbound : 0 < e ∧ e + 8 ≤ 2 ^ 32) :
    ∃ m', listPushFront m list e = .ok m' ∧ Holds m' list (fun x => F x ∨ x = e) ∧
      m.SameBut m' (ListBytes list fun x => F x ∨ x = e) := by
  obtain ⟨l, hl, hmem⟩ := h
  have hmem' : ∀ x, x ∈ e :: l ↔ F x ∨ x = e := by
    intro x
    rw [List.mem_cons, hmem]
    exact Or.comm
  have hl₀ : Linked m list (listTail list) ([] ++ l) := hl
  obtain ⟨m', hpush, hl', hsame⟩ := listPushFront_linked hl (cells_insert hl₀
    (apart_of_apartFrom he fun x hx => (hmem x).mp hx) hbound)
  exact ⟨m', hpush, ⟨e :: l, hl', hmem'⟩, hsame.mono fun x hx =>
    listBytes_of_inCells (fun y hy => (hmem' y).mp hy) hx⟩

/-- `list_push_back`. -/
theorem listPushBack_spec (h : Holds m list F) (he : ApartFrom list F e)
    (hbound : 0 < e ∧ e + 8 ≤ 2 ^ 32) :
    ∃ m', listPushBack m list e = .ok m' ∧ Holds m' list (fun x => F x ∨ x = e) ∧
      m.SameBut m' (ListBytes list fun x => F x ∨ x = e) := by
  obtain ⟨l, hl, hmem⟩ := h
  have hmem' : ∀ x, x ∈ l ++ [e] ↔ F x ∨ x = e := by
    intro x
    rw [List.mem_append, hmem, List.mem_singleton]
  obtain ⟨m', hpush, hl', hsame⟩ := listPushBack_linked hl (cells_push hl
    (apart_of_apartFrom he fun x hx => (hmem x).mp hx) hbound)
  exact ⟨m', hpush, ⟨l ++ [e], hl', hmem'⟩, hsame.mono fun x hx =>
    listBytes_of_inCells (fun y hy => (hmem' y).mp hy) hx⟩

/-- `list_remove`. -/
theorem listRemove_spec (h : Holds m list F) (he : F e) :
    ∃ m' r, listRemove m e = .ok (m', r) ∧ Holds m' list (fun x => F x ∧ x ≠ e) ∧
      m.SameBut m' (ListBytes list F) := by
  obtain ⟨l, hl, hmem⟩ := h
  obtain ⟨l₁, l₂, rfl⟩ := List.append_of_mem ((hmem e).mpr he)
  obtain ⟨m', q, hrem, -, hl', hsame⟩ := listRemove_linked (e := e) hl
  have hnodup : (l₁ ++ e :: l₂).Nodup := by
    have := (List.nodup_append.mp hl.nodup).1
    exact (List.nodup_cons.mp this).2
  have hnot : e ∉ l₁ ++ l₂ := (List.nodup_cons.mp (List.nodup_middle.mp hnodup)).1
  have hmem' : ∀ x, x ∈ l₁ ++ l₂ ↔ F x ∧ x ≠ e := by
    intro x
    rw [← hmem]
    constructor
    · intro hx
      refine ⟨?_, fun heq => hnot (heq ▸ hx)⟩
      simp only [List.mem_append, List.mem_cons] at hx ⊢
      exact hx.imp_right Or.inr
    · rintro ⟨hx, hne⟩
      simp only [List.mem_append, List.mem_cons] at hx ⊢
      exact hx.imp_right fun hx => hx.resolve_left hne
  exact ⟨m', q, hrem, ⟨l₁ ++ l₂, hl', hmem'⟩, hsame.mono fun x hx =>
    listBytes_of_inCells (fun y hy => ((hmem' y).mp hy).1) hx⟩

/-- `list_empty`. -/
theorem listEmpty_spec (h : Holds m list F) :
    ∃ r, listEmpty m list = .ok r ∧ (r = true ↔ ∀ e, ¬ F e) := by
  obtain ⟨l, hl, hmem⟩ := h
  have hne : list ≠ 0 := by
    have := (hl.bound list List.mem_cons_self).1
    omega
  unfold listEmpty listBegin listEnd
  rw [if_neg hne, if_neg hne, ok_bind, ok_bind]
  refine ⟨_, rfl, ?_⟩
  rw [decide_eq_true_iff]
  cases l with
  | nil => exact ⟨fun _ e he => List.not_mem_nil ((hmem e).mpr he), fun _ => hl.links.1⟩
  | cons e l =>
      refine ⟨fun heq => ?_, fun hno => absurd ((hmem e).mp List.mem_cons_self) (hno e)⟩
      have hnext : m.next list = e := hl.links.1
      have hnodup := (List.nodup_cons.mp hl.nodup).2
      refine absurd ?_ ((List.nodup_append.mp hnodup).2.2 e List.mem_cons_self (listTail list)
        (List.mem_singleton_self _))
      exact hnext.symm.trans heq

/-- `list_pop_front`. -/
theorem listPopFront_spec (h : Holds m list F) (hne : ∃ e, F e) :
    ∃ m' e, listPopFront m list = .ok (m', e) ∧ F e ∧ Holds m' list (fun x => F x ∧ x ≠ e) ∧
      m.SameBut m' (ListBytes list F) := by
  obtain ⟨empty, hempty, hiff⟩ := listEmpty_spec h
  have hfalse : empty = false := by
    cases empty with
    | false => rfl
    | true =>
        obtain ⟨e, he⟩ := hne
        exact absurd he (hiff.mp rfl e)
  have hfirst : F (m.next list) := by
    obtain ⟨l, hl, hmem⟩ := h
    cases l with
    | nil =>
        obtain ⟨e, he⟩ := hne
        exact absurd ((hmem e).mpr he) List.not_mem_nil
    | cons e l =>
        rw [show m.next list = e from hl.links.1]
        exact (hmem e).mp List.mem_cons_self
  obtain ⟨m', r, hrem, hholds, hsame⟩ := listRemove_spec h hfirst
  refine ⟨m', m.next list, ?_, hfirst, hholds, hsame⟩
  unfold listPopFront listFront
  rw [hempty, hfalse, ok_bind]
  show (Except.ok (m.next list) >>= _) = _
  rw [ok_bind, hrem]
  rfl

end OsTools.Kernel

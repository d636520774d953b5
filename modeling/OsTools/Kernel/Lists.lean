import Mathlib.Logic.Function.Basic
import OsTools.Kernel.ListOps
/-!
# OsTools.Kernel.Lists

All the lists in a memory at once. `Lists` says what elements each of them has, and
`Effect` what an operation on lists does to the sequences. `Represents` ties the two
levels together: the lists are in order in memory and no two of them share a byte.

A run of the operations of `lib/kernel/list.c` keeps to the run of the operations on
sequences (`lists_run_refines`). An operation may need a new element; it may be any
cell apart from all the lists, one that has been taken out of a list before included.

## Proof shape

Every operation replaces the contents of one list, or of two in a splice between lists.
`Represents.put` is the frame rule for that: what is written are cells of the list, old or
new ones, and they are apart from the other lists. `effect_refines` has one case for each
constructor of `Effect`, with the lemma of `Kernel.List` or `Kernel.ListOps` for it, and the
run is an induction over the operations.
-/

namespace OsTools.Kernel

open Mem

/-- The lists that there are, each with its elements. -/
abbrev Lists := Nat → Option (List Nat)

/-- The cells of the list at `list`, its sentinels included. -/
def cellsOf (list : Nat) (l : List Nat) : List Nat := list :: l ++ [listTail list]

namespace Lists

/-- The lists after the one at `list` has got the elements `l`. -/
def put (w : Lists) (list : Nat) (l : List Nat) : Lists := Function.update w list (some l)

/-- A cell apart from every list. -/
def Fresh (w : Lists) (e : Nat) : Prop :=
  (0 < e ∧ e + 8 ≤ 2 ^ 32) ∧ ∀ a l, w a = some l → ∀ x ∈ cellsOf a l, CellsApart e x

theorem put_self (w : Lists) (list : Nat) (l : List Nat) : w.put list l list = some l := by
  unfold put
  rw [Function.update_self]

theorem put_of_ne (w : Lists) {list a : Nat} (l : List Nat) (h : a ≠ list) :
    w.put list l a = w a := by
  unfold put
  rw [Function.update_of_ne h]

theorem Fresh.put {w : Lists} {e a : Nat} {l : List Nat} (h : w.Fresh e)
    (hl : ∀ x ∈ cellsOf a l, CellsApart e x) : (w.put a l).Fresh e := by
  refine ⟨h.1, fun b k hb => ?_⟩
  by_cases hba : b = a
  · rw [hba, put_self] at hb
    rw [hba, ← Option.some.inj hb]
    exact hl
  · rw [put_of_ne w l hba] at hb
    exact h.2 b k hb

/-- Where there are no lists, every cell is fresh. -/
theorem fresh_none {e : Nat} (he : 0 < e ∧ e + 8 ≤ 2 ^ 32) : Fresh (fun _ => none) e :=
  ⟨he, fun _ _ h => absurd h (by simp)⟩

theorem put_put (w : Lists) (list : Nat) (l l' : List Nat) :
    (w.put list l).put list l' = w.put list l' := Function.update_idem _ _ _

theorem put_same {w : Lists} {list : Nat} {l : List Nat} (h : w list = some l) :
    w.put list l = w := by
  unfold put
  rw [← h, Function.update_eq_self]

end Lists

/-- The operations on lists. -/
inductive ListOp
  | init (list : Nat)
  | insert (before elem : Nat)
  | pushFront (list elem : Nat)
  | pushBack (list elem : Nat)
  | remove (elem : Nat)
  | popFront (list : Nat)
  | popBack (list : Nat)
  | splice (before first last : Nat)
  | reverse (list : Nat)

/-- A call, with what it returns. -/
def ListOp.exec (m : Mem) : ListOp → Except Stop (Mem × Option Nat)
  | .init list => do .ok (← listInit m list, none)
  | .insert before elem => do .ok (← listInsert m before elem, none)
  | .pushFront list elem => do .ok (← listPushFront m list elem, none)
  | .pushBack list elem => do .ok (← listPushBack m list elem, none)
  | .remove elem => do
      let (m, next) ← listRemove m elem
      .ok (m, some next)
  | .popFront list => do
      let (m, front) ← listPopFront m list
      .ok (m, some front)
  | .popBack list => do
      let (m, back) ← listPopBack m list
      .ok (m, some back)
  | .splice before first last => do .ok (← listSplice m before first last, none)
  | .reverse list => do .ok (← listReverse m list, none)

/-- A run of calls, with what they return. -/
def execAll (m : Mem) : List ListOp → Except Stop (Mem × List (Option Nat))
  | [] => .ok (m, [])
  | op :: ops => do
      let (m, r) ← op.exec m
      let (m, rs) ← execAll m ops
      .ok (m, r :: rs)

/-- What an operation does to the sequences of elements, what it returns, and the lists
that it involves. A splice takes the segment `s` out of the list at `a`; its target
is a place in what is left, in that list or another one. -/
inductive Effect (w : Lists) : ListOp → Lists → Option Nat → List Nat → Prop
  | init {a : Nat} (hhead : w.Fresh a) (htail : w.Fresh (listTail a)) :
      Effect w (.init a) (w.put a []) none [a]
  | insert {a e before : Nat} {l₁ l₂ : List Nat} (ha : w a = some (l₁ ++ l₂))
      (hbefore : before ∈ (l₂ ++ [listTail a]).head?) (he : w.Fresh e) :
      Effect w (.insert before e) (w.put a (l₁ ++ ([e] ++ l₂))) none [a]
  | pushFront {a e : Nat} {l : List Nat} (ha : w a = some l) (he : w.Fresh e) :
      Effect w (.pushFront a e) (w.put a (e :: l)) none [a]
  | pushBack {a e : Nat} {l : List Nat} (ha : w a = some l) (he : w.Fresh e) :
      Effect w (.pushBack a e) (w.put a (l ++ [e])) none [a]
  | remove {a e next : Nat} {l₁ l₂ : List Nat} (ha : w a = some (l₁ ++ ([e] ++ l₂)))
      (hnext : next ∈ (l₂ ++ [listTail a]).head?) :
      Effect w (.remove e) (w.put a (l₁ ++ l₂)) (some next) [a]
  | popFront {a e : Nat} {l : List Nat} (ha : w a = some (e :: l)) :
      Effect w (.popFront a) (w.put a l) (some e) [a]
  | popBack {a e : Nat} {l : List Nat} (ha : w a = some (l ++ [e])) :
      Effect w (.popBack a) (w.put a l) (some e) [a]
  | splice {a b before first last : Nat} {l₁ s l₂ k₁ k₂ : List Nat}
      (ha : w a = some (l₁ ++ (s ++ l₂)))
      (hfirst : first ∈ (s ++ (l₂ ++ [listTail a])).head?)
      (hlast : last ∈ (l₂ ++ [listTail a]).head?)
      (hb : w.put a (l₁ ++ l₂) b = some (k₁ ++ k₂))
      (hbefore : before ∈ (k₂ ++ [listTail b]).head?) :
      Effect w (.splice before first last) ((w.put a (l₁ ++ l₂)).put b (k₁ ++ (s ++ k₂)))
        none [a, b]
  | reverse {a : Nat} {l : List Nat} (ha : w a = some l) :
      Effect w (.reverse a) (w.put a l.reverse) none [a]

/-- A run of operations on the sequences. -/
inductive Effects : Lists → List ListOp → Lists → List (Option Nat) → List Nat → Prop
  | nil (w : Lists) : Effects w [] w [] []
  | cons {w w₁ w' : Lists} {op : ListOp} {ops : List ListOp} {r : Option Nat}
      {rs : List (Option Nat)} {involved others : List Nat} (hop : Effect w op w₁ r involved)
      (hops : Effects w₁ ops w' rs others) :
      Effects w (op :: ops) w' (r :: rs) (involved ++ others)

/-- The lists `w` are in order in memory, apart from each other. -/
structure Represents (m : Mem) (w : Lists) : Prop where
  linked : ∀ a l, w a = some l → Linked m a (listTail a) l
  apart : ∀ a l b k, w a = some l → w b = some k → a ≠ b →
    ∀ x ∈ cellsOf a l, ∀ y ∈ cellsOf b k, CellsApart x y

/-- The lists that are not involved are the same, links and all. -/
def Untouched (m m' : Mem) (w w' : Lists) (involved : List Nat) : Prop :=
  ∀ a l, w a = some l → a ∉ involved →
    w' a = some l ∧ ∀ x ∈ cellsOf a l, m'.next x = m.next x ∧ m'.prev x = m.prev x

variable {m m₁ m' : Mem} {w w₁ w' : Lists} {a e : Nat} {l l' : List Nat}

theorem Untouched.refl (m : Mem) (w : Lists) (involved : List Nat) :
    Untouched m m w w involved := fun _ _ ha _ => ⟨ha, fun _ _ => ⟨rfl, rfl⟩⟩

theorem Untouched.trans {involved others : List Nat} (h₁ : Untouched m m₁ w w₁ involved)
    (h₂ : Untouched m₁ m' w₁ w' others) : Untouched m m' w w' (involved ++ others) := by
  intro a l ha hnot
  rw [List.mem_append, not_or] at hnot
  obtain ⟨ha₁, hlinks₁⟩ := h₁ a l ha hnot.1
  obtain ⟨ha', hlinks'⟩ := h₂ a l ha₁ hnot.2
  refine ⟨ha', fun x hx => ⟨?_, ?_⟩⟩
  · rw [(hlinks' x hx).1, (hlinks₁ x hx).1]
  · rw [(hlinks' x hx).2, (hlinks₁ x hx).2]

theorem Untouched.mono {involved others : List Nat} (h : Untouched m m' w w' involved)
    (hsub : involved ⊆ others) : Untouched m m' w w' others :=
  fun a l ha hnot => h a l ha fun hmem => hnot (hsub hmem)

/-- One list is replaced, by writes to its new cells. They are apart from the other
lists. -/
theorem Represents.put (h : Represents m w) (hl : Linked m' a (listTail a) l')
    (hsame : m.SameBut m' (InCells (cellsOf a l')))
    (hapart : ∀ x ∈ cellsOf a l', ∀ b k, w b = some k → b ≠ a →
      ∀ y ∈ cellsOf b k, CellsApart x y) :
    Represents m' (w.put a l') ∧ Untouched m m' w (w.put a l') [a] := by
  have houtside : ∀ b k, w b = some k → b ≠ a → ∀ y ∈ cellsOf b k, ∀ i, i < 8 →
      ¬ InCells (cellsOf a l') (y + i) := by
    intro b k hb hne y hy i hi hin
    obtain ⟨x, hx, hlo, hhi⟩ := hin
    have := hapart x hx b k hb hne y hy
    unfold CellsApart at this
    omega
  refine ⟨⟨fun b k hb => ?_, fun b k c j hb hc hne x hx y hy => ?_⟩, fun b k hb hnot => ?_⟩
  · by_cases hba : b = a
    · subst hba
      rw [Lists.put_self] at hb
      cases hb
      exact hl
    · rw [Lists.put_of_ne w l' hba] at hb
      exact (h.linked b k hb).keep hsame (houtside b k hb hba)
  · by_cases hba : b = a
    · subst hba
      rw [Lists.put_self] at hb
      rw [Lists.put_of_ne w l' hne.symm] at hc
      cases hb
      exact hapart x hx c j hc hne.symm y hy
    · rw [Lists.put_of_ne w l' hba] at hb
      by_cases hca : c = a
      · subst hca
        rw [Lists.put_self] at hc
        cases hc
        exact Or.symm (hapart y hy b k hb hba x hx)
      · rw [Lists.put_of_ne w l' hca] at hc
        exact h.apart b k c j hb hc hne x hx y hy
  · have hba : b ≠ a := fun heq => hnot (by simp [heq])
    refine ⟨by rw [Lists.put_of_ne w l' hba, hb], fun x hx => ?_⟩
    exact ⟨hsame.next (houtside b k hb hba x hx), hsame.prev (houtside b k hb hba x hx)⟩

/-- The new cells are old ones of the list and new elements. -/
theorem Represents.put_of_cells (h : Represents m w) (ha : w a = some l)
    (hl : Linked m' a (listTail a) l') (hsame : m.SameBut m' (InCells (cellsOf a l')))
    (hcells : ∀ x ∈ cellsOf a l', x ∈ cellsOf a l ∨ w.Fresh x) :
    Represents m' (w.put a l') ∧ Untouched m m' w (w.put a l') [a] := by
  refine h.put hl hsame fun x hx b k hb hne y hy => ?_
  rcases hcells x hx with hx | hx
  · exact h.apart a l b k ha hb hne.symm x hx y hy
  · exact hx.2 b k hb y hy

theorem mem_cellsOf {x : Nat} : x ∈ cellsOf a l ↔ x = a ∨ x = listTail a ∨ x ∈ l := by
  unfold cellsOf
  simp only [List.cons_append, List.mem_cons, List.mem_append, List.not_mem_nil, or_false]
  exact or_congr_right or_comm

/-- What a call does: it returns, and the lists are those of the effect. -/
def Refines (m : Mem) (w : Lists) (op : ListOp) (w' : Lists) (r : Option Nat)
    (involved : List Nat) : Prop :=
  ∃ m', op.exec m = .ok (m', r) ∧ Represents m' w' ∧ Untouched m m' w w' involved

/-- A splice: the segment is taken out, which leaves lists in order, and then put in. Source
and destination may be the same list, and so the destination is looked at after the cut. -/
theorem splice_refines {b before first last : Nat} {l₁ s l₂ k₁ k₂ : List Nat}
    (h : Represents m w) (ha : w a = some (l₁ ++ (s ++ l₂)))
    (hfirst : first ∈ (s ++ (l₂ ++ [listTail a])).head?)
    (hlast : last ∈ (l₂ ++ [listTail a]).head?)
    (hb : w.put a (l₁ ++ l₂) b = some (k₁ ++ k₂))
    (hbefore : before ∈ (k₂ ++ [listTail b]).head?) :
    Refines m w (.splice before first last) ((w.put a (l₁ ++ l₂)).put b (k₁ ++ (s ++ k₂)))
      none [a, b] := by
  have hl := h.linked _ _ ha
  by_cases hs : s = []
  · subst hs
    obtain rfl : first = last := Option.mem_unique hfirst hlast
    rw [List.nil_append] at ha ⊢
    rw [Lists.put_same ha] at hb ⊢
    rw [Lists.put_same hb]
    have hplace := target_ok (h.linked _ _ hb)
      (by rw [List.append_assoc]; exact List.mem_append_right _ (List.mem_of_head? hbefore))
    refine ⟨m, ?_, h, Untouched.refl m w _⟩
    show (listSplice m before first first >>= _) = _
    unfold listSplice
    rw [if_pos hplace, if_pos rfl, ok_bind]
  rw [List.head?_append_of_ne_nil _ hs] at hfirst
  obtain ⟨p, hp⟩ := exists_before a l₁
  obtain ⟨z, hz⟩ : ∃ z, z ∈ s.getLast? := ⟨_, List.getLast?_eq_some_getLast hs⟩
  obtain ⟨c, hc⟩ := exists_before b k₁
  obtain ⟨hcut, hlinks, hsame⟩ := hl.cut hp hlast
  obtain ⟨hrep, huntouched⟩ := h.put_of_cells ha hcut hsame fun x hx => by
    left
    simp only [mem_cellsOf, List.mem_append] at hx ⊢
    exact hx.imp_right fun hx => hx.imp_right fun hx => hx.imp_right Or.inr
  have hdst := hrep.linked _ _ hb
  have hshape : a :: (l₁ ++ (s ++ l₂)) ++ [listTail a] =
      (a :: l₁) ++ (s ++ (l₂ ++ [listTail a])) := by simp
  have hseg : Cells s := by
    refine hl.cells.sublist ?_
    rw [hshape]
    exact (List.sublist_append_left s _).trans (List.sublist_append_right _ _)
  -- The segment is apart from all that is left.
  have hapart : ∀ x ∈ s, ∀ d j, w.put a (l₁ ++ l₂) d = some j → ∀ y ∈ cellsOf d j,
      CellsApart x y := by
    intro x hx d j hd y hy
    by_cases hda : d = a
    · subst hda
      rw [Lists.put_self] at hd
      cases hd
      have hnodup := hl.nodup
      have hcells := hl.cells
      have hshape' : cellsOf d (l₁ ++ l₂) = (d :: l₁) ++ (l₂ ++ [listTail d]) := by simp [cellsOf]
      rw [hshape] at hnodup hcells
      rw [hshape'] at hy
      obtain ⟨-, hnodup', hdis⟩ := List.nodup_append.mp hnodup
      rcases List.mem_append.mp hy with hy | hy
      · exact hcells.cellsApart (by simp [hx]) (List.mem_append_left _ hy)
          (hdis y hy x (List.mem_append_left _ hx)).symm
      · exact hcells.cellsApart (by simp [hx])
          (List.mem_append_right _ (List.mem_append_right _ hy))
          ((List.nodup_append.mp hnodup').2.2 x hx y hy)
    · rw [Lists.put_of_ne w _ hda] at hd
      exact h.apart a _ d j ha hd (Ne.symm hda) x (by simp [mem_cellsOf, hx]) y hy
  have hcells := cells_paste hdst hseg fun x hx => hapart x hx b _ hb
  obtain ⟨hpaste, hsame'⟩ := hdst.paste hlinks hcells hc hfirst hz hbefore
  obtain ⟨hrep', huntouched'⟩ := hrep.put hpaste hsame' fun x hx d j hd hne y hy => by
    rw [mem_cellsOf] at hx
    by_cases hxs : x ∈ s
    · exact hapart x hxs d j hd y hy
    · refine hrep.apart b _ d j hb hd (Ne.symm hne) x ?_ y hy
      simp only [mem_cellsOf, List.mem_append] at hx ⊢
      exact hx.imp_right fun hx => hx.imp_right fun hx =>
        hx.imp_right fun hx => hx.resolve_left hxs
  have hplace : (isInterior m before || isTail m before) = true := by
    have hbefore' : before ∈ (k₁ ++ k₂) ++ [listTail b] := by
      rw [List.append_assoc]
      exact List.mem_append_right _ (List.mem_of_head? hbefore)
    by_cases hba : b = a
    · subst hba
      rw [Lists.put_self] at hb
      rw [← Option.some.inj hb] at hbefore'
      refine target_ok hl ?_
      simp only [List.mem_append] at hbefore' ⊢
      exact hbefore'.imp_left fun hx => hx.imp_right Or.inr
    · rw [Lists.put_of_ne w _ hba] at hb
      exact target_ok (h.linked _ _ hb) hbefore'
  refine ⟨_, ?_, hrep', huntouched.trans huntouched'⟩
  show (listSplice m before first last >>= _) = _
  rw [listSplice_linked hl hp hfirst hz hlast hplace hdst hc hbefore hcells, ok_bind]

/-- `list_init` makes an empty list of two cells that belong to no list. -/
theorem init_refines (h : Represents m w) (hhead : w.Fresh a) (htail : w.Fresh (listTail a)) :
    Refines m w (.init a) (w.put a []) none [a] := by
  have hhi : a + 16 ≤ 2 ^ 32 := by
    have := htail.1.2
    unfold listTail at this
    omega
  obtain ⟨m', hcall, ⟨l, hl, hmem⟩, hsame⟩ := listInit_spec (m := m) hhead.1.1 hhi
  obtain rfl : l = [] := List.eq_nil_iff_forall_not_mem.mpr fun e he => (hmem e).mp he
  have hcells : ∀ x ∈ cellsOf a [], w.Fresh x := by
    intro x hx
    rw [mem_cellsOf] at hx
    rcases hx with rfl | rfl | hx
    · exact hhead
    · exact htail
    · exact absurd hx List.not_mem_nil
  have hsame' : m.SameBut m' (InCells (cellsOf a [])) := hsame.mono fun x hx => by
    rcases hx with hx | ⟨e, hF, -⟩
    · by_cases hlo : x < a + 8
      · exact ⟨a, mem_cellsOf.mpr (Or.inl rfl), hx.1, hlo⟩
      · refine ⟨listTail a, mem_cellsOf.mpr (Or.inr (Or.inl rfl)), ?_⟩
        unfold listTail
        omega
    · exact hF.elim
  obtain ⟨hrep, huntouched⟩ := h.put hl hsame' fun x hx b k hb _ => (hcells x hx).2 b k hb
  refine ⟨m', ?_, hrep, huntouched⟩
  show (listInit m a >>= _) = _
  rw [hcall, ok_bind]

/-- A call that replaces one list, by old cells of it and new elements. -/
theorem Represents.refines {op : ListOp} {r : Option Nat} (h : Represents m w) (ha : w a = some l)
    (hexec : op.exec m = .ok (m', r)) (hl : Linked m' a (listTail a) l')
    (hsame : m.SameBut m' (InCells (cellsOf a l')))
    (hcells : ∀ x ∈ cellsOf a l', x ∈ cellsOf a l ∨ w.Fresh x) :
    Refines m w op (w.put a l') r [a] :=
  ⟨m', hexec, h.put_of_cells ha hl hsame hcells⟩

/-- One operation. -/
theorem effect_refines {op : ListOp} {r : Option Nat} {involved : List Nat} (h : Represents m w)
    (hop : Effect w op w' r involved) : Refines m w op w' r involved := by
  cases hop with
  | init hhead htail => exact init_refines h hhead htail
  | insert ha hbefore he =>
      have hl := h.linked _ _ ha
      obtain ⟨m', hcall, hl', hsame⟩ := listInsert_linked hl hbefore
        (cells_insert hl (he.2 _ _ ha) he.1)
      exact h.refines ha (by simp [ListOp.exec, hcall]) hl' hsame (by grind [mem_cellsOf])
  | pushFront ha he =>
      have hl : Linked m _ _ ([] ++ _) := h.linked _ _ ha
      obtain ⟨m', hcall, hl', hsame⟩ := listPushFront_linked hl
        (cells_insert hl (he.2 _ _ ha) he.1)
      exact h.refines ha (by simp [ListOp.exec, hcall]) hl' hsame (by grind [mem_cellsOf])
  | pushBack ha he =>
      have hl := h.linked _ _ ha
      obtain ⟨m', hcall, hl', hsame⟩ := listPushBack_linked hl
        (cells_push hl (he.2 _ _ ha) he.1)
      exact h.refines ha (by simp [ListOp.exec, hcall]) hl' hsame (by grind [mem_cellsOf])
  | remove ha hnext =>
      obtain ⟨m', q, hcall, hq, hl', hsame⟩ := listRemove_linked (h.linked _ _ ha)
      obtain rfl := Option.mem_unique hq hnext
      exact h.refines ha (by simp [ListOp.exec, hcall]) hl' hsame (by grind [mem_cellsOf])
  | popFront ha =>
      obtain ⟨m', hcall, hl', hsame⟩ := listPopFront_linked (h.linked _ _ ha)
      exact h.refines ha (by simp [ListOp.exec, hcall]) hl' hsame (by grind [mem_cellsOf])
  | popBack ha =>
      obtain ⟨m', hcall, hl', hsame⟩ := listPopBack_linked (h.linked _ _ ha)
      exact h.refines ha (by simp [ListOp.exec, hcall]) hl' hsame (by grind [mem_cellsOf])
  | splice ha hfirst hlast hb hbefore => exact splice_refines h ha hfirst hlast hb hbefore
  | reverse ha =>
      obtain ⟨m', hcall, hl', hsame⟩ := listReverse_linked (h.linked _ _ ha)
      exact h.refines ha (by simp [ListOp.exec, hcall]) hl' hsame (by grind [mem_cellsOf])

/-! ### Single calls -/

/-- Some of the lists. -/
theorem Represents.mono (h : Represents m w) (hsub : ∀ a l, w' a = some l → w a = some l) :
    Represents m w' :=
  ⟨fun a l ha => h.linked a l (hsub a l ha),
    fun a l b k ha hb => h.apart a l b k (hsub a l ha) (hsub b k hb)⟩

theorem Represents.init (h : Represents m w) (hhead : w.Fresh a) (htail : w.Fresh (listTail a)) :
    ∃ m', listInit m a = .ok m' ∧ Represents m' (w.put a []) := by
  obtain ⟨m', hexec, hrep, -⟩ := effect_refines h (.init hhead htail)
  obtain ⟨m₁, hcall, hret⟩ := bind_eq_ok hexec
  cases hret
  exact ⟨m', hcall, hrep⟩

/-- A list is emptied by making it anew. -/
theorem Represents.reinit (h : Represents m w) (ha : w a = some l) :
    ∃ m', listInit m a = .ok m' ∧ Represents m' (w.put a []) := by
  have hothers : ∀ b k, Function.update w a none b = some k → w b = some k ∧ b ≠ a := by
    intro b k hb
    by_cases hba : b = a
    · rw [hba, Function.update_self] at hb
      cases hb
    · rw [Function.update_of_ne hba] at hb
      exact ⟨hb, hba⟩
  have hl := h.linked a l ha
  have hfresh : ∀ x ∈ cellsOf a l, Lists.Fresh (Function.update w a none) x := by
    intro x hx
    refine ⟨hl.bound x hx, fun b k hb y hy => ?_⟩
    obtain ⟨hb, hba⟩ := hothers b k hb
    exact h.apart a l b k ha hb (Ne.symm hba) x hx y hy
  have hrest : Represents m (Function.update w a none) := h.mono fun b k hb => (hothers b k hb).1
  obtain ⟨m', hinit, hrep⟩ := hrest.init (hfresh a (mem_cellsOf.mpr (Or.inl rfl)))
    (hfresh _ (mem_cellsOf.mpr (Or.inr (Or.inl rfl))))
  refine ⟨m', hinit, ?_⟩
  unfold Lists.put at hrep
  rwa [Function.update_idem] at hrep

theorem Represents.pushFront (h : Represents m w) (ha : w a = some l) (he : w.Fresh e) :
    ∃ m', listPushFront m a e = .ok m' ∧ Represents m' (w.put a (e :: l)) := by
  obtain ⟨m', hexec, hrep, -⟩ := effect_refines h (.pushFront ha he)
  obtain ⟨m₁, hcall, hret⟩ := bind_eq_ok hexec
  cases hret
  exact ⟨m', hcall, hrep⟩

/-- A list with any elements can be made in cells that are not in use. -/
theorem Represents.exists_list (h : Represents m w) (hfresh : ∀ x ∈ cellsOf a l, w.Fresh x)
    (hapart : (cellsOf a l).Pairwise CellsApart) : ∃ m', Represents m' (w.put a l) := by
  induction l with
  | nil =>
      obtain ⟨m', -, hrep⟩ := h.init (hfresh a (mem_cellsOf.mpr (Or.inl rfl)))
        (hfresh _ (mem_cellsOf.mpr (Or.inr (Or.inl rfl))))
      exact ⟨m', hrep⟩
  | cons e l ih =>
      have hsub : (cellsOf a l).Sublist (cellsOf a (e :: l)) := (List.sublist_cons_self e _).cons_cons a
      obtain ⟨m₁, hrep₁⟩ := ih (fun x hx => hfresh x (hsub.subset hx)) (hapart.sublist hsub)
      have hfar : ∀ x ∈ cellsOf a l, CellsApart e x := by
        intro x hx
        obtain ⟨hhead, hrest⟩ := List.pairwise_cons.mp hapart
        rcases List.mem_cons.mp hx with rfl | hx
        · exact (hhead e List.mem_cons_self).symm
        · exact (List.pairwise_cons.mp hrest).1 x hx
      have he : w.Fresh e := hfresh e (mem_cellsOf.mpr (Or.inr (Or.inr List.mem_cons_self)))
      obtain ⟨m', -, hrep⟩ := hrep₁.pushFront (Lists.put_self w a l) (he.put hfar)
      rw [Lists.put_put] at hrep
      exact ⟨m', hrep⟩

/-- A list in memory that has no other. -/
theorem exists_represents (hcells : ∀ x ∈ cellsOf a l, 0 < x ∧ x + 8 ≤ 2 ^ 32)
    (hapart : (cellsOf a l).Pairwise CellsApart) :
    ∃ m, Represents m (Lists.put (fun _ => none) a l) := by
  have hempty : Represents (fun _ => 0) fun _ => none :=
    ⟨fun _ _ h => absurd h (by simp), fun _ _ _ _ h => absurd h (by simp)⟩
  exact hempty.exists_list (fun x hx => Lists.fresh_none (hcells x hx)) hapart

theorem Represents.remove {l₁ l₂ : List Nat} (h : Represents m w)
    (ha : w a = some (l₁ ++ ([e] ++ l₂))) :
    ∃ m' next, listRemove m e = .ok (m', next) ∧ Represents m' (w.put a (l₁ ++ l₂)) := by
  obtain ⟨next, hnext⟩ := exists_behind l₂ (listTail a)
  obtain ⟨m', hexec, hrep, -⟩ := effect_refines h (.remove ha hnext)
  obtain ⟨⟨m₁, next'⟩, hcall, hret⟩ := bind_eq_ok hexec
  cases hret
  exact ⟨m', next, hcall, hrep⟩

theorem Represents.popFront (h : Represents m w) (ha : w a = some (e :: l)) :
    ∃ m', listPopFront m a = .ok (m', e) ∧ Represents m' (w.put a l) := by
  obtain ⟨m', hexec, hrep, -⟩ := effect_refines h (.popFront ha)
  obtain ⟨⟨m₁, front⟩, hcall, hret⟩ := bind_eq_ok hexec
  cases hret
  exact ⟨m', hcall, hrep⟩

/-- An element that has been taken out of its list is apart from all that is left. -/
theorem Represents.fresh_removed {l₁ l₂ : List Nat} (h : Represents m w)
    (ha : w a = some (l₁ ++ ([e] ++ l₂))) : (w.put a (l₁ ++ l₂)).Fresh e := by
  have hl := h.linked _ _ ha
  have he : e ∈ cellsOf a (l₁ ++ ([e] ++ l₂)) := by simp [mem_cellsOf]
  refine ⟨hl.bound e he, fun b k hb x hx => ?_⟩
  by_cases hba : b = a
  · subst hba
    rw [Lists.put_self] at hb
    cases hb
    have hsub : x ∈ cellsOf b (l₁ ++ ([e] ++ l₂)) := by
      simp only [mem_cellsOf, List.mem_append] at hx ⊢
      exact hx.imp_right fun hx => hx.imp_right fun hx => hx.imp_right Or.inr
    refine hl.cells.cellsApart he hsub ?_
    have hnodup : (b :: l₁ ++ ([e] ++ (l₂ ++ [listTail b]))).Nodup := by
      have hnodup := hl.nodup
      rwa [← List.cons_append, List.append_assoc, List.append_assoc] at hnodup
    obtain ⟨-, hbehind, hbefore⟩ := List.nodup_append.mp hnodup
    intro hex
    subst hex
    have hx : e ∈ (b :: l₁) ++ (l₂ ++ [listTail b]) := by
      unfold cellsOf at hx
      rwa [← List.cons_append, List.append_assoc] at hx
    rcases List.mem_append.mp hx with hx | hx
    · exact hbefore e hx e (by simp) rfl
    · exact (List.nodup_append.mp hbehind).2.2 e (List.mem_singleton_self e) e hx rfl
  · rw [Lists.put_of_ne w _ hba] at hb
    exact h.apart a _ b k ha hb (Ne.symm hba) e he x hx

/-! ### Runs -/

/-- A run of operations, with the lists that it does not involve. -/
theorem effects_refine {ops : List ListOp} {rs : List (Option Nat)} {involved : List Nat}
    (h : Represents m w) (hops : Effects w ops w' rs involved) :
    ∃ m', execAll m ops = .ok (m', rs) ∧ Represents m' w' ∧ Untouched m m' w w' involved := by
  induction hops generalizing m with
  | nil w => exact ⟨m, rfl, h, Untouched.refl m w []⟩
  | cons hop _ ih =>
      obtain ⟨m₁, hexec, hrep, huntouched⟩ := effect_refines h hop
      obtain ⟨m', hexecAll, hrep', huntouched'⟩ := ih hrep
      refine ⟨m', ?_, hrep', huntouched.trans huntouched'⟩
      simp only [execAll, hexec, hexecAll, ok_bind]

/-- **Lists are sequences.** Any run of operations on any lists returns what the operations
on sequences return, and leaves lists in order: forwards they are traversed to the
resulting sequences, backwards to their reverses. A list that is not involved keeps all
its links. -/
theorem lists_run_refines {ops : List ListOp} {rs : List (Option Nat)} {involved : List Nat}
    (h : Represents m w) (hops : Effects w ops w' rs involved) :
    ∃ m', execAll m ops = .ok (m', rs) ∧ Represents m' w' ∧
      (∀ a l, w' a = some l → forward m' a = .ok l ∧ backward m' a = .ok l.reverse) ∧
      Untouched m m' w w' involved := by
  obtain ⟨m', hexec, hrep, huntouched⟩ := effects_refine h hops
  exact ⟨m', hexec, hrep, fun a l ha =>
    ⟨forward_linked (hrep.linked a l ha), backward_linked (hrep.linked a l ha)⟩, huntouched⟩

/-- Two lists; the second element of one is spliced before the only element of the other,
which is reversed then. -/
theorem lists_run_refines_splice_reverse :
    ∃ m', execAll (fun _ => 0) [.init 16, .init 64, .pushBack 16 100, .pushBack 16 120,
        .pushBack 64 140, .splice 140 120 24, .reverse 64] =
          .ok (m', [none, none, none, none, none, none, none]) ∧
      forward m' 64 = .ok [140, 120] ∧ backward m' 16 = .ok [100] := by
  have hempty : Represents (fun _ => 0) fun _ => none := ⟨nofun, nofun⟩
  have hfresh : ∀ e, 0 < e ∧ e + 8 ≤ 2 ^ 32 → Lists.Fresh (fun _ => none) e :=
    fun e he => ⟨he, nofun⟩
  have hapart : ∀ {e a l}, (∀ x ∈ cellsOf a l, e + 8 ≤ x ∨ x + 8 ≤ e) →
      ∀ x ∈ cellsOf a l, CellsApart e x := fun h => h
  obtain ⟨m', hexec, -, htraverse, -⟩ := lists_run_refines hempty
    (.cons (.init (hfresh 16 (by decide)) (hfresh 24 (by decide)))
    (.cons (.init ((hfresh 64 (by decide)).put (hapart (by decide)))
      ((hfresh 72 (by decide)).put (hapart (by decide))))
    (.cons (.pushBack (a := 16) (e := 100) (l := []) rfl
      (((hfresh 100 (by decide)).put (hapart (by decide))).put (hapart (by decide))))
    (.cons (.pushBack (a := 16) (e := 120) (l := [100]) rfl
      ((((hfresh 120 (by decide)).put (hapart (by decide))).put (hapart (by decide))).put
        (hapart (by decide))))
    (.cons (.pushBack (a := 64) (e := 140) (l := []) rfl
      (((((hfresh 140 (by decide)).put (hapart (by decide))).put (hapart (by decide))).put
        (hapart (by decide))).put (hapart (by decide))))
    (.cons (@Effect.splice _ 16 64 140 120 24 [100] [120] [] [] [140] rfl rfl rfl rfl rfl)
    (.cons (.reverse (a := 64) (l := [120, 140]) rfl) (.nil _))))))))
  exact ⟨m', hexec, (htraverse 64 [140, 120] rfl).1, (htraverse 16 [100] rfl).2⟩

end OsTools.Kernel

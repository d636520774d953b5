import Mathlib.Data.List.Basic
/-!
# OsTools.Lib.Traversal

Depth-first traversals of a linked structure. Expanding a node gives items and further nodes, in
order; the structure may be shared or cyclic, so that a traversal need not come to an end.

`Visits` is the traversal that does, `visit` the same with a bound on the steps.

`Visits` has a derivation exactly if the traversal ends. So that one does not end is shown
by induction on a derivation (`not_mem_expand`): the traversal of a node that is met within
itself would contain a shorter one of the same node.
-/

namespace OsTools

variable {N A : Type}

/-- The traversal of the items and nodes of `work` ends with the items `as`. -/
inductive Visits (expand : N → List (A ⊕ N)) : List (A ⊕ N) → List A → Prop
  | nil : Visits expand [] []
  | item {a : A} {work : List (A ⊕ N)} {as : List A} : Visits expand work as →
      Visits expand (.inl a :: work) (a :: as)
  | node {n : N} {work : List (A ⊕ N)} {as bs : List A} : Visits expand (expand n) as →
      Visits expand work bs → Visits expand (.inr n :: work) (as ++ bs)

/-- The traversal in at most so many steps. -/
def visit (expand : N → List (A ⊕ N)) : Nat → List (A ⊕ N) → Option (List A)
  | 0, _ => none
  | _ + 1, [] => some []
  | fuel + 1, .inl a :: work => do
      let as ← visit expand fuel work
      some (a :: as)
  | fuel + 1, .inr n :: work => do
      let as ← visit expand fuel (expand n)
      let bs ← visit expand fuel work
      some (as ++ bs)

variable {expand : N → List (A ⊕ N)} {n : N} {work : List (A ⊕ N)} {as bs : List A}

/-- The bounded traversal, where it ends, is the traversal. -/
theorem visit_sound {fuel : Nat} (h : visit expand fuel work = some as) :
    Visits expand work as := by
  induction fuel generalizing work as with
  | zero => simp [visit] at h
  | succ fuel ih =>
      match work with
      | [] =>
          simp only [visit, Option.some.injEq] at h
          subst h
          exact .nil
      | .inl a :: work =>
          simp only [visit, Option.bind_eq_bind, Option.bind_eq_some_iff, Option.some.injEq] at h
          obtain ⟨rest, hrest, rfl⟩ := h
          exact .item (ih hrest)
      | .inr n :: work =>
          simp only [visit, Option.bind_eq_bind, Option.bind_eq_some_iff, Option.some.injEq] at h
          obtain ⟨below, hbelow, rest, hrest, rfl⟩ := h
          exact .node (ih hbelow) (ih hrest)

namespace Visits

theorem deterministic (h : Visits expand work as) (h' : Visits expand work bs) : as = bs := by
  induction h generalizing bs with
  | nil =>
      cases h'
      rfl
  | item _ ih =>
      cases h' with
      | item hrest => rw [ih hrest]
  | node _ _ ihbelow ihrest =>
      cases h' with
      | node hbelow hrest => rw [ihbelow hbelow, ihrest hrest]

/-- The work is done in order. -/
theorem append {work' : List (A ⊕ N)} (h : Visits expand work as)
    (h' : Visits expand work' bs) : Visits expand (work ++ work') (as ++ bs) := by
  induction h with
  | nil => exact h'
  | item _ ih => exact .item ih
  | node hbelow _ _ ihrest =>
      rw [List.append_assoc]
      exact .node hbelow ihrest

/-- An item of the work is found. -/
theorem item_mem {a : A} (h : Visits expand work as) (ha : .inl a ∈ work) : a ∈ as := by
  induction h with
  | nil => simp at ha
  | item _ ih =>
      rcases List.mem_cons.mp ha with ha | ha
      · obtain rfl := Sum.inl.inj ha
        exact List.mem_cons_self
      · exact List.mem_cons_of_mem _ (ih ha)
  | node _ _ _ ihrest => exact List.mem_append_right _ (ihrest (by simpa using ha))

/-- A node of the work is traversed on the way. -/
theorem of_mem (h : Visits expand work as) (hn : .inr n ∈ work) :
    ∃ bs, Visits expand (expand n) bs ∧ bs ⊆ as := by
  induction h with
  | nil => simp at hn
  | item _ ih =>
      obtain ⟨bs, hbs, hsub⟩ := ih (by simpa using hn)
      exact ⟨bs, hbs, List.subset_cons_of_subset _ hsub⟩
  | @node n' work as' bs' hbelow _ _ ihrest =>
      rcases List.mem_cons.mp hn with hn | hn
      · obtain rfl := Sum.inr.inj hn
        exact ⟨as', hbelow, List.subset_append_left _ _⟩
      · obtain ⟨bs, hbs, hsub⟩ := ihrest hn
        exact ⟨bs, hbs, List.subset_append_of_subset_right _ hsub⟩

/-- A traversal that meets a node within itself does not come to an end. -/
theorem not_mem_expand (h : Visits expand work as) (hn : .inr n ∈ work) :
    .inr n ∉ expand n := by
  intro hcycle
  induction h with
  | nil => simp at hn
  | item _ ih => exact ih (by simpa using hn)
  | @node n' work as' bs' _ _ ihbelow ihrest =>
      rcases List.mem_cons.mp hn with hn | hn
      · obtain rfl := Sum.inr.inj hn
        exact ihbelow hcycle
      · exact ihrest hn

end Visits

end OsTools

/-!
# OsTools.Lib.Except

Taking apart computations that may fail: the two rules by which a proof steps
through a `do` block, forwards (`ok_bind`) and backwards (`bind_eq_ok`), and what
holds of a result if there is one (`Ensures`). Then a computation for every
element of a list.

A function that may fail is specified in one of two ways. If it always returns, its lemma is
an equation with `.ok`, and a caller rewrites with it and `ok_bind`. If it may fail for
reasons that do not matter, its lemma is an `Ensures`, and the rules of `Ensures` follow the
`do` block from its first line on, each with what the line before it ensures.
-/

namespace OsTools

variable {ε α β : Type}

@[simp] theorem ok_bind (a : α) (f : α → Except ε β) : (Except.ok a >>= f) = f a := rfl

/-- A sequence that returns is made of parts that return. -/
theorem bind_eq_ok {x : Except ε α} {f : α → Except ε β} {b : β} (h : (x >>= f) = .ok b) :
    ∃ a, x = .ok a ∧ f a = .ok b := by
  cases x with
  | error e => exact absurd h (by simp [bind, Except.bind])
  | ok a => exact ⟨a, rfl, h⟩

/-- A computation can be run to see that it returns, and what. -/
instance existsOkDecidable (x : Except ε α) (P : α → Prop) [DecidablePred P] :
    Decidable (∃ a, x = .ok a ∧ P a) :=
  match x with
  | .error _ => isFalse fun h => by
      obtain ⟨_, h, -⟩ := h
      cases h
  | .ok a => decidable_of_iff (P a)
      ⟨fun h => ⟨a, rfl, h⟩, fun h => by
        obtain ⟨_, heq, h⟩ := h
        cases heq
        exact h⟩

/-- If `x` returns, its result has the property `P`. -/
def Ensures (x : Except ε α) (P : α → Prop) : Prop := ∀ a, x = .ok a → P a

namespace Ensures

variable {x : Except ε α} {P : α → Prop}

theorem ok {a : α} (h : P a) : Ensures (.ok a : Except ε α) P := by
  intro b hb
  cases hb
  exact h

theorem error {e : ε} : Ensures (.error e : Except ε α) P := by
  intro b hb
  cases hb

theorem any (x : Except ε α) : Ensures x fun _ => True := fun _ _ => trivial

theorem bind {Q : β → Prop} {f : α → Except ε β} (hx : Ensures x P)
    (hf : ∀ a, P a → Ensures (f a) Q) : Ensures (x >>= f) Q := by
  intro b hb
  obtain ⟨a, ha, hb⟩ := bind_eq_ok hb
  exact hf a (hx a ha) b hb

end Ensures

/-! ### Lists -/

variable {f : α → Except ε β} {l l' : List α} {b : β} {bs bs' : List β}

/-- A computation for each element, none of which fails. -/
theorem mapM_ok {g : α → β} (h : ∀ a ∈ l, f a = .ok (g a)) : l.mapM f = .ok (l.map g) := by
  induction l with
  | nil => rfl
  | cons a l ih =>
      rw [List.mapM_cons, h a List.mem_cons_self,
        ih fun a' ha' => h a' (List.mem_cons_of_mem _ ha')]
      rfl

theorem mapM_cons_eq_ok {a : α} (h : (a :: l).mapM f = .ok bs) :
    ∃ b bs', f a = .ok b ∧ l.mapM f = .ok bs' ∧ bs = b :: bs' := by
  rw [List.mapM_cons] at h
  obtain ⟨b, hb, h⟩ := bind_eq_ok h
  obtain ⟨bs', hbs', h⟩ := bind_eq_ok h
  cases h
  exact ⟨b, bs', hb, hbs', rfl⟩

theorem mapM_cons_ok {a : α} (ha : f a = .ok b) (hl : l.mapM f = .ok bs) :
    (a :: l).mapM f = .ok (b :: bs) := by
  rw [List.mapM_cons, ha, hl]
  rfl

/-- If all of the computations return, each of them does. -/
theorem mapM_mem (h : l.mapM f = .ok bs) : ∀ a ∈ l, ∃ b, f a = .ok b := by
  induction l generalizing bs with
  | nil => simp
  | cons a l ih =>
      obtain ⟨b, rest, hb, hrest, -⟩ := mapM_cons_eq_ok h
      intro a' ha'
      rcases List.mem_cons.mp ha' with rfl | ha'
      · exact ⟨b, hb⟩
      · exact ih hrest a' ha'

/-- The order of the elements makes no difference but to that of the results. -/
theorem mapM_perm (hp : l.Perm l') (h : l'.mapM f = .ok bs') :
    ∃ bs, l.mapM f = .ok bs ∧ bs.Perm bs' := by
  induction hp generalizing bs' with
  | nil => exact ⟨bs', h, .refl _⟩
  | cons a _ ih =>
      obtain ⟨b, rest', hb, hrest', rfl⟩ := mapM_cons_eq_ok h
      obtain ⟨rest, hrest, hperm⟩ := ih hrest'
      exact ⟨b :: rest, mapM_cons_ok hb hrest, hperm.cons b⟩
  | swap a a' l =>
      obtain ⟨b, rest', hb, hrest', rfl⟩ := mapM_cons_eq_ok h
      obtain ⟨b', rest, hb', hrest, rfl⟩ := mapM_cons_eq_ok hrest'
      exact ⟨b' :: b :: rest, mapM_cons_ok hb' (mapM_cons_ok hb hrest), .swap _ _ _⟩
  | trans _ _ ih ih' =>
      obtain ⟨mid, hmid, hperm'⟩ := ih' h
      obtain ⟨bs, hbs, hperm⟩ := ih hmid
      exact ⟨bs, hbs, hperm.trans hperm'⟩

end OsTools

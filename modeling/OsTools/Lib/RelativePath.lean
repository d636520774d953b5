import Mathlib.Algebra.Order.Group.Nat
import Mathlib.Data.List.Basic
/-!
# OsTools.Lib.RelativePath

Relative paths, resolved component by component: an empty component and a dot stay where they are,
two dots go up, and a name goes down. A path is confined if it never goes up from where it starts.

This is so if no part of it, from the front on, has more components with two dots than names
(`resolve_isSome_iff`).

Resolution is a fold over the components with the depth as its state, so that a path that
goes up too far is noticed at its first prefix that does. The proof of `resolve_isSome_iff`
generalises over the directory it starts in, of which only the depth matters (`Balanced`).
-/

namespace OsTools.RelativePath

/-- The parts between the slashes. -/
def components (path : List Char) : List (List Char) := path.splitOnP (· == '/')

/-- Two dots. -/
def isUp (c : List Char) : Bool := c = ['.', '.']

/-- A name, which is an entry of a directory. -/
def isName (c : List Char) : Bool := c ≠ [] ∧ c ≠ ['.'] ∧ c ≠ ['.', '.']

/-- The directory that components lead to, from the directory `dir` below the start; both have the
innermost name first. `none` is above the start. -/
def resolve : List (List Char) → List (List Char) → Option (List (List Char))
  | dir, [] => some dir
  | dir, c :: cs =>
      if isUp c then dir.tail?.bind fun up => resolve up cs
      else resolve (if isName c then c :: dir else dir) cs

/-- The path does not lead above the directory that it starts in, not even on the way. -/
def Confined (path : List Char) : Prop := (resolve [] (components path)).isSome

instance (path : List Char) : Decidable (Confined path) :=
  inferInstanceAs (Decidable ((resolve [] (components path)).isSome = true))

/-- No part of the components from the front on has more that go up than there are names in it and
`depth` more. -/
def Balanced (depth : Nat) (cs : List (List Char)) : Prop :=
  ∀ k, (cs.take k).countP isUp ≤ (cs.take k).countP isName + depth

variable {dir cs ds : List (List Char)} {c : List Char} {path rest : List Char} {depth : Nat}

theorem isName_of_isUp (h : isUp c = true) : isName c = false := by
  simp only [isUp, decide_eq_true_eq] at h
  simp [isName, h]

theorem balanced_nil (depth : Nat) : Balanced depth [] := by
  intro k
  simp

/-- The first component. -/
theorem balanced_cons : Balanced depth (c :: cs) ↔
    if isUp c then 0 < depth ∧ Balanced (depth - 1) cs
    else if isName c then Balanced (depth + 1) cs
    else Balanced depth cs := by
  have hstep : Balanced depth (c :: cs) ↔ ∀ k,
      (cs.take k).countP isUp + (if isUp c then 1 else 0) ≤
        (cs.take k).countP isName + (if isName c then 1 else 0) + depth := by
    constructor
    · intro h k
      have := h (k + 1)
      rwa [List.take_succ_cons, List.countP_cons, List.countP_cons] at this
    · intro h k
      cases k with
      | zero => simp
      | succ k =>
          rw [List.take_succ_cons, List.countP_cons, List.countP_cons]
          exact h k
  rw [hstep]
  by_cases hup : isUp c = true
  · rw [if_pos hup, if_pos hup, isName_of_isUp hup]
    simp only [Bool.false_eq_true, if_false]
    constructor
    · intro h
      have hzero := h 0
      simp only [List.take_zero, List.countP_nil] at hzero
      refine ⟨by omega, fun k => ?_⟩
      have := h k
      omega
    · rintro ⟨hpos, h⟩ k
      have := h k
      omega
  · rw [if_neg hup, if_neg hup]
    by_cases hname : isName c = true
    · rw [if_pos hname, if_pos hname]
      exact forall_congr' fun k => by omega
    · rw [if_neg hname, if_neg hname]
      exact Iff.rfl

theorem resolve_cons (dir : List (List Char)) (c : List Char) (cs : List (List Char)) :
    resolve dir (c :: cs) =
      if isUp c then dir.tail?.bind fun up => resolve up cs
      else resolve (if isName c then c :: dir else dir) cs := rfl

/-- The depth of the directory is what counts. -/
theorem resolve_isSome_iff : (resolve dir cs).isSome ↔ Balanced dir.length cs := by
  induction cs generalizing dir with
  | nil => exact ⟨fun _ => balanced_nil _, fun _ => rfl⟩
  | cons c cs ih =>
      rw [balanced_cons, resolve_cons]
      by_cases hup : isUp c = true
      · rw [if_pos hup, if_pos hup]
        cases dir with
        | nil => simp
        | cons d dir => simp [ih]
      · rw [if_neg hup, if_neg hup]
        by_cases hname : isName c = true
        · rw [if_pos hname, if_pos hname, ih, List.length_cons]
        · rw [if_neg hname, if_neg hname, ih]

theorem resolve_append (dir cs ds : List (List Char)) :
    resolve dir (cs ++ ds) = (resolve dir cs).bind fun dir => resolve dir ds := by
  induction cs generalizing dir with
  | nil => rfl
  | cons c cs ih =>
      rw [List.cons_append, resolve_cons, resolve_cons]
      by_cases hup : isUp c = true
      · rw [if_pos hup, if_pos hup]
        cases dir with
        | nil => rfl
        | cons d dir => exact ih dir
      · rw [if_neg hup, if_neg hup, ih]

theorem components_append (path rest : List Char) :
    components (path ++ '/' :: rest) = components path ++ components rest :=
  List.splitOnP_append_cons path rest (by simp)

/-- A path is as confined as the directory that a name is added to. -/
theorem confined_append (hname : isName rest = true) (hslash : '/' ∉ rest) :
    Confined (path ++ '/' :: rest) ↔ Confined path := by
  have hone : components rest = [rest] :=
    List.splitOnP_eq_singleton fun x hx => by
      simp only [beq_eq_false_iff_ne, ne_eq]
      rintro rfl
      exact hslash hx
  have hup : isUp rest = false := by
    rw [Bool.eq_false_iff]
    intro h
    rw [isName_of_isUp h] at hname
    cases hname
  have hlast : ∀ dir, resolve dir [rest] = some (rest :: dir) := by
    intro dir
    simp [resolve, hup, hname]
  unfold Confined
  rw [components_append, hone, resolve_append]
  cases resolve [] (components path) with
  | none => rfl
  | some dir => simp [hlast]

end OsTools.RelativePath

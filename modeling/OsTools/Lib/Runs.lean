import Mathlib.Data.List.TakeWhile
/-!
# OsTools.Lib.Runs

The maximal runs of elements that satisfy a predicate, in order: what is left of a list
when it is split at all the other elements and the empty pieces are dropped.

Runs are described from the left: a list begins with other elements, then a run, and then
either the end or another element (`runs_cases`). A program that goes over the list in this
order can be compared with it call by call. The indices (`runStarts`) have the position and
whether a run is under way as accumulators.
-/

namespace OsTools

variable {α : Type}

/-- The maximal runs of elements that satisfy `p`. -/
def runs (p : α → Bool) (s : List α) : List (List α) :=
  (s.splitOnP fun a => !p a).filter fun r => !r.isEmpty

/-- Where they start, the list being at index `k` and perhaps in the middle of a run. -/
def runStarts (p : α → Bool) : Bool → Nat → List α → List Nat
  | _, _, [] => []
  | inside, k, a :: s =>
      if p a then
        if inside then runStarts p true (k + 1) s else k :: runStarts p true (k + 1) s
      else runStarts p false (k + 1) s

variable {p : α → Bool} {a : α} {r s t w : List α}

@[simp] theorem runs_nil (p : α → Bool) : runs p [] = [] := rfl

/-- A run does not go on over other elements. -/
theorem runs_append_cons (ha : p a = false) (s t : List α) :
    runs p (s ++ a :: t) = runs p s ++ runs p t := by
  unfold runs
  rw [List.splitOnP_append_cons s t (by simp [ha]), List.filter_append]

theorem runs_cons (ha : p a = false) (s : List α) : runs p (a :: s) = runs p s :=
  runs_append_cons ha [] s

/-- A list of such elements is one run. -/
theorem runs_all (hw : ∀ x ∈ w, p x = true) (hne : w ≠ []) : runs p w = [w] := by
  unfold runs
  rw [List.splitOnP_eq_singleton fun x hx => by simp [hw x hx]]
  simp [hne]

/-- It ends at the first other element. -/
theorem runs_run (hw : ∀ x ∈ w, p x = true) (hne : w ≠ []) (ha : p a = false) (s : List α) :
    runs p (w ++ a :: s) = w :: runs p s := by
  rw [runs_append_cons ha, runs_all hw hne]
  rfl

/-- It has all the elements from its start on. -/
theorem runs_prefix (hw : ∀ x ∈ w, p x = true) (hne : w ≠ []) (s : List α) :
    ∃ v rest, runs p (w ++ s) = (w ++ v) :: rest := by
  induction s generalizing w with
  | nil => exact ⟨[], [], by simp [runs_all hw hne]⟩
  | cons a s ih =>
      by_cases ha : p a = true
      · have hw' : ∀ x ∈ w ++ [a], p x = true := by
          intro x hx
          rcases List.mem_append.mp hx with hx | hx
          · exact hw x hx
          · rw [List.mem_singleton.mp hx]
            exact ha
        obtain ⟨v, rest, hruns⟩ := ih hw' (by simp)
        refine ⟨a :: v, rest, ?_⟩
        rw [List.append_assoc, List.append_assoc] at hruns
        exact hruns
      · exact ⟨[], runs p s, by rw [runs_run hw hne (by simpa using ha), List.append_nil]⟩

theorem ne_nil_of_mem_runs (hr : r ∈ runs p s) : r ≠ [] := by
  have := (List.mem_filter.mp hr).2
  simpa using this

/-- A list has no run, or begins with one behind some other elements. -/
theorem runs_cases (p : α → Bool) (s : List α) : (∀ x ∈ s, p x = false) ∨
    ∃ d w v, s = d ++ (w ++ v) ∧ (∀ x ∈ d, p x = false) ∧ (∀ x ∈ w, p x = true) ∧ w ≠ [] ∧
      (v = [] ∨ ∃ a t, v = a :: t ∧ p a = false) := by
  induction s with
  | nil => exact Or.inl fun x hx => absurd hx List.not_mem_nil
  | cons a s ih =>
      by_cases ha : p a = true
      · -- the run goes as far as it can
        refine Or.inr ⟨[], a :: s.takeWhile p, s.dropWhile p, ?_, nofun, ?_, nofun, ?_⟩
        · rw [List.nil_append, List.cons_append, List.takeWhile_append_dropWhile]
        · intro x hx
          rcases List.mem_cons.mp hx with rfl | hx
          · exact ha
          · exact List.mem_takeWhile_imp hx
        · cases hdrop : s.dropWhile p with
          | nil => exact Or.inl rfl
          | cons b t =>
              have hb := List.head?_dropWhile_not p s
              rw [hdrop] at hb
              exact Or.inr ⟨b, t, rfl, by simpa using hb⟩
      · have ha' : p a = false := by simpa using ha
        rcases ih with hnone | hrun
        · refine Or.inl fun x hx => ?_
          rcases List.mem_cons.mp hx with rfl | hx
          · exact ha'
          · exact hnone x hx
        · obtain ⟨d, w, v, rfl, hd, hw, hne, hv⟩ := hrun
          refine Or.inr ⟨a :: d, w, v, rfl, fun x hx => ?_, hw, hne, hv⟩
          rcases List.mem_cons.mp hx with rfl | hx
          · exact ha'
          · exact hd x hx

theorem runs_skip (hw : ∀ x ∈ w, p x = false) (s : List α) : runs p (w ++ s) = runs p s := by
  induction w with
  | nil => rfl
  | cons a w ih =>
      rw [List.cons_append, runs_cons (hw a List.mem_cons_self)]
      exact ih fun x hx => hw x (List.mem_cons_of_mem _ hx)

theorem runs_none (hw : ∀ x ∈ w, p x = false) : runs p w = [] := by
  have h := runs_skip hw []
  rwa [List.append_nil, runs_nil] at h

theorem runStarts_skip (hw : ∀ x ∈ w, p x = false) (k : Nat) (s : List α) :
    runStarts p false k (w ++ s) = runStarts p false (k + w.length) s := by
  induction w generalizing k with
  | nil => rfl
  | cons a w ih =>
      rw [List.cons_append, runStarts, hw a List.mem_cons_self,
        if_neg (by decide), ih fun x hx => hw x (List.mem_cons_of_mem _ hx), List.length_cons,
        Nat.add_assoc, Nat.add_comm 1]

theorem runStarts_inside (hw : ∀ x ∈ w, p x = true) (k : Nat) (s : List α) :
    runStarts p true k (w ++ s) = runStarts p true (k + w.length) s := by
  induction w generalizing k with
  | nil => rfl
  | cons a w ih =>
      rw [List.cons_append, runStarts, if_pos (hw a List.mem_cons_self), if_pos rfl,
        ih fun x hx => hw x (List.mem_cons_of_mem _ hx), List.length_cons, Nat.add_assoc,
        Nat.add_comm 1]

theorem runStarts_run (hw : ∀ x ∈ w, p x = true) (hne : w ≠ []) (k : Nat) (s : List α) :
    runStarts p false k (w ++ s) = k :: runStarts p true (k + w.length) s := by
  cases w with
  | nil => exact absurd rfl hne
  | cons a w =>
      rw [List.cons_append, runStarts, if_pos (hw a List.mem_cons_self), if_neg (by decide),
        runStarts_inside fun x hx => hw x (List.mem_cons_of_mem _ hx), List.length_cons,
        Nat.add_assoc, Nat.add_comm 1]

/-- They are indices of the list. -/
theorem runStarts_lt {inside : Bool} {k i : Nat} (hi : i ∈ runStarts p inside k s) :
    i < k + s.length := by
  induction s generalizing inside k with
  | nil => exact absurd hi List.not_mem_nil
  | cons a s ih =>
      rw [List.length_cons]
      unfold runStarts at hi
      by_cases ha : p a = true
      · rw [if_pos ha] at hi
        cases inside with
        | true =>
            have := ih hi
            omega
        | false =>
            rcases List.mem_cons.mp hi with rfl | hi
            · omega
            · have := ih hi
              omega
      · rw [if_neg ha] at hi
        have := ih hi
        omega

theorem runStarts_none (hw : ∀ x ∈ w, p x = false) (k : Nat) : runStarts p false k w = [] := by
  have h := runStarts_skip hw k []
  rwa [List.append_nil, runStarts] at h

end OsTools

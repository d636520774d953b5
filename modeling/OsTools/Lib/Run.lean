import Mathlib.Data.List.Basic
import Mathlib.Logic.Relation
/-!
# OsTools.Lib.Run

Finite runs of a labelled transition relation `step s l s'` and the induction
rules the development uses on them:

* `Run.guarded`: a predicate that every step *meeting a condition* preserves
  holds in every state of a run all of whose steps meet the condition;
* `Run.invariant`: the unconditional special case;
* `Run.forall_iff`: when exactly the steps that meet a condition have a property,
  all steps of a run have it if and only if they all meet the condition.

`Run.trace` runs a step function on a list of labels. Where every step lowers a measure, a
state without steps is reached (`exists_terminal`).

Nothing here mentions a particular program.

Which rule is used depends on the claim. "In every reachable state" is `Run.invariant`; "as
long as the steps are of a kind" is `Run.guarded`; and "exactly as long as" is
`Run.forall_iff`, whose premise is an equivalence for one step from a state with the
invariant. The induction on the run is done here once, and a development that uses a rule
has to do with single steps alone.
-/

namespace OsTools

variable {σ ι : Type*}

/-- One step taken in a run: the state before, the label, the state after. -/
structure Transition (σ ι : Type*) where
  pre : σ
  label : ι
  post : σ

/-- `Run step s ts`: the transitions `ts`, in order, form a run from `s`. -/
inductive Run (step : σ → ι → σ → Prop) : σ → List (Transition σ ι) → Prop
  | nil (s : σ) : Run step s []
  | cons {s s' : σ} {l : ι} {ts : List (Transition σ ι)} :
      step s l s' → Run step s' ts → Run step s (⟨s, l, s'⟩ :: ts)

namespace Run

variable {step : σ → ι → σ → Prop} {s : σ} {ts : List (Transition σ ι)}

/-- Every transition of a run is a step. -/
theorem step_of_mem (hrun : Run step s ts) : ∀ τ ∈ ts, step τ.pre τ.label τ.post := by
  induction hrun with
  | nil => intro τ hτ; simp at hτ
  | cons hstep _ ih =>
      intro τ hτ
      rcases List.mem_cons.mp hτ with rfl | hτ
      · exact hstep
      · exact ih τ hτ

/-- What follows a transition of a run is a run. -/
theorem suffix {ts₁ ts₂ : List (Transition σ ι)} {τ : Transition σ ι}
    (hrun : Run step s (ts₁ ++ τ :: ts₂)) : Run step τ.post ts₂ := by
  induction ts₁ generalizing s with
  | nil =>
      cases hrun with
      | cons _ htail => exact htail
  | cons _ _ ih =>
      cases hrun with
      | cons _ htail => exact ih htail

/-- The run of a step *function* on a list of labels, up to the first label it
does not accept. -/
def trace (step : σ → ι → Option σ) (s : σ) : List ι → List (Transition σ ι)
  | [] => []
  | l :: ls =>
      match step s l with
      | none => []
      | some s' => ⟨s, l, s'⟩ :: trace step s' ls

/-- A trace is a run. -/
theorem of_trace (step : σ → ι → Option σ) (s : σ) (ls : List ι) :
    Run (fun s l s' => step s l = some s') s (trace step s ls) := by
  induction ls generalizing s with
  | nil => exact .nil s
  | cons l ls ih =>
      unfold trace
      split
      · exact .nil s
      · rename_i s' hs
        exact .cons hs (ih s')

/-- The state that a step function reaches when it accepts all labels of a list. -/
def final (step : σ → ι → Option σ) (s : σ) : List ι → Option σ
  | [] => some s
  | l :: ls =>
      match step s l with
      | none => none
      | some s' => final step s' ls

/-- One more label from there is the last step of the trace. -/
theorem mem_trace {step : σ → ι → Option σ} {s s₁ s₂ : σ} {ls : List ι} {l : ι}
    (hls : final step s ls = some s₁) (hl : step s₁ l = some s₂) :
    ⟨s₁, l, s₂⟩ ∈ trace step s (ls ++ [l]) := by
  induction ls generalizing s with
  | nil =>
      obtain rfl := Option.some.inj hls
      rw [List.nil_append, trace, hl]
      exact List.mem_cons_self
  | cons k ls ih =>
      rw [List.cons_append, trace]
      rw [final] at hls
      cases hk : step s k with
      | none =>
          rw [hk] at hls
          exact absurd hls (by simp)
      | some s' =>
          rw [hk] at hls
          exact List.mem_cons_of_mem _ (ih hls)

/-- Where steps lead to, a run goes, and it takes the next step too. -/
theorem exists_mem {s' s'' : σ} {l : ι}
    (h : Relation.ReflTransGen (fun a b => ∃ l, step a l b) s s') (hl : step s' l s'') :
    ∃ ts, Run step s ts ∧ ⟨s', l, s''⟩ ∈ ts := by
  induction h using Relation.ReflTransGen.head_induction_on with
  | refl => exact ⟨_, .cons hl (.nil s''), List.mem_cons_self⟩
  | head hstep _ ih =>
      obtain ⟨k, hk⟩ := hstep
      obtain ⟨ts, hrun, hmem⟩ := ih
      exact ⟨_, .cons hk hrun, List.mem_cons_of_mem _ hmem⟩

/-- A predicate preserved by the steps that meet `C` holds before and after
every transition of a run whose steps all meet `C`. -/
theorem guarded {I : σ → Prop} {C : σ → ι → Prop}
    (hstep : ∀ s l s', I s → C s l → step s l s' → I s')
    (hrun : Run step s ts) (hI : I s) (hok : ∀ τ ∈ ts, C τ.pre τ.label) :
    ∀ τ ∈ ts, I τ.pre ∧ I τ.post := by
  induction hrun with
  | nil => intro τ hτ; simp at hτ
  | @cons s s' l ts hs _ ih =>
      have hI' : I s' := hstep s l s' hI (hok _ List.mem_cons_self) hs
      intro τ hτ
      rcases List.mem_cons.mp hτ with rfl | hτ
      · exact ⟨hI, hI'⟩
      · exact ih hI' (fun τ hτ => hok τ (List.mem_cons_of_mem _ hτ)) τ hτ

/-- Such a predicate holds up to the first transition that need not meet `C`. -/
theorem guarded_until {I : σ → Prop} {C : σ → ι → Prop}
    (hstep : ∀ s l s', I s → C s l → step s l s' → I s') {ts' : List (Transition σ ι)}
    {τ : Transition σ ι} (hrun : Run step s (ts ++ τ :: ts')) (hI : I s)
    (hok : ∀ τ ∈ ts, C τ.pre τ.label) : I τ.pre := by
  induction ts generalizing s with
  | nil =>
      cases hrun with
      | cons _ _ => exact hI
  | cons _ _ ih =>
      cases hrun with
      | cons hs htail =>
          exact ih htail (hstep _ _ _ hI (hok _ List.mem_cons_self) hs)
            fun τ hτ => hok τ (List.mem_cons_of_mem _ hτ)

/-- An inductive invariant holds before and after every transition of a run. -/
theorem invariant {I : σ → Prop} (hstep : ∀ s l s', I s → step s l s' → I s')
    (hrun : Run step s ts) (hI : I s) : ∀ τ ∈ ts, I τ.pre ∧ I τ.post :=
  hrun.guarded (C := fun _ _ => True) (fun s l s' h _ => hstep s l s' h) hI (fun _ _ => trivial)

/-- A run whose transitions all meet `D` is a run of the steps that meet `D`. -/
theorem restrict {D : Transition σ ι → Prop} (hrun : Run step s ts) (hD : ∀ τ ∈ ts, D τ) :
    Run (fun s l s' => step s l s' ∧ D ⟨s, l, s'⟩) s ts := by
  induction hrun with
  | nil => exact .nil _
  | cons hs _ ih =>
      exact .cons ⟨hs, hD _ List.mem_cons_self⟩ (ih fun τ hτ => hD τ (List.mem_cons_of_mem _ hτ))

/-- **The exact-condition rule.** Suppose that a step from an `I`-state has the
property `P` exactly when it meets `C`, and then leads to an `I`-state again.
Then all steps of a run from an `I`-state have `P` if and only if they all meet
`C`. -/
theorem forall_iff {I : σ → Prop} {P : Transition σ ι → Prop} {C : σ → ι → Prop}
    (hiff : ∀ s l s', I s → step s l s' → (P ⟨s, l, s'⟩ ↔ C s l))
    (hstep : ∀ s l s', I s → C s l → step s l s' → I s')
    (hrun : Run step s ts) (hI : I s) : (∀ τ ∈ ts, P τ) ↔ ∀ τ ∈ ts, C τ.pre τ.label := by
  induction hrun with
  | nil => simp
  | @cons s s' l ts hs _ ih =>
      have hhead : P ⟨s, l, s'⟩ ↔ C s l := hiff s l s' hI hs
      constructor
      · intro hP
        have hok : C s l := hhead.mp (hP _ List.mem_cons_self)
        have htail := (ih (hstep s l s' hI hok hs)).mp
          (fun τ hτ => hP τ (List.mem_cons_of_mem _ hτ))
        intro τ hτ
        rcases List.mem_cons.mp hτ with rfl | hτ
        · exact hok
        · exact htail τ hτ
      · intro hoks
        have hok : C s l := hoks _ List.mem_cons_self
        have htail := (ih (hstep s l s' hI hok hs)).mpr
          (fun τ hτ => hoks τ (List.mem_cons_of_mem _ hτ))
        intro τ hτ
        rcases List.mem_cons.mp hτ with rfl | hτ
        · exact hhead.mpr hok
        · exact htail τ hτ

end Run

/-- Where every step lowers a measure, a state without steps is reached. -/
theorem exists_terminal {β : Type*} {lt : β → β → Prop} (hwf : WellFounded lt)
    {step : σ → σ → Prop} (measure : σ → β)
    (hdec : ∀ s s', step s s' → lt (measure s') (measure s)) (s : σ) :
    ∃ t, Relation.ReflTransGen step s t ∧ ∀ t', ¬ step t t' := by
  induction hn : measure s using hwf.induction generalizing s with
  | _ n ih =>
      by_cases hstep : ∃ s', step s s'
      · obtain ⟨s', hs'⟩ := hstep
        obtain ⟨t, hreach, hlast⟩ := ih (measure s') (hn ▸ hdec s s' hs') s' rfl
        exact ⟨t, hreach.head hs', hlast⟩
      · exact ⟨s, .refl, fun s' hs' => hstep ⟨s', hs'⟩⟩

end OsTools

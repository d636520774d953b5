import Mathlib.Data.List.Perm.Basic
import OsTools.Lib.Except
/-!
# OsTools.Kernel.ListSort

`list_sort` of `lib/kernel/list.c`, which `hw-list/list.c` has too, as it acts on the list of
elements: a merge sort that takes the nondecreasing runs of the list as they are.

A round of the outer loop merges the runs by pairs, and comes to about half as many. The
number of pairs of neighbours that are out of order measures this (`descents`).

## Proof shape

`find_end_of_run` stops at a descent, and a merge of two runs in order has none. So a round
that merges the runs by pairs leaves at most half of the descents (`sortRound_spec`), which
is why the outer loop ends, and it ends with no descents, which is a list in order.

Stability is a separate induction with the same cases: the first run stays in order among
itself, and so does the second, and an element of the second run goes before one of the
first only if it is less (`pair_sublist_inplaceMerge`).
-/

namespace OsTools.Kernel

variable {α : Type*}

section Model

variable (less : α → α → Bool)

/-- `find_end_of_run`: the run that `a` begins, and what is behind it. -/
def findEndOfRun (a : α) : List α → List α × List α
  | [] => ([a], [])
  | b :: l =>
      if less b a then ([a], b :: l)
      else
        let (run, rest) := findEndOfRun b l
        (a :: run, rest)

/-- `inplace_merge`. The element of the second run goes before that of the first only if it is
less. -/
def inplaceMerge (run run' : List α) : List α := run.merge run' fun a b => !less b a

/-- A round of the outer loop of `list_sort`: `output_run_cnt` and the list. There are no more
runs than elements. -/
def sortRound : Nat → List α → Nat × List α
  | 0, l => (0, l)
  | _ + 1, [] => (0, [])
  | n + 1, a :: l =>
      match findEndOfRun less a l with
      | (run, []) => (1, run)
      | (run, b :: rest) =>
          let (run', rest') := findEndOfRun less b rest
          let (cnt, out) := sortRound n rest'
          (cnt + 1, inplaceMerge less run run' ++ out)

/-- The outer loop, with a bound on its rounds. -/
def sortLoop : Nat → List α → Option (List α)
  | 0, _ => none
  | rounds + 1, l =>
      let (cnt, out) := sortRound less l.length l
      if cnt > 1 then sortLoop rounds out else some out

/-- `list_sort`. -/
def listSort (l : List α) : Option (List α) := sortLoop less (l.length + 1) l

/-- What `list_sort` requires of `less`. -/
structure StrictWeakOrder : Prop where
  asymm : ∀ a b, less a b = true → less b a = false
  trans : ∀ a b c, less a b = false → less b c = false → less a c = false

/-- In nondecreasing order. -/
def Sorted (l : List α) : Prop := l.Pairwise fun a b => less b a = false

/-- Elements that may stay in their order do. -/
def KeepsOrder (l out : List α) : Prop :=
  ∀ a b, less b a = false → [a, b].Sublist l → [a, b].Sublist out

/-- The number of pairs of neighbours that are out of order. -/
def descents : List α → Nat
  | [] => 0
  | [_] => 0
  | a :: b :: l => (if less b a then 1 else 0) + descents (b :: l)

end Model

section Lemmas

variable {less : α → α → Bool} {a : α} {l l' run run' rest : List α}

theorem descents_cons_cons (b : α) :
    descents less (a :: b :: l) = (if less b a then 1 else 0) + descents less (b :: l) := rfl

theorem descents_lt_length (h : l ≠ []) : descents less l < l.length := by
  induction l with
  | nil => exact absurd rfl h
  | cons a l ih =>
      cases l with
      | nil => exact Nat.zero_lt_one
      | cons b l =>
          have hlt := ih (List.cons_ne_nil _ _)
          rw [descents_cons_cons, List.length_cons]
          split <;> omega

theorem descents_append_le (l l' : List α) :
    descents less (l ++ l') ≤ descents less l + descents less l' + 1 := by
  induction l with
  | nil =>
      rw [List.nil_append]
      omega
  | cons a l ih =>
      cases l with
      | nil =>
          cases l' with
          | nil => exact Nat.zero_le _
          | cons b l' =>
              rw [List.singleton_append, descents_cons_cons]
              split <;> omega
      | cons b l =>
          rw [List.cons_append, List.cons_append, descents_cons_cons, descents_cons_cons]
          rw [List.cons_append] at ih
          omega

theorem descents_eq_zero (hless : StrictWeakOrder less) :
    descents less l = 0 ↔ Sorted less l := by
  induction l with
  | nil => exact ⟨fun _ => .nil, fun _ => rfl⟩
  | cons a l ih =>
      cases l with
      | nil => exact ⟨fun _ => List.pairwise_singleton _ _, fun _ => rfl⟩
      | cons b l =>
          rw [descents_cons_cons, Nat.add_eq_zero_iff, ih]
          constructor
          · rintro ⟨hba, hsorted⟩
            have hle : less b a = false := by simpa using hba
            refine List.pairwise_cons.mpr ⟨fun c hc => ?_, hsorted⟩
            rcases List.mem_cons.mp hc with rfl | hc
            · exact hle
            · exact hless.trans c b a (List.rel_of_pairwise_cons hsorted hc) hle
          · intro hsorted
            obtain ⟨hle, htail⟩ := List.pairwise_cons.mp hsorted
            refine ⟨?_, htail⟩
            rw [hle b List.mem_cons_self]
            rfl

/-- The run and what is behind it: the run is in order, and one descent lies in between. -/
theorem findEndOfRun_spec (h : findEndOfRun less a l = (run, rest)) :
    run ++ rest = a :: l ∧ run ≠ [] ∧ descents less run = 0 ∧
      descents less (a :: l) = if rest = [] then 0 else descents less rest + 1 := by
  induction l generalizing a run with
  | nil =>
      cases h
      exact ⟨rfl, List.cons_ne_nil _ _, rfl, rfl⟩
  | cons b l ih =>
      unfold findEndOfRun at h
      split at h
      · rename_i hless
        cases h
        refine ⟨rfl, List.cons_ne_nil _ _, rfl, ?_⟩
        rw [descents_cons_cons, if_pos hless, if_neg (List.cons_ne_nil _ _), Nat.add_comm]
      · rename_i hless
        generalize htail : findEndOfRun less b l = r at h
        obtain ⟨run₀, rest₀⟩ := r
        cases h
        obtain ⟨happend, hne, hzero, hdescents⟩ := ih htail
        obtain ⟨c, run₁, rfl⟩ := List.exists_cons_of_ne_nil hne
        have hcb : c = b := (List.cons.inj happend).1
        subst hcb
        refine ⟨by rw [List.cons_append, happend], List.cons_ne_nil _ _, ?_, ?_⟩
        · rw [descents_cons_cons, if_neg hless, hzero]
        · rw [descents_cons_cons, if_neg hless, hdescents, Nat.zero_add]

theorem inplaceMerge_perm : (inplaceMerge less run run').Perm (run ++ run') :=
  List.merge_perm_append _

theorem sorted_inplaceMerge (hless : StrictWeakOrder less) (h : Sorted less run)
    (h' : Sorted less run') : Sorted less (inplaceMerge less run run') := by
  have hbool : ∀ {l : List α}, Sorted less l ↔ l.Pairwise fun a b => (!less b a) = true := by
    intro l
    simp only [Sorted, Bool.not_eq_true']
  rw [hbool] at h h' ⊢
  refine List.pairwise_merge (fun a b c hab hbc => ?_) (fun a b => ?_) run run' h h'
  · rw [Bool.not_eq_true'] at hab hbc ⊢
    exact hless.trans c b a hbc hab
  · cases hab : less a b with
    | false => simp
    | true => rw [hless.asymm a b hab]; rfl

/-- A pass of a round: the list is one run, or its first two runs are merged and
the round goes on behind them. -/
theorem sortRound_cases {n cnt : Nat} {out : List α}
    (h : sortRound less (n + 1) (a :: l) = (cnt, out)) (hn : (a :: l).length ≤ n + 1) :
    (cnt = 1 ∧ out = a :: l ∧ descents less (a :: l) = 0) ∨
    ∃ run run' rest' cnt₀ out₀, sortRound less n rest' = (cnt₀, out₀) ∧ rest'.length ≤ n ∧
      run ++ run' ++ rest' = a :: l ∧ descents less run = 0 ∧ descents less run' = 0 ∧
      descents less (a :: l) = (if rest' = [] then 0 else descents less rest' + 1) + 1 ∧
      cnt = cnt₀ + 1 ∧ out = inplaceMerge less run run' ++ out₀ := by
  unfold sortRound at h
  generalize hrun : findEndOfRun less a l = r at h
  obtain ⟨run, rest⟩ := r
  obtain ⟨happend, hrunne, hzero, hdescents⟩ := findEndOfRun_spec hrun
  cases rest with
  | nil =>
      cases h
      rw [List.append_nil] at happend
      exact Or.inl ⟨rfl, happend, hdescents⟩
  | cons b rest =>
      dsimp only at h
      generalize hrun' : findEndOfRun less b rest = r' at h
      obtain ⟨run', rest'⟩ := r'
      obtain ⟨happend', -, hzero', hdescents'⟩ := findEndOfRun_spec hrun'
      dsimp only at h
      generalize htail : sortRound less n rest' = t at h
      obtain ⟨cnt₀, out₀⟩ := t
      cases h
      rw [if_neg (List.cons_ne_nil _ _), hdescents'] at hdescents
      have hlen : rest'.length ≤ n := by
        have hall := congrArg List.length happend
        have hrest := congrArg List.length happend'
        have hpos := List.length_pos_iff.mpr hrunne
        simp only [List.length_append, List.length_cons] at hall hrest hn
        omega
      refine Or.inr ⟨run, run', rest', cnt₀, out₀, htail, hlen, ?_, hzero, hzero', hdescents, rfl,
        rfl⟩
      rw [← happend, ← happend', List.append_assoc]

/-- A round keeps the elements, and comes to about half as many runs. -/
theorem sortRound_spec (hless : StrictWeakOrder less) {n cnt : Nat} {out : List α}
    (hn : l.length ≤ n) (h : sortRound less n l = (cnt, out)) :
    out.Perm l ∧ (l ≠ [] → 2 * cnt ≤ descents less l + 2 ∧ descents less out + 1 ≤ cnt) := by
  induction n generalizing l cnt out with
  | zero =>
      cases h
      obtain rfl := List.length_eq_zero_iff.mp (Nat.le_zero.mp hn)
      exact ⟨.refl _, fun hne => absurd rfl hne⟩
  | succ n ih =>
      cases l with
      | nil =>
          cases h
          exact ⟨.refl _, fun hne => absurd rfl hne⟩
      | cons a l =>
          rcases sortRound_cases h hn with ⟨rfl, rfl, hdescents⟩ |
            ⟨run, run', rest', cnt₀, out₀, htail, hlen, happend, hzero, hzero', hdescents, rfl, rfl⟩
          · exact ⟨.refl _, fun _ => ⟨by omega, by omega⟩⟩
          · obtain ⟨hperm, hcnt⟩ := ih hlen htail
            have hmerge : descents less (inplaceMerge less run run') = 0 :=
              (descents_eq_zero hless).mpr (sorted_inplaceMerge hless
                ((descents_eq_zero hless).mp hzero) ((descents_eq_zero hless).mp hzero'))
            refine ⟨?_, fun _ => ?_⟩
            · rw [← happend]
              exact inplaceMerge_perm.append hperm
            · by_cases hnil : rest' = []
              · subst hnil
                obtain rfl := hperm.eq_nil
                have hcnt₀ : cnt₀ = 0 := by
                  cases n <;> cases htail <;> rfl
                rw [List.append_nil, hmerge]
                omega
              · obtain ⟨hhalf, hout⟩ := hcnt hnil
                have happ := @descents_append_le _ less (inplaceMerge less run run') out₀
                rw [if_neg hnil] at hdescents
                omega

/-- The outer loop ends, with the list in order. -/
theorem sortLoop_spec (hless : StrictWeakOrder less) {rounds : Nat}
    (hrounds : descents less l < rounds) :
    ∃ out, sortLoop less rounds l = some out ∧ out.Perm l ∧ Sorted less out := by
  induction rounds generalizing l with
  | zero => omega
  | succ rounds ih =>
      unfold sortLoop
      generalize hround : sortRound less l.length l = r
      obtain ⟨cnt, out⟩ := r
      obtain ⟨hperm, hcnt⟩ := sortRound_spec hless (Nat.le_refl _) hround
      dsimp only
      by_cases hne : l = []
      · subst hne
        cases hround
        exact ⟨[], rfl, .refl _, .nil⟩
      · obtain ⟨hhalf, hout⟩ := hcnt hne
        by_cases hmore : cnt > 1
        · rw [if_pos hmore]
          obtain ⟨out', hloop, hperm', hsorted⟩ := ih (l := out) (by omega)
          exact ⟨out', hloop, hperm'.trans hperm, hsorted⟩
        · rw [if_neg hmore]
          exact ⟨out, rfl, hperm, (descents_eq_zero hless).mp (by omega)⟩

/-- `list_sort` ends, with the same elements in nondecreasing order. -/
theorem listSort_spec (hless : StrictWeakOrder less) (l : List α) :
    ∃ out, listSort less l = some out ∧ out.Perm l ∧ Sorted less out := by
  refine sortLoop_spec hless ?_
  by_cases hne : l = []
  · subst hne
    exact Nat.zero_lt_one
  · have := @descents_lt_length _ less _ hne
    omega

/-! ### The order of equal elements -/

theorem KeepsOrder.refl (l : List α) : KeepsOrder less l l := fun _ _ _ hsub => hsub

theorem KeepsOrder.trans {l₁ : List α} (h : KeepsOrder less l l₁) (h' : KeepsOrder less l₁ l') :
    KeepsOrder less l l' := fun a b hle hsub => h' a b hle (h a b hle hsub)

/-- Where two elements in order come from. -/
theorem pair_sublist_append {a b : α} (h : [a, b].Sublist (l ++ l')) :
    [a, b].Sublist l ∨ (a ∈ l ∧ b ∈ l') ∨ [a, b].Sublist l' := by
  obtain ⟨s, s', hs, hsub, hsub'⟩ := List.sublist_append_iff.mp h
  rcases List.cons_eq_append_iff.mp hs with ⟨rfl, rfl⟩ | ⟨s, rfl, hb⟩
  · exact Or.inr (Or.inr hsub')
  rcases List.cons_eq_append_iff.mp hb with ⟨rfl, rfl⟩ | ⟨s, rfl, hnil⟩
  · exact Or.inr (Or.inl ⟨List.singleton_sublist.mp hsub, List.singleton_sublist.mp hsub'⟩)
  · obtain ⟨rfl, rfl⟩ := List.append_eq_nil_iff.mp hnil.symm
    exact Or.inl hsub

/-- Two lists behind each other. -/
theorem KeepsOrder.append {out out' : List α} (h : KeepsOrder less l out)
    (h' : KeepsOrder less l' out') (hperm : out.Perm l) (hperm' : out'.Perm l') :
    KeepsOrder less (l ++ l') (out ++ out') := by
  intro a b hle hsub
  rcases pair_sublist_append hsub with hsub | ⟨ha, hb⟩ | hsub
  · exact (h a b hle hsub).trans (List.sublist_append_left _ _)
  · have ha' := List.singleton_sublist.mpr (hperm.mem_iff.mpr ha)
    have hb' := List.singleton_sublist.mpr (hperm'.mem_iff.mpr hb)
    exact ha'.append hb'
  · exact (h' a b hle hsub).trans (List.sublist_append_right _ _)

theorem inplaceMerge_cons_cons (a b : α) : inplaceMerge less (a :: run) (b :: run') =
    if !less b a then a :: inplaceMerge less run (b :: run')
    else b :: inplaceMerge less (a :: run) run' := List.cons_merge_cons _ a b run run'

/-- The first run stays in order, and so does the second. -/
theorem sublist_inplaceMerge :
    run.Sublist (inplaceMerge less run run') ∧ run'.Sublist (inplaceMerge less run run') := by
  induction run generalizing run' with
  | nil => simp [inplaceMerge]
  | cons a run ih =>
      induction run' with
      | nil => simp [inplaceMerge]
      | cons b run' ih' =>
          rw [inplaceMerge_cons_cons]
          split
          · exact ⟨ih.1.cons_cons a, ih.2.cons a⟩
          · exact ⟨ih'.1.cons b, ih'.2.cons_cons b⟩

/-- An element of the second run goes before those of the first only if it is less. -/
theorem pair_sublist_inplaceMerge (hless : StrictWeakOrder less) (h : Sorted less run) {b : α}
    (ha : a ∈ run) (hb : b ∈ run') (hle : less b a = false) :
    [a, b].Sublist (inplaceMerge less run run') := by
  induction run generalizing run' with
  | nil => cases ha
  | cons x run ih =>
      induction run' with
      | nil => cases hb
      | cons y run' ih' =>
          obtain ⟨hfirst, hrest⟩ := List.pairwise_cons.mp h
          rw [inplaceMerge_cons_cons]
          by_cases hyx : less y x = true
          · rw [hyx]
            rcases List.mem_cons.mp hb with rfl | hb
            · -- `b` is less than the first element of a run in order that has `a` in it.
              rcases List.mem_cons.mp ha with rfl | ha
              · rw [hle] at hyx
                cases hyx
              · rw [hless.trans b a x hle (hfirst a ha)] at hyx
                cases hyx
            · exact (ih' hb).cons y
          · rw [Bool.not_eq_true] at hyx
            rw [hyx]
            rcases List.mem_cons.mp ha with rfl | ha
            · refine List.Sublist.cons_cons a (List.singleton_sublist.mpr ?_)
              exact List.mem_merge_right _ hb
            · exact (ih hrest ha hb).cons x

theorem keepsOrder_inplaceMerge (hless : StrictWeakOrder less) (h : Sorted less run) :
    KeepsOrder less (run ++ run') (inplaceMerge less run run') := by
  intro a b hle hsub
  rcases pair_sublist_append hsub with hsub | ⟨ha, hb⟩ | hsub
  · exact hsub.trans sublist_inplaceMerge.1
  · exact pair_sublist_inplaceMerge hless h ha hb hle
  · exact hsub.trans sublist_inplaceMerge.2

theorem keepsOrder_sortRound (hless : StrictWeakOrder less) {n cnt : Nat} {out : List α}
    (hn : l.length ≤ n) (h : sortRound less n l = (cnt, out)) : KeepsOrder less l out := by
  induction n generalizing l cnt out with
  | zero =>
      cases h
      exact .refl _
  | succ n ih =>
      cases l with
      | nil =>
          cases h
          exact .refl _
      | cons a l =>
          rcases sortRound_cases h hn with ⟨rfl, rfl, -⟩ |
            ⟨run, run', rest', cnt₀, out₀, htail, hlen, happend, hzero, -, -, rfl, rfl⟩
          · exact .refl _
          · rw [← happend]
            exact (keepsOrder_inplaceMerge hless ((descents_eq_zero hless).mp hzero)).append
              (ih hlen htail) inplaceMerge_perm (sortRound_spec hless hlen htail).1

theorem keepsOrder_sortLoop (hless : StrictWeakOrder less) {rounds : Nat} {out : List α}
    (h : sortLoop less rounds l = some out) : KeepsOrder less l out := by
  induction rounds generalizing l with
  | zero => cases h
  | succ rounds ih =>
      unfold sortLoop at h
      generalize hround : sortRound less l.length l = r at h
      obtain ⟨cnt, out₁⟩ := r
      have hkeeps := keepsOrder_sortRound hless (Nat.le_refl _) hround
      dsimp only at h
      split at h
      · exact hkeeps.trans (ih h)
      · cases h
        exact hkeeps

end Lemmas

end OsTools.Kernel

import Mathlib.Data.List.Chain
import OsTools.Shell.Redirection
/-!
# OsTools.Shell.Stages

What the children of `pipe_executer2` in `hw-shell/shell.c` execute: for each task the program,
its argument vector, and the file that it is redirected to or from.

The positions of the operators are kept in variables that all tasks share, and a vector is cut
off at the position (`stageRuns`). So the words behind a redirection are lost, and a position of
0, which an operator in front has, counts for none (`stages_iff`).

## Proof shape

First the arrays go: with words that fit, the executions are a function of the words of each
task and of two numbers that are handed on from task to task (`executions_eq`). What remains
is about lists of words. In a well-formed pipeline each task that has an operator sets the
number itself, so that the tasks can be looked at one by one (`stageRuns_eq`), and
`served_iff` says for one task when being cut off at its last operator leaves the right
words.
-/

namespace OsTools.Shell

section Model

variable (pathResolve : Option Word → Option Word)

/-- The strings of a vector, up to the null pointer. -/
def argv (a : Arr) : List Word :=
  (((List.range a.size).map a.slots).takeWhile Option.isSome).reduceOption

/-- What a child executes: `execv (task[0], task)`, where the path of the program has taken the
place of the first of the `args`; and the file that it has opened. -/
structure Execution where
  program : Option Word
  args : List Word
  file : Option Word

/-- The loop over the tasks, with what the child of each one executes. -/
def pipeExecutions (t : Arr) (len numTasks : Nat) :
    Nat → Nat → Stage → Except Violation (List Execution)
  | 0, _, _ => .ok []
  | rounds + 1, taskNumber, s => do
      let s ← pipeStage t len s
      let (cut, file) ← redirectTask numTasks taskNumber s
      let task ← childArgs pathResolve numTasks taskNumber s
      let later ← pipeExecutions t len numTasks rounds (taskNumber + 1) s
      .ok (⟨task.slots 0, argv cut, file⟩ :: later)

/-- `pipe_executer2`, with what its children execute. -/
def executions (tokens : List Word) (numTasks : Nat) : Except Violation (List Execution) := do
  let t ← Arr.fill tokens tokens.length 0 (.new 1024)
  let t ← t.set tokens.length none
  pipeExecutions pathResolve t tokens.length numTasks numTasks 0 ⟨.new 256, 0, 0, 0, 0⟩

/-! ### What is executed -/

/-- The position of the last operator, or what the variable was before. -/
def lastIndex (op : Word → Bool) : Nat → Nat → List Word → Nat
  | _, last, [] => last
  | k, last, w :: rest => lastIndex op (k + 1) (if op w then k else last) rest

/-- A vector that is cut off at an index other than 0. -/
def execution (task : List Word) (index : Nat) : Execution where
  program := pathResolve task.head?
  args := if index ≠ 0 then task.take index else task
  file := if index ≠ 0 then task[index + 1]? else none

/-- The tasks one after the other: the positions of the operators are handed on. -/
def stageRuns (numTasks : Nat) : Nat → Nat → Nat → List (List Word) → List Execution
  | _, _, _, [] => []
  | taskNumber, input, output, task :: later =>
      let input := lastIndex (· = LESS) 0 input task
      let output := lastIndex (· = GREATER) 0 output task
      let index := if taskNumber = 0 then input
        else if taskNumber = numTasks - 1 then output else 0
      execution pathResolve task index :: stageRuns numTasks (taskNumber + 1) input output later

end Model

section Runs

variable {pathResolve : Option Word → Option Word} {t a : Arr} {l task rest tokens : List Word}
variable {s : Stage} {op : Word → Bool} {k last : Nat}

theorem lastIndex_none (h : ∀ w ∈ l, op w = false) : lastIndex op k last l = last := by
  induction l generalizing k with
  | nil => rfl
  | cons w l ih =>
      obtain ⟨hw, hl⟩ := List.forall_mem_cons.mp h
      rw [lastIndex, hw]
      exact ih hl

theorem lastIndex_append (l l' : List Word) :
    lastIndex op k last (l ++ l') = lastIndex op (k + l.length) (lastIndex op k last l) l' := by
  induction l generalizing k last with
  | nil => rfl
  | cons w l ih =>
      rw [List.cons_append, lastIndex, lastIndex, ih, List.length_cons, Nat.add_right_comm,
        Nat.add_assoc]

theorem lastIndex_lt {b : Nat} (hlast : last < b) (hlen : k + l.length ≤ b) :
    lastIndex op k last l < b := by
  induction l generalizing k last with
  | nil => exact hlast
  | cons w l ih =>
      rw [List.length_cons] at hlen
      rw [lastIndex]
      refine ih ?_ (by omega)
      split <;> omega

theorem argv_eq (hlen : l.length < a.size) (hslots : ∀ j, j < l.length → a.slots j = l[j]?)
    (hnull : a.slots l.length = none) : argv a = l := by
  obtain ⟨n, hn⟩ : ∃ n, a.size = l.length + (n + 1) := ⟨a.size - l.length - 1, by omega⟩
  have hfirst : (List.range l.length).map a.slots = l.map some := by
    refine List.ext_getElem (by simp) fun j h₁ h₂ => ?_
    rw [List.length_map] at h₂
    rw [List.getElem_map, List.getElem_range, List.getElem_map, hslots j h₂,
      List.getElem?_eq_getElem h₂]
  unfold argv
  rw [hn, List.range_add, List.map_append, hfirst, List.range_succ_eq_map, List.map_cons,
    List.map_cons, Nat.add_zero, hnull,
    List.takeWhile_append_of_pos fun x hx => by
      obtain ⟨w, -, rfl⟩ := List.mem_map.mp hx
      rfl,
    List.takeWhile_cons_of_neg (by simp), List.append_nil]
  show List.filterMap id (l.map some) = l
  rw [List.filterMap_map]
  exact List.filterMap_some

/-- The words of a task are in `task`, and the positions of its operators in the variables. By
induction on the words up to the next pipe, with the position `k` in the array `task`; an
operator that comes twice counts where it came last. -/
theorem stageLoop_spec {rounds : Nat} (ht : Holds t tokens) (hrest : task ++ rest = tokens.drop s.i)
    (hroom : s.k + task.length ≤ s.task.size) (hword : ∀ w ∈ task, w ≠ PIPE)
    (hend : ∀ w ∈ rest.head?, w = PIPE) (hrounds : task.length ≤ rounds) :
    ∃ s', stageLoop t tokens.length rounds s = .ok s' ∧ s'.i = s.i + task.length ∧
      s'.k = s.k + task.length ∧ s'.task.size = s.task.size ∧
      (∀ j, s'.task.slots j = if s.k ≤ j ∧ j < s.k + task.length then task[j - s.k]?
        else s.task.slots j) ∧
      s'.inputIndex = lastIndex (· = LESS) s.k s.inputIndex task ∧
      s'.outputIndex = lastIndex (· = GREATER) s.k s.outputIndex task := by
  induction task generalizing s rounds with
  | nil =>
      refine ⟨s, ?_, rfl, rfl, rfl, fun j => ?_, rfl, rfl⟩
      · cases rounds with
        | zero => rfl
        | succ rounds =>
            unfold stageLoop
            -- the words of the stage end at a pipe or with the tokens
            by_cases hlt : s.i < tokens.length
            · have hslot : t.slots s.i = some PIPE := by
                rw [List.nil_append, List.drop_eq_getElem_cons hlt] at hrest
                have hfirst := hend tokens[s.i] (by rw [hrest]; rfl)
                rw [ht.2 s.i hlt, List.getElem?_eq_getElem hlt, hfirst]
              rw [if_pos hlt, get_ok (Nat.lt_trans hlt ht.1), ok_bind, hslot, if_pos rfl]
            · rw [if_neg hlt]
      · rw [if_neg (by simp)]
  | cons w task ih =>
      rw [List.length_cons] at hroom hrounds
      obtain ⟨rounds, rfl⟩ : ∃ k, rounds = k + 1 := ⟨rounds - 1, by omega⟩
      have hlt : s.i < tokens.length := by
        by_contra hge
        rw [List.drop_eq_nil_of_le (by omega)] at hrest
        cases hrest
      rw [List.drop_eq_getElem_cons hlt, List.cons_append] at hrest
      obtain ⟨hw, htail⟩ := List.cons.inj hrest
      have hget : tokens[s.i]? = some w := by rw [List.getElem?_eq_getElem hlt, ← hw]
      have hstep := stageLoop_step rounds ht hlt hget (by omega) (hword w List.mem_cons_self)
      obtain ⟨s', hloop, hi, hk, hsize, hslots, hinput, houtput⟩ := @ih (s.word w) rounds htail
        (by show s.k + 1 + task.length ≤ s.task.size; omega)
        (fun x hx => hword x (List.mem_cons_of_mem _ hx)) (by omega)
      refine ⟨s', hstep.trans hloop, ?_, ?_, hsize, fun j => ?_, ?_, ?_⟩
      · rw [hi, List.length_cons]
        show s.i + 1 + task.length = _
        omega
      · rw [hk, List.length_cons]
        show s.k + 1 + task.length = _
        omega
      · rw [hslots j, List.length_cons]
        show (if s.k + 1 ≤ j ∧ j < s.k + 1 + task.length then task[j - (s.k + 1)]?
          else Function.update s.task.slots s.k (some w) j) = _
        by_cases hj : j = s.k
        · subst hj
          rw [if_neg (by omega), if_pos (by omega), Function.update_self, Nat.sub_self]
          rfl
        · rw [Function.update_of_ne hj]
          by_cases hin : s.k + 1 ≤ j ∧ j < s.k + 1 + task.length
          · obtain ⟨d, rfl⟩ : ∃ d, j = s.k + 1 + d := ⟨j - (s.k + 1), by omega⟩
            rw [if_pos hin, if_pos (by omega), Nat.add_sub_cancel_left, Nat.add_assoc,
              Nat.add_sub_cancel_left, Nat.add_comm 1 d, List.getElem?_cons_succ]
          · rw [if_neg hin, if_neg (by omega)]
      · rw [hinput, lastIndex]
        simp only [decide_eq_true_eq]
        rfl
      · rw [houtput, lastIndex]
        simp only [decide_eq_true_eq]
        rfl

/-- A task behind `task[k] = NULL`. -/
theorem pipeStage_spec (ht : Holds t tokens) (hrest : task ++ rest = tokens.drop s.i)
    (hlen : task.length ≤ 255) (hword : ∀ w ∈ task, w ≠ PIPE)
    (hend : ∀ w ∈ rest.head?, w = PIPE) :
    ∃ k, pipeStage t tokens.length s = .ok ⟨⟨256, fun j => task[j]?⟩, k, s.i + task.length + 1,
      lastIndex (· = LESS) 0 s.inputIndex task, lastIndex (· = GREATER) 0 s.outputIndex task⟩ := by
  have hshort : task.length ≤ tokens.length := by
    have := congrArg List.length hrest
    rw [List.length_append, List.length_drop] at this
    omega
  obtain ⟨s₁, hloop, hi, hk, hsize, hslots, hinput, houtput⟩ :=
    @stageLoop_spec t task rest tokens { s with task := .new 256, k := 0 } tokens.length ht hrest
      (by show 0 + task.length ≤ 256; omega) hword hend hshort
  have hk' : s₁.k = task.length := by
    rw [hk]
    exact Nat.zero_add _
  have hsize' : s₁.task.size = 256 := hsize
  refine ⟨s₁.k, ?_⟩
  unfold pipeStage
  rw [hloop, ok_bind, set_ok (by omega), ok_bind]
  have hvector : Function.update s₁.task.slots s₁.k none = fun j => task[j]? := by
    funext j
    rw [hk']
    by_cases hj : j = task.length
    · rw [hj, Function.update_self, List.getElem?_eq_none (Nat.le_refl _)]
    · rw [Function.update_of_ne hj, hslots j]
      dsimp only
      by_cases hlt : j < task.length
      · rw [if_pos (by omega), Nat.sub_zero]
      · rw [if_neg (by omega), List.getElem?_eq_none (by omega)]
        rfl
  rw [hvector, hsize', hi, hinput, houtput]

/-- A vector that a null pointer cuts off. -/
theorem argv_take {index : Nat} (hlen : l.length ≤ 255) :
    argv ⟨256, Function.update (fun j => l[j]?) index none⟩ = l.take index := by
  have hmin : (l.take index).length = min index l.length := List.length_take
  refine argv_eq ?_ (fun j hj => ?_) ?_
  · rw [hmin]
    show _ < 256
    omega
  · dsimp only
    rw [Function.update_of_ne (by omega), List.getElem?_take_of_lt (by omega)]
  · dsimp only
    rw [hmin]
    by_cases hle : index ≤ l.length
    · rw [Nat.min_eq_left hle, Function.update_self]
    · rw [Nat.min_eq_right (by omega), Function.update_of_ne (by omega),
        List.getElem?_eq_none (Nat.le_refl _)]

/-- The null pointer in the place of the operator, and the file name behind it. -/
theorem cutOff_spec (pathResolve : Option Word → Option Word) {index : Nat}
    (hlen : task.length ≤ 255) (hlt : index < 255) :
    ∃ cut file, cutOff ⟨256, fun j => task[j]?⟩ index = .ok (cut, file) ∧ cut.size = 256 ∧
      (⟨pathResolve (cut.slots 0), argv cut, file⟩ : Execution) =
        execution pathResolve task index := by
  unfold cutOff execution
  by_cases hzero : index = 0
  · have hargs : argv ⟨256, fun j => task[j]?⟩ = task :=
      argv_eq (by show task.length < 256; omega) (fun j _ => rfl)
        (List.getElem?_eq_none (Nat.le_refl _))
    refine ⟨_, _, if_neg (by omega), rfl, ?_⟩
    dsimp only
    rw [hargs, List.head?_eq_getElem?, if_neg (by omega), if_neg (by omega)]
  · have hnext : ((index : Int) + 1) = ((index + 1 : Nat) : Int) := rfl
    refine ⟨⟨256, Function.update (fun j => task[j]?) index none⟩, task[index + 1]?, ?_, rfl, ?_⟩
    · rw [if_pos (by omega), set_ok (by show index < 256; omega), ok_bind, hnext,
        get_ok (by show index + 1 < 256; omega), ok_bind]
      dsimp only
      rw [Function.update_of_ne (by omega)]
    · dsimp only
      rw [Function.update_of_ne (by omega), argv_take hlen, List.head?_eq_getElem?,
        if_pos (by omega), if_pos (by omega)]

/-- The child cuts its vector off and puts the path of the program in it. -/
theorem redirectTask_spec (pathResolve : Option Word → Option Word) (numTasks taskNumber : Nat)
    {index : Nat} (hs : s.task = ⟨256, fun j => task[j]?⟩) (hlen : task.length ≤ 255)
    (hinput : s.inputIndex < 255) (houtput : s.outputIndex < 255)
    (hindex : index = if taskNumber = 0 then s.inputIndex
      else if taskNumber = numTasks - 1 then s.outputIndex else 0) :
    ∃ cut file vector, redirectTask numTasks taskNumber s = .ok (cut, file) ∧
      childArgs pathResolve numTasks taskNumber s = .ok vector ∧
      (⟨vector.slots 0, argv cut, file⟩ : Execution) = execution pathResolve task index := by
  have hlt : index < 255 := by
    rw [hindex]
    exact cutIndex_lt hinput houtput numTasks taskNumber
  obtain ⟨cut, file, hcut, hsize, hexec⟩ := cutOff_spec pathResolve hlen hlt
  have hredirect : redirectTask numTasks taskNumber s = .ok (cut, file) := by
    rw [redirectTask_eq, ← hindex, hs]
    exact hcut
  refine ⟨cut, file, _, hredirect, childArgs_eq pathResolve hredirect (by omega), ?_⟩
  dsimp only
  rw [Function.update_self]
  exact hexec

/-- The loop executes the tasks that are left, if they fit. By induction on their number. The
indices of the operators are handed on from one task to the next, since the source declares
them outside of the loop. -/
theorem pipeExecutions_ok {numTasks rounds taskNumber : Nat} (ht : Holds t tokens)
    (hrest : rest = tokens.drop s.i) (hinput : s.inputIndex < 255) (houtput : s.outputIndex < 255)
    (hfits : ∀ task ∈ tasks rest, task.length ≤ 255) (hrounds : (tasks rest).length = rounds) :
    pipeExecutions pathResolve t tokens.length numTasks rounds taskNumber s =
      .ok (stageRuns pathResolve numTasks taskNumber s.inputIndex s.outputIndex (tasks rest)) := by
  induction rounds generalizing rest s taskNumber with
  | zero => exact absurd (List.length_eq_zero_iff.mp hrounds) (List.splitOnP_ne_nil _ _)
  | succ rounds ih =>
      -- The task at hand, and what is left behind it.
      obtain ⟨task, behind, hsplit, hword, hend, htasks⟩ : ∃ task behind, task ++ behind = rest ∧
          (∀ w ∈ task, w ≠ PIPE) ∧ (∀ w ∈ behind.head?, w = PIPE) ∧
          (tasks rest = [task] ∨ ∃ later, behind = PIPE :: later ∧
            tasks rest = task :: tasks later) := by
        rcases tasks_cases rest with ⟨htasks, hword⟩ | ⟨task, later, hsplit, hword, htasks⟩
        · exact ⟨rest, [], List.append_nil _, hword, by simp, Or.inl htasks⟩
        · exact ⟨task, PIPE :: later, hsplit.symm, hword, fun w hw => by simpa using hw.symm,
            Or.inr ⟨later, rfl, htasks⟩⟩
      have hmem : task ∈ tasks rest := by
        rcases htasks with h | ⟨later, -, h⟩ <;> rw [h] <;> exact List.mem_cons_self
      have hlen := hfits task hmem
      obtain ⟨k, hstage⟩ := pipeStage_spec ht (hsplit.trans hrest) hlen hword hend
      have hinput' : lastIndex (· = LESS) 0 s.inputIndex task < 255 :=
        lastIndex_lt hinput (by omega)
      have houtput' : lastIndex (· = GREATER) 0 s.outputIndex task < 255 :=
        lastIndex_lt houtput (by omega)
      generalize hs₁ : (⟨⟨256, fun j => task[j]?⟩, k, s.i + task.length + 1,
        lastIndex (· = LESS) 0 s.inputIndex task,
        lastIndex (· = GREATER) 0 s.outputIndex task⟩ : Stage) = s₁ at hstage
      have htask : s₁.task = ⟨256, fun j => task[j]?⟩ := by rw [← hs₁]
      have hin₁ : s₁.inputIndex = lastIndex (· = LESS) 0 s.inputIndex task := by rw [← hs₁]
      have hout₁ : s₁.outputIndex = lastIndex (· = GREATER) 0 s.outputIndex task := by rw [← hs₁]
      have hi₁ : s₁.i = s.i + task.length + 1 := by rw [← hs₁]
      obtain ⟨cut, file, vector, hredirect, hchild, hexec⟩ := redirectTask_spec pathResolve
        numTasks taskNumber htask hlen (hin₁ ▸ hinput') (hout₁ ▸ houtput') rfl
      unfold pipeExecutions
      rw [hstage, ok_bind, hredirect, ok_bind]
      dsimp only
      rw [hchild, ok_bind, hexec]
      rcases htasks with hlast | ⟨later, hbehind, hmore⟩
      · rw [hlast] at hrounds ⊢
        obtain rfl : rounds = 0 := by simpa using hrounds.symm
        rw [pipeExecutions, ok_bind, stageRuns, stageRuns, hin₁, hout₁]
      · rw [hmore] at hrounds hfits ⊢
        have hlater : later = tokens.drop s₁.i := by
          rw [hi₁, Nat.add_assoc, ← List.drop_drop, ← hrest, ← hsplit, hbehind,
            List.drop_length_add_append]
          rfl
        rw [ih hlater (hin₁ ▸ hinput') (hout₁ ▸ houtput')
          (fun x hx => hfits x (List.mem_cons_of_mem _ hx)) (by simpa using hrounds), ok_bind,
          stageRuns, hin₁, hout₁]

/-- These are the executions of the loop of `pipe_executer2`. -/
theorem pipeLoop_eq (pathResolve : Option Word → Option Word) (t : Arr) (len numTasks : Nat)
    (rounds taskNumber : Nat) (s : Stage) :
    pipeLoop pathResolve t len numTasks rounds taskNumber s =
      (pipeExecutions pathResolve t len numTasks rounds taskNumber s).map fun _ => () := by
  induction rounds generalizing taskNumber s with
  | zero => rfl
  | succ rounds ih =>
      unfold pipeLoop pipeExecutions
      cases hstage : pipeStage t len s with
      | error e => rfl
      | ok s₁ =>
          rw [ok_bind, ok_bind]
          cases hredirect : redirectTask numTasks taskNumber s₁ with
          | error e =>
              unfold childArgs
              rw [hredirect]
              rfl
          | ok cut =>
              rw [ok_bind]
              cases hchild : childArgs pathResolve numTasks taskNumber s₁ with
              | error e => rfl
              | ok vector =>
                  dsimp only
                  rw [ok_bind, ok_bind, ih]
                  cases pipeExecutions pathResolve t len numTasks rounds (taskNumber + 1) s₁ <;> rfl

theorem pipeExecuter2_eq (pathResolve : Option Word → Option Word) (tokens : List Word)
    (numTasks : Nat) : pipeExecuter2 pathResolve tokens numTasks =
      (executions pathResolve tokens numTasks).map fun _ => () := by
  unfold pipeExecuter2 executions
  cases Arr.fill tokens tokens.length 0 (.new 1024) with
  | error e => rfl
  | ok t =>
      rw [ok_bind, ok_bind]
      cases t.set tokens.length none with
      | error e => rfl
      | ok t => exact pipeLoop_eq pathResolve t tokens.length numTasks numTasks 0 _

/-- If the words fit, the tasks are executed one after the other; otherwise an array is not
kept to. -/
theorem executions_eq (pathResolve : Option Word → Option Word) (tokens : List Word)
    (runs : List Execution) :
    executions pathResolve tokens (numTasks tokens) = .ok runs ↔
      PipelineFits tokens ∧
        runs = stageRuns pathResolve (numTasks tokens) 0 0 0 (tasks tokens) := by
  have hiff := pipeExecuter2_iff pathResolve tokens
  rw [pipeExecuter2_eq] at hiff
  have hruns : PipelineFits tokens → executions pathResolve tokens (numTasks tokens) =
      .ok (stageRuns pathResolve (numTasks tokens) 0 0 0 (tasks tokens)) := by
    intro hfits
    have hsize : (Arr.new 1024).size = 1024 := rfl
    have hlong := hfits.1
    obtain ⟨t, hfill, htsize, hslots⟩ := @fill_ok (.new 1024) 0 tokens tokens.length
      (by rw [hsize]; omega)
    have hroom : tokens.length < t.size := by
      rw [htsize, hsize]
      omega
    have hholds : Holds { t with slots := Function.update t.slots tokens.length none } tokens := by
      refine ⟨hroom, fun i hi => ?_⟩
      dsimp only
      rw [Function.update_of_ne (by omega), hslots i, if_pos (by omega)]
    unfold executions
    rw [hfill, ok_bind, set_ok hroom, ok_bind]
    exact pipeExecutions_ok hholds rfl (by decide) (by decide) hfits.2 (length_tasks tokens)
  constructor
  · intro h
    have hfits : PipelineFits tokens := by
      rw [← hiff, h]
      rfl
    exact ⟨hfits, Except.ok.inj (h.symm.trans (hruns hfits))⟩
  · rintro ⟨hfits, rfl⟩
    exact hruns hfits

end Runs

/-! ### Well-formed pipelines -/

/-- There is a `|`, no task is without words, every operator has a file name behind it in its
task, `<` is in the first task only and `>` in the last. -/
structure WellFormed (tokens : List Word) : Prop where
  piped : PIPE ∈ tokens
  nonempty : ∀ task ∈ tasks tokens, task ≠ []
  files : ∀ task ∈ tasks tokens,
    task.IsChain (fun w x => isRedirection w = true → isRedirection x = false) ∧
      ∀ w ∈ task.getLast?, isRedirection w = false
  input : ∀ i task, (tasks tokens)[i]? = some task → LESS ∈ task → i = 0
  output : ∀ i task, (tasks tokens)[i]? = some task → GREATER ∈ task →
    i + 1 = (tasks tokens).length

/-- A task is executed with its words without the redirections. If it has none, it is executed
with all of them, and no file is opened. -/
structure Served (pathResolve : Option Word → Option Word) (task : List Word) (e : Execution) :
    Prop where
  args : e.args = arguments task
  program : e.program = pathResolve (arguments task).head?
  plain : (∀ w ∈ task, isRedirection w = false) → e.args = task ∧ e.file = none

/-- A task without a redirection, or with one behind all its words, of which there is one. -/
def AtEnd (task : List Word) : Prop :=
  (∀ w ∈ task, isRedirection w = false) ∨
    ∃ args op file, task = args ++ [op, file] ∧ isRedirection op = true ∧ args ≠ [] ∧
      ∀ w ∈ args, isRedirection w = false

section Tasks

variable {pathResolve : Option Word → Option Word} {task a b l tokens : List Word} {op : Word}

theorem arguments_plain (h : ∀ w ∈ l, isRedirection w = false) : arguments l = l := by
  unfold arguments
  induction l using argumentsBy.induct isRedirection with
  | case1 => rfl
  | case2 w hw =>
      rw [h w List.mem_cons_self] at hw
      cases hw
  | case3 w hw => rw [argumentsBy, if_neg hw]
  | case4 w x rest hw ih =>
      rw [h w List.mem_cons_self] at hw
      cases hw
  | case5 w x rest hw ih =>
      rw [argumentsBy, if_neg hw, ih fun y hy => h y (List.mem_cons_of_mem _ hy)]

/-- Reading goes on behind words whose last one is not an operator. -/
theorem arguments_append (h : ∀ w ∈ a.getLast?, isRedirection w = false) (l : List Word) :
    arguments (a ++ l) = arguments a ++ arguments l := by
  unfold arguments
  induction a using argumentsBy.induct isRedirection with
  | case1 => rfl
  | case2 w hw =>
      rw [h w rfl] at hw
      cases hw
  | case3 w hw =>
      rw [argumentsBy, if_neg hw]
      cases l with
      | nil => simp [argumentsBy, hw]
      | cons x l => rw [List.singleton_append, argumentsBy, if_neg hw, List.singleton_append]
  | case4 w x rest hw ih =>
      rw [List.cons_append, List.cons_append, argumentsBy, if_pos hw, argumentsBy, if_pos hw]
      cases rest with
      | nil => rfl
      | cons y rest => exact ih h
  | case5 w x rest hw ih =>
      rw [List.cons_append, List.cons_append, argumentsBy, if_neg hw, ← List.cons_append, ih h,
        argumentsBy, if_neg hw, List.cons_append]

theorem arguments_file (hop : isRedirection op = true) (file : Word) (l : List Word) :
    arguments (op :: file :: l) = arguments l := by
  unfold arguments
  rw [argumentsBy, if_pos hop]

/-- The last operator of a task that has one. -/
theorem exists_last (h : ¬ ∀ w ∈ task, isRedirection w = false) :
    ∃ a op b, task = a ++ op :: b ∧ isRedirection op = true ∧
      ∀ w ∈ b, isRedirection w = false := by
  induction task with
  | nil => exact absurd (by simp) h
  | cons w task ih =>
      by_cases hrest : ∀ x ∈ task, isRedirection x = false
      · refine ⟨[], w, task, rfl, ?_, hrest⟩
        by_contra hw
        exact h (List.forall_mem_cons.mpr ⟨by simpa using hw, hrest⟩)
      · obtain ⟨a, op, b, rfl, hop, hb⟩ := ih hrest
        exact ⟨w :: a, op, b, rfl, hop, hb⟩

theorem lastIndex_last (hop : isRedirection op = true)
    (hb : ∀ w ∈ b, isRedirection w = false) :
    lastIndex isRedirection 0 0 (a ++ op :: b) = a.length := by
  rw [lastIndex_append, lastIndex, if_pos hop, lastIndex_none hb, Nat.zero_add]

theorem served_plain (hplain : ∀ w ∈ task, isRedirection w = false) :
    Served pathResolve task (execution pathResolve task 0) where
  args := (arguments_plain hplain).symm
  program := by
    rw [arguments_plain hplain]
    rfl
  plain := fun _ => ⟨rfl, rfl⟩

/-- A task that is cut off at a redirection at its end. -/
theorem AtEnd.served (h : AtEnd task) (hlast : ∀ w ∈ task.getLast?, isRedirection w = false) :
    Served pathResolve task (execution pathResolve task (lastIndex isRedirection 0 0 task)) := by
  rcases h with hplain | ⟨args, op, file, rfl, hop, hne, hnone⟩
  · rw [lastIndex_none hplain]
    exact served_plain hplain
  · have hfile : isRedirection file = false := hlast file (by simp)
    have hpos := List.length_pos_iff.mpr hne
    have hargs : arguments (args ++ [op, file]) = args := by
      rw [arguments_append fun w hw => hnone w (List.mem_of_getLast? hw), arguments_file hop,
        arguments_plain hnone]
      exact List.append_nil args
    rw [lastIndex_last hop (by simpa using hfile)]
    refine ⟨?_, ?_, fun h => ?_⟩
    · rw [hargs]
      unfold execution
      dsimp only
      rw [if_pos (by omega), List.take_left]
    · rw [hargs]
      unfold execution
      dsimp only
      rw [List.head?_append_of_ne_nil _ hne]
    · -- it has a redirection
      have hnot := h op (by simp)
      rw [hop] at hnot
      cases hnot

/-- The words up to the last operator are those without the redirections only if there is no
other operator and nothing behind the file name. -/
theorem Served.atEnd {file : Word} (hop : isRedirection op = true)
    (hb : ∀ w ∈ file :: b, isRedirection w = false)
    (hbefore : ∀ w ∈ a.getLast?, isRedirection w = false)
    (h : Served pathResolve (a ++ op :: file :: b)
      (execution pathResolve (a ++ op :: file :: b) a.length)) : AtEnd (a ++ op :: file :: b) := by
  have hrest : ∀ w ∈ b, isRedirection w = false := fun w hw => hb w (List.mem_cons_of_mem _ hw)
  have hargs : arguments (a ++ op :: file :: b) = arguments a ++ b := by
    rw [arguments_append hbefore, arguments_file hop, arguments_plain hrest]
  have hcut := h.args
  rw [hargs] at hcut
  unfold execution at hcut
  dsimp only at hcut
  right
  by_cases hnil : a = []
  · subst hnil
    rw [if_neg (by simp)] at hcut
    have hcount := congrArg List.length hcut
    simp [arguments, argumentsBy] at hcount
    omega
  · have hpos := List.length_pos_iff.mpr hnil
    rw [if_pos (by omega), List.take_left] at hcut
    have hnone : ∀ w ∈ a, isRedirection w = false := by
      intro w hw
      rw [hcut] at hw
      rcases List.mem_append.mp hw with hw | hw
      · exact not_op_of_mem_argumentsBy hw
      · exact hrest w hw
    rw [arguments_plain hnone] at hcut
    have hbnil : b = [] := by simpa using hcut
    exact ⟨a, op, file, by rw [hbnil], hop, hnil, hnone⟩

/-- A task that is cut off at its last operator is executed with the right words if and only if
nothing but the file name is behind the operator, and something is before it. -/
theorem served_iff
    (hchain : task.IsChain fun w x => isRedirection w = true → isRedirection x = false)
    (hlast : ∀ w ∈ task.getLast?, isRedirection w = false) :
    Served pathResolve task (execution pathResolve task (lastIndex isRedirection 0 0 task)) ↔
      AtEnd task := by
  refine ⟨fun h => ?_, fun h => h.served hlast⟩
  by_cases hplain : ∀ w ∈ task, isRedirection w = false
  · exact Or.inl hplain
  obtain ⟨a, op, b, rfl, hop, hb⟩ := exists_last hplain
  rw [lastIndex_last hop hb] at h
  -- The file name is behind the operator, and no operator is right before it.
  obtain ⟨file, b, rfl⟩ : ∃ file b', b = file :: b' := by
    cases b with
    | nil =>
        have hnot := hlast op (by simp)
        rw [hop] at hnot
        cases hnot
    | cons file b => exact ⟨file, b, rfl⟩
  have hbefore : ∀ w ∈ a.getLast?, isRedirection w = false := by
    intro w hw
    by_contra hnot
    have hnext := (List.isChain_append.mp hchain).2.2 w hw op rfl (by simpa using hnot)
    rw [hop] at hnext
    cases hnext
  exact Served.atEnd hop hb hbefore h

theorem lastIndex_congr {op op' : Word → Bool} {k last : Nat} (h : ∀ w ∈ l, op w = op' w) :
    lastIndex op k last l = lastIndex op' k last l := by
  induction l generalizing k last with
  | nil => rfl
  | cons w l ih =>
      obtain ⟨hw, hl⟩ := List.forall_mem_cons.mp h
      rw [lastIndex, lastIndex, hw, ih hl]

theorem lastIndex_less (h : GREATER ∉ task) :
    lastIndex (· = LESS) 0 0 task = lastIndex isRedirection 0 0 task := by
  refine lastIndex_congr fun w hw => ?_
  have hne : w ≠ GREATER := fun heq => h (heq ▸ hw)
  unfold isRedirection
  simp [hne]

theorem lastIndex_greater (h : LESS ∉ task) :
    lastIndex (· = GREATER) 0 0 task = lastIndex isRedirection 0 0 task := by
  refine lastIndex_congr fun w hw => ?_
  have hne : w ≠ LESS := fun heq => h (heq ▸ hw)
  unfold isRedirection
  simp [hne]

theorem lastIndex_absent {op : Word} (h : op ∉ task) : lastIndex (· = op) 0 0 task = 0 :=
  lastIndex_none fun w hw => by
    have hne : w ≠ op := fun heq => h (heq ▸ hw)
    simp [hne]

/-- With `<` in the first task only and `>` in the last, each task is cut off at its own last
operator. -/
theorem stageRuns_eq {n k input : Nat} {later : List (List Word)} (hn : 2 ≤ n)
    (hstart : k = 0 → input = 0) (hlen : k + later.length = n)
    (hless : ∀ i task, later[i]? = some task → LESS ∈ task → k + i = 0)
    (hgreater : ∀ i task, later[i]? = some task → GREATER ∈ task → k + i + 1 = n) :
    stageRuns pathResolve n k input 0 later =
      later.map fun task => execution pathResolve task (lastIndex isRedirection 0 0 task) := by
  induction later generalizing k input with
  | nil => rfl
  | cons task later ih =>
      rw [List.length_cons] at hlen
      have hless₀ := hless 0 task rfl
      have hgreater₀ := hgreater 0 task rfl
      rw [stageRuns, List.map_cons]
      congr 1
      · congr 1
        by_cases hfirst : k = 0
        · rw [if_pos hfirst, hstart hfirst]
          exact lastIndex_less fun h => absurd (hgreater₀ h) (by omega)
        · have hno : LESS ∉ task := fun h => hfirst (by simpa using hless₀ h)
          rw [if_neg hfirst, ← lastIndex_greater hno]
          split
          · rfl
          · exact (lastIndex_absent fun h => absurd (hgreater₀ h) (by omega)).symm
      · cases later with
        | nil => rfl
        | cons next later =>
            rw [List.length_cons] at hlen
            rw [lastIndex_absent fun h => absurd (hgreater₀ h) (by omega)]
            refine ih (by omega) (by rw [List.length_cons]; omega) (fun i x hx hmem => ?_)
              fun i x hx hmem => ?_
            · have := hless (i + 1) x hx hmem
              omega
            · have := hgreater (i + 1) x hx hmem
              omega

end Tasks

/-- **Which pipelines are executed as written**: for every well-formed pipeline, each task is
executed with its own words exactly if the words fit into the arrays and every redirection is
the only one of its task and comes behind all the words of it. -/
theorem stages_iff (pathResolve : Option Word → Option Word) {tokens : List Word}
    (h : WellFormed tokens) :
    (∃ runs, executions pathResolve tokens (numTasks tokens) = .ok runs ∧
      List.Forall₂ (Served pathResolve) (tasks tokens) runs) ↔
      PipelineFits tokens ∧ ∀ task ∈ tasks tokens, AtEnd task := by
  have hcount := length_tasks tokens
  have hmany := numTasks_gt_one.mpr h.piped
  have hruns : stageRuns pathResolve (numTasks tokens) 0 0 0 (tasks tokens) =
      (tasks tokens).map fun task =>
        execution pathResolve task (lastIndex isRedirection 0 0 task) := by
    refine stageRuns_eq (by omega) (fun _ => rfl) (by omega) (fun i task hi hmem => ?_)
      fun i task hi hmem => ?_
    · rw [Nat.zero_add]
      exact h.input i task hi hmem
    · rw [Nat.zero_add, ← hcount]
      exact h.output i task hi hmem
  have hserved : List.Forall₂ (Served pathResolve) (tasks tokens)
      (stageRuns pathResolve (numTasks tokens) 0 0 0 (tasks tokens)) ↔
        ∀ task ∈ tasks tokens, AtEnd task := by
    rw [hruns, List.forall₂_map_right_iff, List.forall₂_same]
    refine forall₂_congr fun task htask => ?_
    obtain ⟨hchain, hlast⟩ := h.files task htask
    exact served_iff hchain hlast
  constructor
  · rintro ⟨runs, hok, hall⟩
    obtain ⟨hfits, rfl⟩ := (executions_eq pathResolve tokens runs).mp hok
    exact ⟨hfits, hserved.mp hall⟩
  · rintro ⟨hfits, hall⟩
    exact ⟨_, (executions_eq pathResolve tokens _).mpr ⟨hfits, rfl⟩, hserved.mpr hall⟩

/-- `cat < f | wc` is executed as written. -/
theorem stages_iff_cat :
    ∃ runs, executions (fun w => w) [[99, 97, 116], LESS, [102], PIPE, [119, 99]] 2 = .ok runs ∧
      List.Forall₂ (Served fun w => w) [[[99, 97, 116], LESS, [102]], [[119, 99]]] runs := by
  have htasks : tasks [[99, 97, 116], LESS, [102], PIPE, [119, 99]] =
      [[[99, 97, 116], LESS, [102]], [[119, 99]]] := by decide
  have hwell : WellFormed [[99, 97, 116], LESS, [102], PIPE, [119, 99]] := by
    refine ⟨by decide, ?_, ?_, ?_, ?_⟩
    · rw [htasks]
      decide
    · rw [htasks]
      decide
    · rw [htasks]
      rintro (_ | _ | i) task hi hmem
      · rfl
      · obtain rfl := Option.some.inj hi
        exact absurd hmem (by decide)
      · cases hi
    · rw [htasks]
      rintro (_ | _ | i) task hi hmem
      · obtain rfl := Option.some.inj hi
        exact absurd hmem (by decide)
      · rfl
      · cases hi
  have hresult := (stages_iff (fun w => w) hwell).mpr ⟨⟨by decide, by decide⟩, ?_⟩
  · rw [htasks] at hresult
    exact hresult
  · rw [htasks]
    rintro task (_ | ⟨_, _ | ⟨_, hnone⟩⟩)
    · exact Or.inr ⟨[[99, 97, 116]], LESS, [102], rfl, by decide, by decide, by decide⟩
    · exact Or.inl (by decide)
    · cases hnone

/-- In `cat < f -n | wc` the word `-n` is lost. -/
theorem stages_lose_word :
    WellFormed [[99, 97, 116], LESS, [102], [45, 110], PIPE, [119, 99]] ∧
      ¬ ∃ runs, executions (fun w => w)
          [[99, 97, 116], LESS, [102], [45, 110], PIPE, [119, 99]] 2 = .ok runs ∧
        List.Forall₂ (Served fun w => w)
          (tasks [[99, 97, 116], LESS, [102], [45, 110], PIPE, [119, 99]]) runs := by
  have htasks : tasks [[99, 97, 116], LESS, [102], [45, 110], PIPE, [119, 99]] =
      [[[99, 97, 116], LESS, [102], [45, 110]], [[119, 99]]] := by decide
  refine ⟨⟨by decide, ?_, ?_, ?_, ?_⟩, ?_⟩
  · rw [htasks]
    decide
  · rw [htasks]
    decide
  · rw [htasks]
    rintro (_ | _ | i) task hi hmem
    · rfl
    · obtain rfl := Option.some.inj hi
      exact absurd hmem (by decide)
    · cases hi
  · rw [htasks]
    rintro (_ | _ | i) task hi hmem
    · obtain rfl := Option.some.inj hi
      exact absurd hmem (by decide)
    · rfl
    · cases hi
  · rintro ⟨runs, hok, hall⟩
    obtain ⟨-, rfl⟩ := (executions_eq (fun w => w) _ runs).mp hok
    rw [htasks] at hall
    cases hall with
    | cons hfirst _ => exact absurd hfirst.args (by decide)

end OsTools.Shell

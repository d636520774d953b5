import Mathlib.Algebra.Order.BigOperators.Group.List
import Mathlib.Algebra.Order.Group.Nat
import OsTools.Lib.Count
import OsTools.Shell.Pipeline
/-!
# OsTools.Shell.Deadlock

The stages of a pipeline run one after the other, each in front of the pipe that it writes
to, which nobody reads from until it has ended. This is the invariant `Inv` here.

From it, a stage can go on if the pipe can hold all that it writes (`Inv.progress`), and a
stage that has ended has written no more than that. As there are no infinite runs, a
pipeline with a stage that writes more comes to a deadlock.

## Proof shape

`Inv` describes all the processes: the executer, which is at some task, and the stages, of
which all but the last one forked have ended. Who holds which end of a pipe follows from the
position in the code (`Ends`, `Closing`). Every step of the relation keeps the invariant,
first the steps of one process (`Executer.local`, `Stage.local`), then forks and waits.

Progress is by cases: the executer can go on unless it waits, and it waits for the one stage
that has not ended; a stage can go on unless the pipe behind it is full, since the pipe
before it has no writer any more (`Inv.no_writer`), so that a read returns. For the
converse, a measure decreases in every step (`Step.totalWeight_lt`), so that a run without a
deadlock reaches the end, where each stage has written all its bytes into a pipe that nobody
has read from.
-/

namespace OsTools.Shell.Pipeline

/-! ### The invariant -/

/-- The ends of a process: it can read from the pipes from `r` on, and cannot write to those
before `w`. -/
structure Ends (numTasks r w : Nat) (fds : List End) : Prop where
  readers : ∀ j, j + 1 < numTasks → r ≤ j → .reader j ∈ fds
  writers : ∀ j, j + 1 < numTasks → j < w → .writer j ∉ fds

/-- The ends of a process while it closes some. -/
structure Closing (numTasks task : Nat) (ends fds : List End) : Prop extends
    Ends numTasks task task fds where
  keeps : ∀ j, task ≤ j → .reader j ∉ ends
  drops : task + 1 < numTasks → .writer task ∈ fds → .writer task ∈ ends

/-- The first `n` stages are over. -/
def AllReaped (procs : List Proc) (n : Nat) : Prop :=
  ∀ t a, t < n → procs[t + 1]? = some a → a.reaped = true

/-- Where the process of `pipe_executer2` is with so many stages forked. -/
def AtTask (numTasks : Nat) (procs : List Proc) (fds : List End) : Ctl → Prop
  | .fork task => procs.length = task + 1 ∧ task ≤ numTasks ∧ AllReaped procs task ∧
      Ends numTasks task task fds
  | .close task ends => procs.length = task + 2 ∧ task < numTasks ∧ AllReaped procs task ∧
      Closing numTasks task ends fds
  | .wait task c => procs.length = task + 2 ∧ task < numTasks ∧ AllReaped procs task ∧
      Ends numTasks task (task + 1) fds ∧ (c = numTasks ∨ AllReaped procs (task + 1))
  | .exited => procs.length = numTasks + 1 ∧ AllReaped procs numTasks
  | _ => False

/-- The process of `pipe_executer2`. -/
structure Executer (numTasks : Nat) (procs : List Proc) (a : Proc) : Prop where
  stage : a.stage = none
  parent : a.parent = none
  stdin : a.stdin = none
  stdout : a.stdout = none
  atTask : AtTask numTasks procs a.fds a.ctl

section Invariant

variable (numTasks capacity : Nat) (script : Nat → List Act)

/-- How far a stage is, and what is in the pipe that it writes to. -/
def Progress (t : Nat) (content : Nat → Nat) (stdin stdout : Option Nat) : Ctl → Prop
  | .child task => task = t ∧ content t = 0 ∧ stdin = none ∧ stdout = none
  | .run acts => stdin = input t none ∧ stdout = output numTasks t none ∧
      (t + 1 < numTasks → content t + acts.count .write = (script t).count .write)
  | .exited => t + 1 < numTasks → (script t).count .write ≤ capacity
  | _ => False

/-- The process of a stage. -/
structure Stage (t : Nat) (content : Nat → Nat) (a : Proc) : Prop where
  stage : a.stage = some t
  parent : a.parent = some 0
  ends : Ends numTasks t t a.fds
  ended : a.reaped = true → a.ctl = .exited
  progress : Progress numTasks capacity script t content a.stdin a.stdout a.ctl

/-- The processes are that of `pipe_executer2` and, behind it, the stages in order. Nothing
was written to the pipes of the stages to come. -/
structure Inv (s : State) : Prop where
  executer : ∃ a, s.procs[0]? = some a ∧ Executer numTasks s.procs a
  stages : ∀ t a, s.procs[t + 1]? = some a → Stage numTasks capacity script t s.content a
  fresh : ∀ j, s.procs.length ≤ j + 1 → s.content j = 0
  bound : ∀ j, s.content j ≤ capacity

end Invariant

section Lemmas

variable {numTasks capacity : Nat} {script : Nat → List Act} {s : State}
  {procs : List Proc} {p t n : Nat} {a b e : Proc}

theorem AllReaped.set (h : AllReaped procs n) (ha : procs[p]? = some a)
    (hreaped : a.reaped = true → b.reaped = true) : AllReaped (procs.set p b) n := by
  intro t c ht hc
  by_cases hp : p = t + 1
  · subst hp
    rw [List.getElem?_set_self (List.getElem?_eq_some_iff.mp ha).1] at hc
    cases hc
    exact hreaped (h t a ht ha)
  · rw [List.getElem?_set_ne hp] at hc
    exact h t c ht hc

theorem AllReaped.append (h : AllReaped procs n) (hn : n < procs.length) :
    AllReaped (procs ++ [b]) n := by
  intro t c ht hc
  rw [List.getElem?_append_left (by omega)] at hc
  exact h t c ht hc

/-- One more stage is over. -/
theorem AllReaped.succ (h : AllReaped procs n) (ha : procs[n + 1]? = some a)
    (hreaped : a.reaped = true) : AllReaped procs (n + 1) := by
  intro t c ht hc
  rcases Nat.lt_succ_iff_lt_or_eq.mp ht with hlt | rfl
  · exact h t c hlt hc
  · rw [ha] at hc
    cases hc
    exact hreaped

/-- What becomes of the stages matters to the executer only as far as they are over. -/
theorem Executer.set (h : Executer numTasks procs e) (ha : procs[p]? = some a)
    (hreaped : a.reaped = true → b.reaped = true) : Executer numTasks (procs.set p b) e := by
  refine ⟨h.stage, h.parent, h.stdin, h.stdout, ?_⟩
  have hat := h.atTask
  cases hctl : e.ctl with
  | fork task =>
      rw [hctl] at hat
      obtain ⟨hlen, hle, hall, hends⟩ := hat
      exact ⟨by rw [List.length_set, hlen], hle, hall.set ha hreaped, hends⟩
  | close task ends =>
      rw [hctl] at hat
      obtain ⟨hlen, hlt, hall, hends⟩ := hat
      exact ⟨by rw [List.length_set, hlen], hlt, hall.set ha hreaped, hends⟩
  | wait task c =>
      rw [hctl] at hat
      obtain ⟨hlen, hlt, hall, hends, hc⟩ := hat
      exact ⟨by rw [List.length_set, hlen], hlt, hall.set ha hreaped, hends,
        hc.imp_right fun h => h.set ha hreaped⟩
  | exited =>
      rw [hctl] at hat
      obtain ⟨hlen, hall⟩ := hat
      exact ⟨by rw [List.length_set, hlen], hall.set ha hreaped⟩
  | child task =>
      rw [hctl] at hat
      exact hat.elim
  | run acts =>
      rw [hctl] at hat
      exact hat.elim

/-- A step of the executer. -/
theorem Inv.setExecuter (h : Inv numTasks capacity script s) (ha : s.procs[0]? = some a)
    (hb : Executer numTasks s.procs b) (hreaped : b.reaped = a.reaped) :
    Inv numTasks capacity script { s with procs := s.procs.set 0 b } where
  executer := by
    refine ⟨b, List.getElem?_set_self (List.getElem?_eq_some_iff.mp ha).1, ?_⟩
    exact hb.set ha fun hover => hreaped.trans hover
  stages t c hc := by
    rw [List.getElem?_set_ne (by omega)] at hc
    exact h.stages t c hc
  fresh j hj := by
    rw [List.length_set] at hj
    exact h.fresh j hj
  bound := h.bound

/-- A stage that has not ended is the last one that was forked, and the executer cannot write
to the pipes before it. -/
theorem Inv.current (h : Inv numTasks capacity script s) (ha : s.procs[t + 1]? = some a)
    (hlive : a.ctl ≠ .exited) : t < numTasks ∧ s.procs.length = t + 2 ∧ ∀ e,
      s.procs[0]? = some e → e.stdout = none ∧ ∀ j, j + 1 < numTasks → j < t →
        .writer j ∉ e.fds := by
  have hlt := (List.getElem?_eq_some_iff.mp ha).1
  have hlast : ∀ n, AllReaped s.procs n → n ≤ t := by
    intro n hall
    by_contra hn
    exact hlive ((h.stages t a ha).ended (hall t a (by omega) ha))
  obtain ⟨e, he, hexecuter⟩ := h.executer
  have hat := hexecuter.atTask
  suffices hsuff : t < numTasks ∧ s.procs.length = t + 2 ∧
      ∀ j, j + 1 < numTasks → j < t → .writer j ∉ e.fds by
    refine ⟨hsuff.1, hsuff.2.1, fun e' he' => ?_⟩
    rw [he] at he'
    cases he'
    exact ⟨hexecuter.stdout, hsuff.2.2⟩
  cases hctl : e.ctl with
  | fork task =>
      rw [hctl] at hat
      obtain ⟨hlen, -, hall, -⟩ := hat
      have := hlast _ hall
      omega
  | close task ends =>
      rw [hctl] at hat
      obtain ⟨hlen, htask, hall, hends⟩ := hat
      have := hlast _ hall
      obtain rfl : task = t := by omega
      exact ⟨htask, hlen, hends.writers⟩
  | wait task c =>
      rw [hctl] at hat
      obtain ⟨hlen, htask, hall, hends, -⟩ := hat
      have := hlast _ hall
      obtain rfl : task = t := by omega
      exact ⟨htask, hlen, fun j hj hlt => hends.writers j hj (by omega)⟩
  | exited =>
      rw [hctl] at hat
      obtain ⟨hlen, hall⟩ := hat
      have := hlast _ hall
      omega
  | child task =>
      rw [hctl] at hat
      exact hat.elim
  | run acts =>
      rw [hctl] at hat
      exact hat.elim

/-- What is in the pipes does not matter to a stage that has ended. -/
theorem Stage.of_exited {content content' : Nat → Nat}
    (h : Stage numTasks capacity script t content a) (hctl : a.ctl = .exited) :
    Stage numTasks capacity script t content' a := by
  refine ⟨h.stage, h.parent, h.ends, h.ended, ?_⟩
  have hprogress := h.progress
  rw [hctl] at hprogress ⊢
  exact hprogress

/-- A step of the stage at hand. -/
theorem Inv.setStage (h : Inv numTasks capacity script s) (ha : s.procs[t + 1]? = some a)
    (hlive : a.ctl ≠ .exited) {content : Nat → Nat}
    (hb : Stage numTasks capacity script t content b) (hreaped : b.reaped = a.reaped)
    (hfresh : ∀ j, t < j → content j = s.content j) (hbound : ∀ j, content j ≤ capacity) :
    Inv numTasks capacity script ⟨s.procs.set (t + 1) b, content⟩ := by
  obtain ⟨-, hlen, -⟩ := h.current ha hlive
  refine ⟨?_, fun t' c hc => ?_, fun j hj => ?_, hbound⟩
  · obtain ⟨e, he, hexecuter⟩ := h.executer
    refine ⟨e, by rw [List.getElem?_set_ne (by omega), he], ?_⟩
    exact hexecuter.set ha fun hover => hreaped.trans hover
  · by_cases ht : t + 1 = t' + 1
    · obtain rfl : t = t' := by omega
      rw [List.getElem?_set_self (List.getElem?_eq_some_iff.mp ha).1] at hc
      cases hc
      exact hb
    · rw [List.getElem?_set_ne ht] at hc
      refine (h.stages t' c hc).of_exited ?_
      by_contra hne
      have := (h.current hc hne).2.1
      omega
  · rw [List.length_set, hlen] at hj
    exact (hfresh j (by omega)).trans (h.fresh j (by omega))

/-! ### The ends of the pipes -/

theorem mem_closes {e : End} (hk : 2 ≤ numTasks) (he : e ∈ closes numTasks t) :
    ∀ j, t ≤ j → e ≠ .reader j := by
  intro j hj
  unfold closes at he
  split_ifs at he with hzero hlast
  · rw [List.mem_singleton.mp he]
    exact nofun
  · rw [List.mem_singleton.mp he]
    intro heq
    injection heq
    omega
  · rcases List.mem_cons.mp he with rfl | he
    · intro heq
      injection heq
      omega
    · rw [List.mem_singleton.mp he]
      exact nofun

theorem writer_mem_closes (ht : t + 1 < numTasks) : .writer t ∈ closes numTasks t := by
  unfold closes
  split_ifs with hzero hlast
  · exact List.mem_singleton_self _
  · omega
  · exact List.mem_cons_of_mem _ (List.mem_singleton_self _)

/-- Behind the fork the ends are to be closed. -/
theorem Ends.closing {fds : List End} (h : Ends numTasks t t fds) (hk : 2 ≤ numTasks) :
    Closing numTasks t (closes numTasks t) fds where
  toEnds := h
  keeps j hj hmem := mem_closes hk hmem j hj rfl
  drops hlt _ := writer_mem_closes hlt

theorem Closing.close {e : End} {ends fds : List End}
    (h : Closing numTasks t (e :: ends) fds) :
    Closing numTasks t ends (fds.filter (· ≠ e)) where
  readers j hj ht := by
    refine List.mem_filter.mpr ⟨h.readers j hj ht, ?_⟩
    have hne : .reader j ≠ e := by
      intro heq
      exact h.keeps j ht (heq ▸ List.mem_cons_self)
    exact decide_eq_true hne
  writers j hj ht hmem := h.writers j hj ht (List.mem_of_mem_filter hmem)
  keeps j hj hmem := h.keeps j hj (List.mem_cons_of_mem _ hmem)
  drops hlt hmem := by
    obtain ⟨hfds, hne⟩ := List.mem_filter.mp hmem
    rcases List.mem_cons.mp (h.drops hlt hfds) with heq | hends
    · exact absurd heq (of_decide_eq_true hne)
    · exact hends

/-- All are closed. -/
theorem Closing.closed {fds : List End} (h : Closing numTasks t [] fds) :
    Ends numTasks t (t + 1) fds where
  readers := h.readers
  writers j hj ht := by
    rcases Nat.lt_succ_iff_lt_or_eq.mp ht with hlt | rfl
    · exact h.writers j hj hlt
    · exact fun hmem => nomatch h.drops hj hmem

theorem Ends.next {fds : List End} (h : Ends numTasks t (t + 1) fds) :
    Ends numTasks (t + 1) (t + 1) fds :=
  ⟨fun j hj ht => h.readers j hj (by omega), h.writers⟩

theorem output_none (hk : 2 ≤ numTasks) (ht : t < numTasks) :
    output numTasks t none = if t + 1 < numTasks then some t else none := by
  unfold output
  split_ifs <;> first | rfl | omega

/-! ### The steps keep the invariant -/

/-- What the executer does on its own. -/
theorem Executer.local (h : Executer numTasks procs a)
    (hmove : Local numTasks script a false b) :
    Executer numTasks procs b ∧ b.reaped = a.reaped := by
  have hat := h.atTask
  cases hmove with
  | close hctl =>
      rw [hctl] at hat
      obtain ⟨hlen, hlt, hall, hends⟩ := hat
      exact ⟨⟨h.stage, h.parent, h.stdin, h.stdout, hlen, hlt, hall, hends.close⟩, rfl⟩
  | closed hctl =>
      rw [hctl] at hat
      obtain ⟨hlen, hlt, hall, hends⟩ := hat
      exact ⟨⟨h.stage, h.parent, h.stdin, h.stdout, hlen, hlt, hall, hends.closed, .inl rfl⟩, rfl⟩
  | next hctl =>
      rw [hctl] at hat
      obtain ⟨hlen, hlt, hall, hends, hc⟩ := hat
      have hover := hc.resolve_left (by omega)
      exact ⟨⟨h.stage, h.parent, h.stdin, h.stdout, hlen, hlt, hover, hends.next⟩, rfl⟩
  | @done task hctl htask =>
      rw [hctl] at hat
      obtain ⟨hlen, hle, hall, -⟩ := hat
      obtain rfl : task = numTasks := by omega
      exact ⟨⟨h.stage, h.parent, h.stdin, h.stdout, hlen, hall⟩, rfl⟩
  | exec hctl =>
      rw [hctl] at hat
      exact hat.elim
  | read hctl _ =>
      rw [hctl] at hat
      exact hat.elim
  | write hctl _ =>
      rw [hctl] at hat
      exact hat.elim
  | exit hctl =>
      rw [hctl] at hat
      exact hat.elim

/-- What a stage does on its own keeps what is said of it: a stage that is alive runs its
script or closes its ends, and only the parent is ever in the other branch. -/
theorem Stage.local {content : Nat → Nat} (h : Stage numTasks capacity script t content a)
    (hk : 2 ≤ numTasks) (ht : t < numTasks) (hbound : content t ≤ capacity)
    (hmove : Local numTasks script a false b) :
    Stage numTasks capacity script t content b ∧ b.reaped = a.reaped ∧ a.ctl ≠ .exited := by
  have hprogress := h.progress
  have hover : a.ctl ≠ .exited → a.reaped = true → b.ctl = .exited :=
    fun hne hreaped => absurd (h.ended hreaped) hne
  cases hmove with
  | close hctl =>
      -- a stage is never in the branch of the parent
      rw [hctl] at hprogress
      exact hprogress.elim
  | closed hctl =>
      rw [hctl] at hprogress
      exact hprogress.elim
  | next hctl =>
      rw [hctl] at hprogress
      exact hprogress.elim
  | done hctl _ =>
      rw [hctl] at hprogress
      exact hprogress.elim
  | exec hctl =>
      have hne : a.ctl ≠ .exited := by
        rw [hctl]
        exact nofun
      rw [hctl] at hprogress
      obtain ⟨rfl, hcontent, hstdin, hstdout⟩ := hprogress
      refine ⟨⟨h.stage, h.parent, h.ends, hover hne, ?_, ?_, fun _ => ?_⟩, rfl, hne⟩
      · rw [hstdin]
      · rw [hstdout]
      · rw [hcontent, Nat.zero_add]
  | read hctl hnone =>
      have hne : a.ctl ≠ .exited := by
        rw [hctl]
        exact nofun
      rw [hctl] at hprogress
      obtain ⟨hstdin, hstdout, hcount⟩ := hprogress
      refine ⟨⟨h.stage, h.parent, h.ends, hover hne, hstdin, hstdout, fun hlt => ?_⟩, rfl, hne⟩
      simpa using hcount hlt
  | write hctl hnone =>
      have hne : a.ctl ≠ .exited := by
        rw [hctl]
        exact nofun
      rw [hctl] at hprogress
      obtain ⟨hstdin, hstdout, hcount⟩ := hprogress
      refine ⟨⟨h.stage, h.parent, h.ends, hover hne, hstdin, hstdout, fun hlt => ?_⟩, rfl, hne⟩
      rw [output_none hk ht, if_pos hlt, hnone] at hstdout
      cases hstdout
  | exit hctl =>
      have hne : a.ctl ≠ .exited := by
        rw [hctl]
        exact nofun
      rw [hctl] at hprogress
      obtain ⟨-, -, hcount⟩ := hprogress
      refine ⟨⟨h.stage, h.parent, h.ends, fun _ => rfl, fun hlt => ?_⟩, rfl, hne⟩
      rw [← hcount hlt]
      simpa using hbound

/-- A process that runs a program is a stage. -/
theorem Inv.running (h : Inv numTasks capacity script s) (hk : 2 ≤ numTasks)
    (ha : s.procs[p]? = some a) {acts : List Act} (hctl : a.ctl = .run acts) :
    ∃ t, p = t + 1 ∧ t < numTasks ∧ Stage numTasks capacity script t s.content a ∧
      a.stdin = input t none ∧ a.stdout = (if t + 1 < numTasks then some t else none) ∧
      (t + 1 < numTasks → s.content t + acts.count .write = (script t).count .write) := by
  cases p with
  | zero =>
      obtain ⟨e, he, hexecuter⟩ := h.executer
      rw [ha] at he
      cases he
      have hat := hexecuter.atTask
      rw [hctl] at hat
      exact hat.elim
  | succ t =>
      have hstage := h.stages t a ha
      have hlive : a.ctl ≠ .exited := by
        rw [hctl]
        exact nofun
      have ht := (h.current ha hlive).1
      have hprogress := hstage.progress
      rw [hctl] at hprogress
      obtain ⟨hstdin, hstdout, hcount⟩ := hprogress
      rw [output_none hk ht] at hstdout
      exact ⟨t, rfl, ht, hstage, hstdin, hstdout, hcount⟩

/-- A process in the loop of `pipe_executer2` is the executer. -/
theorem Inv.looping (h : Inv numTasks capacity script s) (ha : s.procs[p]? = some a)
    {task c : Nat} (hctl : a.ctl = .fork task ∨ a.ctl = .wait task c) :
    p = 0 ∧ Executer numTasks s.procs a := by
  cases p with
  | zero =>
      obtain ⟨e, he, hexecuter⟩ := h.executer
      rw [ha] at he
      cases he
      exact ⟨rfl, hexecuter⟩
  | succ t =>
      have hprogress := (h.stages t a ha).progress
      rcases hctl with hctl | hctl
      all_goals
        rw [hctl] at hprogress
        exact hprogress.elim

/-- The executer forks the next stage. -/
theorem Inv.fork (h : Inv numTasks capacity script s) (hk : 2 ≤ numTasks)
    (ha : s.procs[0]? = some a) {task : Nat} (hctl : a.ctl = .fork task)
    (htask : task < numTasks) :
    Inv numTasks capacity script { s with
      procs := s.procs.set 0 { a with ctl := .close task (closes numTasks task) } ++
        [{ a with parent := some 0, stage := some task, ctl := .child task, reaped := false }] } := by
  have hexecuter := (h.looping (c := 0) ha (.inl hctl)).2
  have hat := hexecuter.atTask
  rw [hctl] at hat
  obtain ⟨hlen, hle, hall, hends⟩ := hat
  refine ⟨⟨{ a with ctl := .close task (closes numTasks task) }, ?_, hexecuter.stage,
    hexecuter.parent, hexecuter.stdin, hexecuter.stdout, ?_, htask, ?_, hends.closing hk⟩,
    fun t c hc => ?_,
    fun j hj => ?_, h.bound⟩
  · rw [List.getElem?_append_left (by rw [List.length_set]; omega)]
    exact List.getElem?_set_self (by omega)
  · simp [hlen]
  · refine (hall.set ha ?_).append ?_
    · exact id
    · rw [List.length_set]
      omega
  · by_cases ht : t < task
    · rw [List.getElem?_append_left (by rw [List.length_set]; omega),
        List.getElem?_set_ne (by omega)] at hc
      exact h.stages t c hc
    · rw [List.getElem?_append_right (by rw [List.length_set]; omega)] at hc
      have hlt := (List.getElem?_eq_some_iff.mp hc).1
      rw [List.length_set, List.length_singleton] at hlt
      obtain rfl : t = task := by omega
      rw [List.mem_singleton.mp (List.mem_of_getElem? hc)]
      exact ⟨rfl, rfl, hends, nofun, rfl, h.fresh t (by omega), hexecuter.stdin,
        hexecuter.stdout⟩
  · rw [List.length_append, List.length_set] at hj
    exact h.fresh j (by omega)

/-- The executer has waited, and it was for the stage at hand. -/
theorem Inv.waited (h : Inv numTasks capacity script s) (ha : s.procs[0]? = some a)
    {task c : Nat} (hctl : a.ctl = .wait task (c + 1))
    (hover : ∀ b, s.procs[task + 1]? = some b → b.reaped = true) :
    Inv numTasks capacity script { s with procs := s.procs.set 0 { a with ctl := .wait task c } } := by
  have hexecuter := (h.looping ha (.inr hctl)).2
  have hat := hexecuter.atTask
  rw [hctl] at hat
  obtain ⟨hlen, hlt, hall, hends, -⟩ := hat
  refine h.setExecuter ha ⟨hexecuter.stage, hexecuter.parent, hexecuter.stdin, hexecuter.stdout,
    hlen, hlt, hall, hends, .inr ?_⟩ rfl
  obtain ⟨b, hb⟩ : ∃ b, s.procs[task + 1]? = some b := ⟨_, List.getElem?_eq_getElem (by omega)⟩
  exact hall.succ hb (hover b hb)

/-- A stage that has ended is reaped. -/
theorem Inv.setReaped (h : Inv numTasks capacity script s) (ha : s.procs[t + 1]? = some a)
    (hexited : a.ctl = .exited) : Inv numTasks capacity script
      { s with procs := s.procs.set (t + 1) { a with reaped := true } } := by
  refine ⟨?_, fun t' c hc => ?_, fun j hj => ?_, h.bound⟩
  · obtain ⟨e, he, hexecuter⟩ := h.executer
    refine ⟨e, by rw [List.getElem?_set_ne (by omega), he], ?_⟩
    exact hexecuter.set ha fun _ => rfl
  · by_cases ht : t + 1 = t' + 1
    · obtain rfl : t = t' := by omega
      rw [List.getElem?_set_self (List.getElem?_eq_some_iff.mp ha).1] at hc
      cases hc
      have hstage := h.stages t a ha
      exact ⟨hstage.stage, hstage.parent, hstage.ends, fun _ => hexited, hstage.progress⟩
    · rw [List.getElem?_set_ne ht] at hc
      exact h.stages t' c hc
  · rw [List.length_set] at hj
    exact h.fresh j hj

/-- A stage goes on with its program. -/
theorem Stage.next {content content' : Nat → Nat} {act : Act} {acts : List Act}
    (h : Stage numTasks capacity script t content a) (hctl : a.ctl = .run (act :: acts))
    (hcount : t + 1 < numTasks → content' t + acts.count .write = (script t).count .write) :
    Stage numTasks capacity script t content' { a with ctl := .run acts } := by
  have hprogress := h.progress
  rw [hctl] at hprogress
  obtain ⟨hstdin, hstdout, -⟩ := hprogress
  refine ⟨h.stage, h.parent, h.ends, fun hreaped => ?_, hstdin, hstdout, hcount⟩
  have hexited := h.ended hreaped
  rw [hctl] at hexited
  cases hexited

/-- A stage keeps the reading end of the pipe that it writes to. -/
theorem Stage.reads {content : Nat → Nat} (h : Stage numTasks capacity script t content a)
    (ht : t + 1 < numTasks) (hlive : a.ctl ≠ .exited) : a.Reads t :=
  ⟨hlive, .inl (h.ends.readers t ht (Nat.le_refl t))⟩

theorem input_some {t j : Nat} (h : input t none = some j) : t = j + 1 := by
  unfold input at h
  split_ifs at h with hzero
  injection h
  omega

theorem output_some {t j : Nat} (h : (if t + 1 < numTasks then some t else none) = some j) :
    t + 1 < numTasks ∧ t = j := by
  split_ifs at h with hlt
  injection h with heq
  exact ⟨hlt, heq⟩

/-- A step keeps the invariant as long as no `execv` fails. The cases are the kinds of step:
the parent forks, closes or waits, a stage does something on its own, and a byte goes into a
pipe or comes out of it. The contents of a pipe are what was written less what was read. -/
theorem Inv.step (h : Inv numTasks capacity script s) (hk : 2 ≤ numTasks) {l : Label}
    {s' : State} (hfails : l.execFails = false) (hstep : Step numTasks capacity script s l s') :
    Inv numTasks capacity script s' := by
  cases hstep with
  | @move p a b fails ha hmove =>
      cases hfails
      cases p with
      | zero =>
          obtain ⟨e, he, hexecuter⟩ := h.executer
          rw [ha] at he
          cases he
          obtain ⟨hb, hreaped⟩ := hexecuter.local hmove
          exact h.setExecuter ha hb hreaped
      | succ t =>
          have hstage := h.stages t a ha
          have hlive : a.ctl ≠ .exited := by
            cases hmove <;> simp_all
          have ht := (h.current ha hlive).1
          obtain ⟨hb, hreaped, -⟩ := hstage.local hk ht (h.bound t) hmove
          exact h.setStage ha hlive hb hreaped (fun _ _ => rfl) h.bound
  | fork ha hctl htask =>
      obtain ⟨rfl, -⟩ := h.looping (c := 0) ha (.inl hctl)
      exact h.fork hk ha hctl htask
  | @reap p q a b task c ha hctl hpq hb hparent hexited hreaped =>
      obtain ⟨rfl, hexecuter⟩ := h.looping ha (.inr hctl)
      obtain ⟨t, rfl⟩ : ∃ t, q = t + 1 := ⟨q - 1, by omega⟩
      have hat := hexecuter.atTask
      rw [hctl] at hat
      obtain ⟨hlen, -, hall, -⟩ := hat
      have hlt := (List.getElem?_eq_some_iff.mp hb).1
      -- the children before it have been waited for, those behind it not been forked
      obtain rfl : t = task := by
        by_contra hne
        have hover := hall t b (by omega) hb
        rw [hreaped] at hover
        cases hover
      have ha' : (s.procs.set (t + 1) { b with reaped := true })[0]? = some a := by
        rw [List.getElem?_set_ne (by omega), ha]
      rw [List.set_comm _ _ hpq]
      refine (h.setReaped hb hexited).waited ha' hctl fun c hc => ?_
      rw [List.getElem?_set_self hlt] at hc
      cases hc
      rfl
  | @noChild p a task c ha hctl hnone =>
      obtain ⟨rfl, hexecuter⟩ := h.looping ha (.inr hctl)
      refine h.waited ha hctl fun b hb => ?_
      by_contra hne
      exact hnone (task + 1) ⟨b, hb, (h.stages task b hb).parent, by simpa using hne⟩
  | @readByte p j a acts ha hctl hstdin hcontent =>
      obtain ⟨t, rfl, ht, hstage, hin, hout, hcount⟩ := h.running hk ha hctl
      -- a byte less in the pipe that the stage reads
      obtain rfl := input_some (hin.symm.trans hstdin)
      refine h.setStage ha (by rw [hctl]; exact nofun) (hstage.next hctl fun hlt => ?_) rfl
        (fun i hi => Function.update_of_ne (by omega) _ _) fun i => ?_
      · rw [Function.update_of_ne (by omega)]
        simpa using hcount hlt
      · rw [Function.update_apply]
        split_ifs with hi
        · exact (Nat.sub_le _ _).trans (h.bound j)
        · exact h.bound i
  | @readEnd p j a acts ha hctl hstdin hcontent hwriters =>
      obtain ⟨t, rfl, ht, hstage, hin, hout, hcount⟩ := h.running hk ha hctl
      refine h.setStage ha (by rw [hctl]; exact nofun) (hstage.next hctl fun hlt => ?_) rfl
        (fun _ _ => rfl) h.bound
      simpa using hcount hlt
  | @writeByte p j a acts ha hctl hstdout hcontent hreaders =>
      obtain ⟨t, rfl, ht, hstage, hin, hout, hcount⟩ := h.running hk ha hctl
      obtain ⟨hlt, rfl⟩ := output_some (hout.symm.trans hstdout)
      refine h.setStage ha (by rw [hctl]; exact nofun) (hstage.next hctl fun _ => ?_) rfl
        (fun i hi => Function.update_of_ne (by omega) _ _) fun i => ?_
      · -- one of the bytes that the stage is still to write is now in the pipe
        have hwrites := hcount hlt
        rw [List.count_cons_self] at hwrites
        rw [Function.update_self]
        omega
      · rw [Function.update_apply]
        split_ifs with hi
        · exact hcontent
        · exact h.bound i
  | @sigpipe p j a acts ha hctl hstdout hreaders =>
      obtain ⟨t, rfl, ht, hstage, hin, hout, hcount⟩ := h.running hk ha hctl
      obtain ⟨hlt, rfl⟩ := output_some (hout.symm.trans hstdout)
      have hlive : a.ctl ≠ .exited := by
        rw [hctl]
        exact nofun
      -- a live stage reads from the pipe that it writes to, so the pipe has a reader
      exact absurd (hstage.reads hlt hlive) (hreaders a (List.mem_of_getElem? ha))

theorem inv_start : Inv numTasks capacity script (start numTasks) where
  executer := by
    refine ⟨_, rfl, rfl, rfl, rfl, rfl, rfl, Nat.zero_le _, fun t a ht => absurd ht (Nat.not_lt_zero t),
      fun j hj _ => ?_, fun j _ hlt => absurd hlt (Nat.not_lt_zero j)⟩
    refine List.mem_flatMap.mpr ⟨j, List.mem_range.mpr (by omega), List.mem_cons_self⟩
  stages t a ha := by
    have hlt := (List.getElem?_eq_some_iff.mp ha).1
    simp [start] at hlt
  fresh _ _ := rfl
  bound _ := Nat.zero_le _

/-! ### Progress -/

/-- The pipe before a stage has no process any more that can write to it. -/
theorem Inv.no_writer (h : Inv numTasks capacity script s) (hk : 2 ≤ numTasks) {j : Nat}
    (ha : s.procs[j + 2]? = some a) {acts : List Act} (hctl : a.ctl = .run acts) :
    ∀ b ∈ s.procs, ¬ b.Writes j := by
  have hlive : a.ctl ≠ .exited := by
    rw [hctl]
    exact nofun
  obtain ⟨hlt, hlen, hexecuter⟩ := h.current ha hlive
  intro b hb ⟨hblive, hwrites⟩
  obtain ⟨i, hi⟩ := List.mem_iff_getElem?.mp hb
  cases i with
  | zero =>
      obtain ⟨hstdout, hfds⟩ := hexecuter b hi
      rcases hwrites with hmem | hout
      · exact hfds j (by omega) (by omega) hmem
      · rw [hstdout] at hout
        cases hout
  | succ t =>
      have hsame := (h.current hi hblive).2.1
      obtain rfl : t = j + 1 := by omega
      rw [ha] at hi
      cases hi
      obtain ⟨t, ht, -, hstage, -, hstdout, -⟩ := h.running hk ha hctl
      obtain rfl : t = j + 1 := by omega
      rcases hwrites with hmem | hout
      · exact hstage.ends.writers j (by omega) (by omega) hmem
      · have := (output_some (hstdout.symm.trans hout)).2
        omega

/-- A stage goes on if the pipe behind it can hold all that it writes. To read it needs a byte
or the end of the file, and this comes, because the stage before it is gone before this one is
forked, with all writing ends closed. -/
theorem Inv.stage_progress (h : Inv numTasks capacity script s) (hk : 2 ≤ numTasks)
    (hfits : ∀ t, t + 1 < numTasks → (script t).count .write ≤ capacity)
    (ha : s.procs[t + 1]? = some a) (hlive : a.ctl ≠ .exited) :
    ∃ l s', Step numTasks capacity script s l s' ∧ l.execFails = false := by
  cases hctl : a.ctl with
  | run acts =>
      obtain ⟨t', ht, hlt, hstage, hstdin, hstdout, hcount⟩ := h.running hk ha hctl
      obtain rfl : t = t' := by omega
      cases acts with
      | nil => exact ⟨_, _, .move ha (.exit hctl), rfl⟩
      | cons act acts =>
          cases act with
          | read =>
              cases hin : a.stdin with
              | none => exact ⟨_, _, .move ha (.read hctl hin), rfl⟩
              | some j =>
                  rcases Nat.eq_zero_or_pos (s.content j) with hzero | hpos
                  · obtain rfl := input_some (hstdin.symm.trans hin)
                    exact ⟨_, _, .readEnd ha hctl hin hzero (h.no_writer hk ha hctl), rfl⟩
                  · exact ⟨_, _, .readByte ha hctl hin hpos, rfl⟩
          | write =>
              cases hout : a.stdout with
              | none => exact ⟨_, _, .move ha (.write hctl hout), rfl⟩
              | some j =>
                  obtain ⟨hnext, rfl⟩ := output_some (hstdout.symm.trans hout)
                  have hwrites := hcount hnext
                  have htotal := hfits t hnext
                  rw [List.count_cons_self] at hwrites
                  exact ⟨_, _, .writeByte ha hctl hout (by omega)
                    ⟨a, List.mem_of_getElem? ha, hstage.reads hnext hlive⟩, rfl⟩
  | child task => exact ⟨_, _, .move ha (.exec hctl), rfl⟩
  | exited => exact absurd hctl hlive
  | fork task =>
      have hprogress := (h.stages t a ha).progress
      rw [hctl] at hprogress
      exact hprogress.elim
  | close task ends =>
      have hprogress := (h.stages t a ha).progress
      rw [hctl] at hprogress
      exact hprogress.elim
  | wait task c =>
      have hprogress := (h.stages t a ha).progress
      rw [hctl] at hprogress
      exact hprogress.elim

/-- Some process goes on until all stages have ended: the parent does, or it waits for a
stage, which then does. -/
theorem Inv.some_progress (h : Inv numTasks capacity script s) (hk : 2 ≤ numTasks)
    (hfits : ∀ t, t + 1 < numTasks → (script t).count .write ≤ capacity)
    (hopen : ¬ Finished numTasks s) :
    ∃ l s', Step numTasks capacity script s l s' ∧ l.execFails = false := by
  obtain ⟨e, he, hexecuter⟩ := h.executer
  have hat := hexecuter.atTask
  cases hctl : e.ctl with
  | fork task =>
      by_cases htask : task < numTasks
      · exact ⟨_, _, .fork he hctl htask, rfl⟩
      · exact ⟨_, _, .move he (.done hctl htask), rfl⟩
  | close task ends =>
      cases ends with
      | nil => exact ⟨_, _, .move he (.closed hctl), rfl⟩
      | cons _ _ => exact ⟨_, _, .move he (.close hctl), rfl⟩
  | wait task c =>
      cases c with
      | zero => exact ⟨_, _, .move he (.next hctl), rfl⟩
      | succ c =>
          by_cases hchild : ∃ q, ChildOf s 0 q
          · obtain ⟨q, b, hb, hparent, hreaped⟩ := hchild
            cases q with
            | zero =>
                rw [he] at hb
                cases hb
                rw [hexecuter.parent] at hparent
                cases hparent
            | succ t =>
                by_cases hexited : b.ctl = .exited
                · exact ⟨_, _, .reap he hctl (by omega) hb hparent hexited hreaped, rfl⟩
                · exact h.stage_progress hk hfits hb hexited
          · exact ⟨_, _, .noChild he hctl (not_exists.mp hchild), rfl⟩
  | exited =>
      rw [hctl] at hat
      obtain ⟨hlen, hall⟩ := hat
      refine absurd (fun t ht => ?_) hopen
      obtain ⟨a, ha⟩ : ∃ a, s.procs[t + 1]? = some a := ⟨_, List.getElem?_eq_getElem (by omega)⟩
      have hstage := h.stages t a ha
      exact ⟨a, List.mem_of_getElem? ha, hstage.stage, hstage.ended (hall t a ht ha)⟩
  | child task =>
      rw [hctl] at hat
      exact hat.elim
  | run acts =>
      rw [hctl] at hat
      exact hat.elim

/-! ### The end of a run -/

section Weight

variable (numTasks : Nat) (script : Nat → List Act)

/-- A task takes fewer steps than that. -/
def taskCost : Nat := ((List.range numTasks).map fun t => (script t).length).sum + numTasks + 10

/-- A process takes fewer steps than that, those of the stages it forks included. -/
def weight : Ctl → Nat
  | .fork task => (numTasks - task) * taskCost numTasks script + 1
  | .close task ends =>
      (numTasks - (task + 1)) * taskCost numTasks script + numTasks + ends.length + 3
  | .wait task c => (numTasks - (task + 1)) * taskCost numTasks script + c + 2
  | .child task => (script task).length + 2
  | .run acts => acts.length + 1
  | .exited => 0

def totalWeight (s : State) : Nat := (s.procs.map fun a => weight numTasks script a.ctl).sum

end Weight

theorem script_le_taskCost (ht : t < numTasks) :
    (script t).length + numTasks + 10 ≤ taskCost numTasks script := by
  unfold taskCost
  have hmem : (script t).length ∈ (List.range numTasks).map fun t => (script t).length :=
    List.mem_map.mpr ⟨t, List.mem_range.mpr ht, rfl⟩
  have := List.single_le_sum (fun _ _ => Nat.zero_le _) _ hmem
  omega

theorem length_closes_le : (closes numTasks t).length ≤ 2 := by
  unfold closes
  split_ifs <;> simp

theorem Local.weight_lt {fails : Bool} (h : Local numTasks script a fails b)
    (hfails : fails = false) : weight numTasks script b.ctl < weight numTasks script a.ctl := by
  cases h with
  | execFails hctl => cases hfails
  | _ =>
      simp only [*, weight, List.length_cons, List.length_nil]
      omega

/-- Replacing a process by a lighter one. -/
theorem totalWeight_set (ha : s.procs[p]? = some a)
    (hlt : weight numTasks script b.ctl < weight numTasks script a.ctl) {content : Nat → Nat} :
    totalWeight numTasks script ⟨s.procs.set p b, content⟩ < totalWeight numTasks script s := by
  have hsum := sum_map_set (b := b) ha fun a => weight numTasks script a.ctl
  unfold totalWeight
  dsimp only at hsum ⊢
  omega

/-- As long as no `execv` fails, every step makes the processes lighter. The weight of a
process is what it has left to do; a fork passes a part of the parent's weight on to the
child. -/
theorem Step.totalWeight_lt {l : Label} {s' : State}
    (h : Step numTasks capacity script s l s') (hfails : l.execFails = false) :
    totalWeight numTasks script s' < totalWeight numTasks script s := by
  cases h with
  | move ha hmove => exact totalWeight_set ha (hmove.weight_lt hfails)
  | @fork p a task ha hctl htask =>
      have hsum := sum_map_set (b := { a with ctl := .close task (closes numTasks task) }) ha
        fun a => weight numTasks script a.ctl
      have hcost := @script_le_taskCost numTasks script task htask
      have hclose := @length_closes_le numTasks task
      have hsucc : (numTasks - task) * taskCost numTasks script =
          (numTasks - (task + 1)) * taskCost numTasks script + taskCost numTasks script := by
        rw [← Nat.succ_mul]
        congr 1
        omega
      unfold totalWeight
      rw [List.map_append, List.sum_append]
      simp only [hctl, weight, List.map_cons, List.map_nil, List.sum_cons, List.sum_nil] at hsum ⊢
      omega
  | @reap p q a b task c ha hctl hpq hb hparent hexited hreaped =>
      have hb' : (s.procs.set p { a with ctl := .wait task c })[q]? = some b := by
        rw [List.getElem?_set_ne hpq, hb]
      have hsum := sum_map_set (b := { b with reaped := true }) hb'
        fun a => weight numTasks script a.ctl
      have hset : totalWeight numTasks script
          ⟨s.procs.set p { a with ctl := .wait task c }, s.content⟩ <
          totalWeight numTasks script s := by
        refine totalWeight_set ha ?_
        rw [hctl]
        simp only [weight]
        omega
      unfold totalWeight at hset ⊢
      dsimp only at hset hsum ⊢
      omega
  | noChild ha hctl _ =>
      refine totalWeight_set ha ?_
      rw [hctl]
      simp only [weight]
      omega
  | sigpipe ha hctl _ _ =>
      refine totalWeight_set ha ?_
      rw [hctl]
      exact Nat.succ_pos _
  | readByte ha hctl _ _ =>
      refine totalWeight_set ha ?_
      rw [hctl]
      exact Nat.lt_succ_self _
  | readEnd ha hctl _ _ _ =>
      refine totalWeight_set ha ?_
      rw [hctl]
      exact Nat.lt_succ_self _
  | writeByte ha hctl _ _ _ =>
      refine totalWeight_set ha ?_
      rw [hctl]
      exact Nat.lt_succ_self _

theorem Reachable.inv (h : Reachable numTasks capacity script s) (hk : 2 ≤ numTasks) :
    Inv numTasks capacity script s := by
  induction h with
  | refl => exact inv_start
  | tail _ hstep ih =>
      obtain ⟨l, hstep, hfails⟩ := hstep
      exact ih.step hk hfails hstep

/-- Where an `execv` can fail it can succeed. -/
theorem Step.succeeds {l : Label} {s' : State} (h : Step numTasks capacity script s l s') :
    ∃ l s', Step numTasks capacity script s l s' ∧ l.execFails = false := by
  cases hfails : l.execFails with
  | false => exact ⟨l, s', h, hfails⟩
  | true =>
      cases h with
      | move ha hmove =>
          cases hfails
          cases hmove with
          | execFails hctl => exact ⟨_, _, .move ha (.exec hctl), rfl⟩
      | _ => cases hfails

/-- A stage that has ended wrote no more than a pipe can hold. -/
theorem Inv.count_le (h : Inv numTasks capacity script s) (hfinished : Finished numTasks s)
    (ht : t + 1 < numTasks) : (script t).count .write ≤ capacity := by
  obtain ⟨a, ha, hstage, hctl⟩ := hfinished t (by omega)
  obtain ⟨i, hi⟩ := List.mem_iff_getElem?.mp ha
  cases i with
  | zero =>
      obtain ⟨e, he, hexecuter⟩ := h.executer
      rw [hi] at he
      cases he
      rw [hexecuter.stage] at hstage
      cases hstage
  | succ t' =>
      have hstage' := h.stages t' a hi
      rw [hstage'.stage] at hstage
      cases hstage
      have hprogress := hstage'.progress
      rw [hctl] at hprogress
      exact hprogress ht

/-- A run without a deadlock ends, and all stages have ended then. -/
theorem count_le_of_no_deadlock (hk : 2 ≤ numTasks)
    (hfree : ∀ s, Reachable numTasks capacity script s → ¬ Deadlocked numTasks capacity script s)
    (ht : t + 1 < numTasks) : (script t).count .write ≤ capacity := by
  have hdec : ∀ s s', (∃ l, Step numTasks capacity script s l s' ∧ l.execFails = false) →
      totalWeight numTasks script s' < totalWeight numTasks script s := by
    rintro s s' ⟨l, hstep, hfails⟩
    exact hstep.totalWeight_lt hfails
  obtain ⟨s, hreach, hlast⟩ := exists_terminal Nat.lt_wfRel.wf _ hdec (start numTasks)
  refine (Reachable.inv hreach hk).count_le ?_ ht
  by_contra hopen
  refine hfree s hreach ⟨hopen, fun l s' hstep => ?_⟩
  obtain ⟨l, s', hstep, hfails⟩ := hstep.succeeds
  exact hlast s' ⟨l, hstep, hfails⟩

end Lemmas

/-- A pipeline of two stages or more whose programs can all be executed has no reachable
deadlock, whatever its stages read, if and only if every stage but the last writes no more
than a pipe can hold. If they do, some process can go on in every state of the invariant
(`Inv.some_progress`), and the weights show that it comes to an end; a stage that writes more
blocks at the full pipe, while the parent waits for it. -/
theorem no_deadlock_iff (numTasks capacity : Nat) (script : Nat → List Act) (hk : 2 ≤ numTasks) :
    (∀ s, Reachable numTasks capacity script s → ¬ Deadlocked numTasks capacity script s) ↔
      ∀ t, t + 1 < numTasks → (script t).count .write ≤ capacity := by
  refine ⟨fun hfree t ht => count_le_of_no_deadlock hk hfree ht, fun hfits s hreach hdead => ?_⟩
  obtain ⟨l, s', hstep, -⟩ := (Reachable.inv hreach hk).some_progress hk hfits hdead.1
  exact hdead.2 l s' hstep

/-- Two stages, of which the first writes as much as the pipe holds. -/
theorem no_deadlock_two : (List.replicate 4 Act.write).count .write = 4 ∧ ∀ s,
    Reachable 2 4 (fun t => if t = 0 then List.replicate 4 .write else [.read]) s →
    ¬ Deadlocked 2 4 (fun t => if t = 0 then List.replicate 4 .write else [.read]) s :=
  ⟨by decide, (no_deadlock_iff 2 4 _ (by decide)).mpr fun t ht => by
    obtain rfl : t = 0 := by omega
    decide⟩

/-- The first stage of two writes one byte more than the pipe holds. -/
theorem deadlock_two : ¬ ∀ s,
    Reachable 2 4 (fun t => if t = 0 then List.replicate 5 .write else [.read]) s →
    ¬ Deadlocked 2 4 (fun t => if t = 0 then List.replicate 5 .write else [.read]) s := by
  intro hfree
  exact absurd (count_le_of_no_deadlock (t := 0) (by decide) hfree (by decide)) (by decide)

end OsTools.Shell.Pipeline

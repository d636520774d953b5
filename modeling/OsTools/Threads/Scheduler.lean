import Mathlib.Logic.Function.Basic
import OsTools.Lib.Run
/-!
# OsTools.Threads.Scheduler

The scheduler of `threads/thread.c` with its FIFO policy. A thread is the page
that holds its `struct thread`; `status` says which pages hold one.

The operations run with interrupts off, so each is one step. `thread_create` may
also be interrupted before its `thread_unblock`, when it takes the lock for the
thread identifier: `createBegin` is the part before. What a `struct thread` holds
besides its status and its list elements is left out.

`switch_threads` changes `current`. A failed assertion gives no result.

## Proof shape

An operation is in two parts. `enter` is what happens before `schedule`, and it moves one
thread between the lists: such a move is an instance of `Joins`, which says that a thread
whose list element is on no list takes a status and goes on the list of that status, and
`Joins.consistent` is the one proof that this keeps the lists in agreement with the status.
`dispatch` is `schedule`: from a state in which no thread runs (`Leaving`) it picks the next
one (`Picks`) and perhaps frees the one that died (`Leaving.dispatch`).

So there are two step lemmas, for operations that end in `schedule` and for the others, and
both say what becomes of the ready list. The order of dispatch is an induction over the run
with the position in the ready list (`Inv.dispatchedBy`).
-/

namespace OsTools.Threads

/-- `enum thread_status`. -/
inductive Status
  | running
  | ready
  | blocked
  | dying
  deriving DecidableEq

/-- The globals of `thread.c` and the lists that threads are on. `waiters` are the
wait lists of the semaphores. `sleepers` are the threads that wait elsewhere, for
someone who holds a pointer to them. -/
structure Sched where
  status : Nat → Option Status
  current : Nat
  fifoReadyList : List Nat
  allList : List Nat
  idleThread : Option Nat
  initialThread : Nat
  waiters : Nat → List Nat
  sleepers : List Nat

namespace Sched

def setStatus (s : Sched) (t : Nat) (st : Status) : Sched :=
  { s with status := Function.update s.status t (some st) }

/-- `thread_init`, on the page `main`. -/
def threadInit (main : Nat) : Sched where
  status := Function.update (fun _ => none) main (some .running)
  current := main
  fifoReadyList := []
  allList := [main]
  idleThread := none
  initialThread := main
  waiters := fun _ => []
  sleepers := []

def threadEnqueue (s : Sched) (t : Nat) : Sched :=
  { s with fifoReadyList := s.fifoReadyList ++ [t] }

def threadUnblock (s : Sched) (t : Nat) : Option Sched :=
  if s.status t = some .blocked then some ((s.threadEnqueue t).setStatus t .ready) else none

def initThread (s : Sched) (t : Nat) : Sched :=
  { s.setStatus t .blocked with allList := s.allList ++ [t] }

/-- `thread_schedule_fifo`, which is `next_thread_to_run` under this policy. -/
def threadScheduleFifo (s : Sched) : Option Nat × Sched :=
  match s.fifoReadyList with
  | t :: ts => (some t, { s with fifoReadyList := ts })
  | [] => (s.idleThread, s)

/-- `thread_switch_tail` up to the call of `palloc_free_page`, and its argument. -/
def threadSwitchTail (s : Sched) (prev : Option Nat) : Option (Sched × Option Nat) :=
  let s := s.setStatus s.current .running
  match prev with
  | none => some (s, none)
  | some prev =>
      if s.status prev = some .dying ∧ prev ≠ s.initialThread then
        if prev = s.current then none else some (s, some prev)
      else some (s, none)

/-- `schedule` up to the call of `palloc_free_page`. -/
def dispatch (s : Sched) : Option (Sched × Option Nat) :=
  let cur := s.current
  let (next, s) := s.threadScheduleFifo
  if s.status cur = some .running then none
  else
    match next with
    | none => none
    | some next =>
        if s.status next = none then none
        else { s with current := next }.threadSwitchTail (if cur = next then none else some cur)

def pallocFreePage (s : Sched) (page : Option Nat) : Sched :=
  match page with
  | none => s
  | some page => { s with status := Function.update s.status page none }

def schedule (s : Sched) : Option Sched := s.dispatch.map fun (s, page) => s.pallocFreePage page

/-! ### Operations -/

/-- `create` and `createBegin` come with the page that `palloc_get_page` returns;
`semaDown` is a pass of `sema_down` that blocks; `becomeIdle` is the assignment to
`idle_thread`. -/
inductive Op
  | create (page : Option Nat)
  | createBegin (page : Nat)
  | becomeIdle
  | block
  | semaDown (sema : Nat)
  | unblock (t : Nat)
  | semaUp (sema : Nat)
  | yield
  | exit
  deriving DecidableEq

/-- The operations that end in `schedule`. -/
def Op.schedules : Op → Bool
  | .block | .semaDown _ | .yield | .exit => true
  | _ => false

/-- `thread_current`, with its assertion. -/
def threadCurrent (s : Sched) : Option Nat :=
  if s.status s.current = some .running then some s.current else none

/-- An operation up to its call of `schedule`. -/
def enter (s : Sched) : Op → Option Sched
  | .create none => some s
  | .create (some page) => (s.initThread page).threadUnblock page
  | .createBegin page =>
      let s := s.initThread page
      some { s with sleepers := page :: s.sleepers }
  | .becomeIdle => s.threadCurrent.map fun cur => { s with idleThread := some cur }
  | .block =>
      s.threadCurrent.map fun cur =>
        let sleepers := if s.idleThread = some cur then s.sleepers else cur :: s.sleepers
        { s.setStatus cur .blocked with sleepers }
  | .semaDown sema =>
      s.threadCurrent.map fun cur =>
        let waiters := Function.update s.waiters sema (s.waiters sema ++ [cur])
        { s.setStatus cur .blocked with waiters }
  | .unblock t => { s with sleepers := s.sleepers.erase t }.threadUnblock t
  | .semaUp sema =>
      match s.waiters sema with
      | [] => some s
      | t :: ts => { s with waiters := Function.update s.waiters sema ts }.threadUnblock t
  | .yield =>
      s.threadCurrent.map fun cur =>
        (if s.idleThread = some cur then s else s.threadEnqueue cur).setStatus cur .ready
  | .exit =>
      s.threadCurrent.map fun cur => { s.setStatus cur .dying with allList := s.allList.erase cur }

/-- What callers guarantee: pages come from the page allocator, a thread is
unblocked by who it told that it blocks, and the idle thread is set once and only
blocks, yields or creates and wakes other threads. -/
def Admits (s : Sched) : Op → Bool
  | .create (some page) | .createBegin page => decide (s.status page = none)
  | .becomeIdle => s.idleThread.isNone
  | .unblock t => decide (t ∈ s.sleepers)
  | .semaDown _ | .exit => decide (s.idleThread ≠ some s.current)
  | _ => true

def step (s : Sched) (op : Op) : Option Sched :=
  if s.Admits op then
    (s.enter op).bind fun s => if op.schedules then s.schedule else some s
  else none

def Step (s : Sched) (op : Op) (s' : Sched) : Prop := s.step op = some s'

/-- The call of `palloc_free_page` in an operation: the state then and the page. -/
def freeing (s : Sched) (op : Op) : Option (Sched × Nat) :=
  if op.schedules then
    (s.enter op).bind fun s => s.dispatch.bind fun (s, page) => page.map fun page => (s, page)
  else none

/-! ### The invariant -/

variable {s s' : Sched} {t u : Nat} {st : Status} {op : Op}

@[simp] theorem setStatus_status :
    (s.setStatus t st).status u = if u = t then some st else s.status u := by
  show Function.update s.status t (some st) u = _
  rw [Function.update_apply]

@[simp] theorem setStatus_current : (s.setStatus t st).current = s.current := rfl
@[simp] theorem setStatus_ready : (s.setStatus t st).fifoReadyList = s.fifoReadyList := rfl
@[simp] theorem setStatus_all : (s.setStatus t st).allList = s.allList := rfl
@[simp] theorem setStatus_idle : (s.setStatus t st).idleThread = s.idleThread := rfl
@[simp] theorem setStatus_initial : (s.setStatus t st).initialThread = s.initialThread := rfl
@[simp] theorem setStatus_waiters : (s.setStatus t st).waiters = s.waiters := rfl
@[simp] theorem setStatus_sleepers : (s.setStatus t st).sleepers = s.sleepers := rfl

/-- Lists agree with the status of threads, whichever thread runs. A list element
is on one list only. -/
structure Consistent (s : Sched) : Prop where
  ready_nodup : s.fifoReadyList.Nodup
  mem_ready : ∀ t, t ∈ s.fifoReadyList ↔ s.status t = some .ready ∧ s.idleThread ≠ some t
  all_nodup : s.allList.Nodup
  mem_all : ∀ t, t ∈ s.allList ↔ s.status t ≠ none ∧ s.status t ≠ some .dying
  idle : ∀ t, s.idleThread = some t → s.status t ≠ none ∧ s.status t ≠ some .dying
  sleepers_nodup : s.sleepers.Nodup
  sleeper : ∀ t ∈ s.sleepers, s.status t = some .blocked ∧ s.idleThread ≠ some t
  waiters_nodup : ∀ q, (s.waiters q).Nodup
  waiter : ∀ q, ∀ t ∈ s.waiters q, s.status t = some .blocked ∧ s.idleThread ≠ some t ∧
    t ∉ s.sleepers ∧ ∀ r, t ∈ s.waiters r → r = q

/-- Between operations. -/
structure Inv (s : Sched) : Prop extends Consistent s where
  current : s.status s.current = some .running
  running : ∀ t, s.status t = some .running → t = s.current
  dying : ∀ t, s.status t = some .dying → t = s.initialThread

/-- On entry to `schedule`. -/
structure Leaving (s : Sched) : Prop extends Consistent s where
  not_running : ∀ t, s.status t ≠ some .running
  dying : ∀ t, s.status t = some .dying → t = s.initialThread ∨ t = s.current
  exists_current : s.status s.current ≠ none

theorem threadInit_inv (main : Nat) : (threadInit main).Inv := by
  have hstatus : ∀ t, (threadInit main).status t = if t = main then some .running else none := by
    intro t
    show Function.update (fun _ => none) main (some Status.running) t = _
    rw [Function.update_apply]
  refine ⟨⟨List.nodup_nil, fun t => ?_, List.pairwise_singleton _ _, fun t => ?_, ?_,
    List.nodup_nil, ?_,
    fun _ => List.nodup_nil, ?_⟩, ?_, fun t => ?_, fun t => ?_⟩
  · rw [hstatus]
    split <;> simp [threadInit]
  · rw [hstatus]
    split <;> simp_all [threadInit]
  · exact fun t h => absurd h (by simp [threadInit])
  · exact fun t h => absurd h (by simp [threadInit])
  · exact fun q t h => absurd h (by simp [threadInit])
  · exact (hstatus main).trans (if_pos rfl)
  · rw [hstatus]
    split <;> simp_all [threadInit]
  · rw [hstatus]
    split <;> simp

/-! ### Dispatching -/

/-- The thread that `thread_schedule_fifo` picks and the ready list it leaves. -/
inductive Picks (s : Sched) (next : Nat) (rest : List Nat) : Prop
  | front (h : s.fifoReadyList = next :: rest)
  | idle (hready : s.fifoReadyList = []) (hrest : rest = []) (h : s.idleThread = some next)

/-- The state after the switch to `next`. -/
def switched (s : Sched) (next : Nat) (rest : List Nat) : Sched :=
  { s with fifoReadyList := rest, current := next }.setStatus next .running

variable {next : Nat} {rest : List Nat}

/-- The thread picked is alive, and only the idle thread may be blocked. -/
theorem Picks.alive (hp : s.Picks next rest) (h : Consistent s) :
    s.status next ≠ none ∧ s.status next ≠ some .dying ∧
      (s.status next = some .ready ∨ s.idleThread = some next) := by
  cases hp with
  | front hready =>
      have hmem := (h.mem_ready next).mp (by simp [hready])
      simp [hmem.1]
  | idle hready hrest hidle => exact ⟨(h.idle next hidle).1, (h.idle next hidle).2, Or.inr hidle⟩

theorem Picks.ready_nodup (hp : s.Picks next rest) (h : Consistent s) : rest.Nodup := by
  cases hp with
  | front hready => exact (List.nodup_cons.mp (hready ▸ h.ready_nodup)).2
  | idle hready hrest hidle => exact hrest ▸ List.nodup_nil

/-- The ready list that is left. -/
theorem Picks.mem_rest (hp : s.Picks next rest) (h : Consistent s) :
    ∀ t, t ∈ rest ↔ t ≠ next ∧ s.status t = some .ready ∧ s.idleThread ≠ some t := by
  intro t
  have hmem := h.mem_ready t
  cases hp with
  | front hready =>
      have hnot := (List.nodup_cons.mp (hready ▸ h.ready_nodup)).1
      rw [hready, List.mem_cons] at hmem
      constructor
      · intro ht
        exact ⟨fun heq => hnot (heq ▸ ht), hmem.mp (Or.inr ht)⟩
      · intro ht
        exact (hmem.mpr ht.2).resolve_left ht.1
  | idle hready hrest hidle =>
      rw [hready] at hmem
      rw [hrest]
      constructor
      · intro ht
        exact absurd ht (by simp)
      · intro ht
        exact hmem.mpr ht.2

/-- The switch makes the lists consistent again: the thread that comes next leaves the ready
list and is running. -/
theorem Leaving.switched (h : Leaving s) (hp : s.Picks next rest) :
    Consistent (s.switched next rest) := by
  obtain ⟨halive, hdying, hpick⟩ := hp.alive h.toConsistent
  have hrest := hp.mem_rest h.toConsistent
  have hne : ∀ t, s.status t = some .blocked → s.idleThread ≠ some t → t ≠ next := by
    intro t hblocked hidle heq
    rw [heq] at hblocked hidle
    rcases hpick with hready | hidle'
    · rw [hblocked] at hready
      exact absurd hready (by simp)
    · exact hidle hidle'
  unfold Sched.switched
  refine ⟨hp.ready_nodup h.toConsistent, fun t => ?_, h.all_nodup, fun t => ?_, fun t ht => ?_,
    h.sleepers_nodup, fun t ht => ?_, h.waiters_nodup, fun q t ht => ?_⟩
  · simp only [setStatus_ready, setStatus_status, setStatus_idle]
    rw [hrest t]
    by_cases heq : t = next <;> simp [heq]
  · simp only [setStatus_all, setStatus_status]
    rw [h.mem_all t]
    by_cases heq : t = next
    · simp [heq, halive, hdying]
    · simp [heq]
  · have := h.idle t ht
    simp only [setStatus_status]
    by_cases heq : t = next
    · simp [heq]
    · simpa [heq] using this
  · obtain ⟨hblocked, hidle⟩ := h.sleeper t ht
    simp only [setStatus_status, setStatus_idle]
    rw [if_neg (hne t hblocked hidle)]
    exact ⟨hblocked, hidle⟩
  · obtain ⟨hblocked, hidle, hrest⟩ := h.waiter q t ht
    simp only [setStatus_status, setStatus_idle]
    rw [if_neg (hne t hblocked hidle)]
    exact ⟨hblocked, hidle, hrest⟩

/-- What `palloc_free_page` is called on: a dying thread that is on no list and
does not run. -/
structure Dead (s : Sched) (p : Nat) : Prop where
  dying : s.status p = some .dying
  not_current : p ≠ s.current
  not_ready : p ∉ s.fifoReadyList
  not_all : p ∉ s.allList
  not_waiter : ∀ q, p ∉ s.waiters q
  not_sleeper : p ∉ s.sleepers

theorem Consistent.dead (h : Consistent s) {p : Nat} (hp : s.status p = some .dying)
    (hcur : p ≠ s.current) : Dead s p := by
  refine ⟨hp, hcur, fun hr => ?_, fun ha => ((h.mem_all p).mp ha).2 hp, fun q hq => ?_, fun hs => ?_⟩
  · have := ((h.mem_ready p).mp hr).1
    rw [hp] at this
    exact absurd this (by simp)
  · have := (h.waiter q p hq).1
    rw [hp] at this
    exact absurd this (by simp)
  · have := (h.sleeper p hs).1
    rw [hp] at this
    exact absurd this (by simp)

/-- Freeing a dying thread. -/
theorem Consistent.free (h : Consistent s) {p : Nat} (hdead : Dead s p) :
    Consistent (s.pallocFreePage (some p)) := by
  have hstatus : ∀ t, (s.pallocFreePage (some p)).status t = if t = p then none else s.status t := by
    intro t
    show Function.update s.status p none t = _
    rw [Function.update_apply]
  have hlive : ∀ t st, s.status t = some st → st ≠ .dying → t ≠ p := by
    intro t st ht hst heq
    rw [heq, hdead.dying] at ht
    exact hst (Option.some.inj ht).symm
  refine ⟨h.ready_nodup, fun t => ?_, h.all_nodup, fun t => ?_, fun t ht => ?_,
    h.sleepers_nodup, fun t ht => ?_, h.waiters_nodup, fun q t ht => ?_⟩
  · rw [hstatus]
    by_cases heq : t = p
    · exact iff_of_false (heq ▸ hdead.not_ready) (by simp [heq])
    · rw [if_neg heq]
      exact h.mem_ready t
  · rw [hstatus]
    by_cases heq : t = p
    · exact iff_of_false (heq ▸ hdead.not_all) (by simp [heq])
    · rw [if_neg heq]
      exact h.mem_all t
  · have hne : t ≠ p := by
      intro heq
      exact (h.idle t ht).2 (heq ▸ hdead.dying)
    rw [hstatus, if_neg hne]
    exact h.idle t ht
  · have hold := h.sleeper t ht
    rw [hstatus, if_neg (hlive t _ hold.1 (by simp))]
    exact hold
  · have hold := h.waiter q t ht
    rw [hstatus, if_neg (hlive t _ hold.1 (by simp))]
    exact hold

/-- **What `schedule` does.** The first thread of the ready list becomes the running one, or
the idle thread if there is none; and the page of the thread that was running is freed if it
is dying and not the initial one, which is not in any list any more. -/
theorem Leaving.dispatch (h : Leaving s) (hp : s.Picks next rest) :
    ∃ page, s.dispatch = some (s.switched next rest, page) ∧
      (∀ p, page = some p → Dead (s.switched next rest) p) ∧
      ((s.switched next rest).pallocFreePage page).Inv := by
  obtain ⟨halive, hdying, -⟩ := hp.alive h.toConsistent
  have hcons := h.switched hp
  have hfifo : s.threadScheduleFifo = (some next, { s with fifoReadyList := rest }) := by
    unfold threadScheduleFifo
    cases hp with
    | front hready => rw [hready]
    | idle hready hrest hidle =>
        have hsame : { s with fifoReadyList := rest } = s := by rw [hrest, ← hready]
        rw [hsame]
        simp only [hready, hidle]
  have hstatus : ∀ t, (s.switched next rest).status t =
      if t = next then some .running else s.status t := fun t => setStatus_status
  have hrun : s.dispatch = ({ s with fifoReadyList := rest, current := next }).threadSwitchTail
      (if s.current = next then none else some s.current) := by
    unfold Sched.dispatch
    rw [hfifo]
    dsimp only
    rw [if_neg (h.not_running _), if_neg halive]
  have hrunning : ∀ t, (s.switched next rest).status t = some .running → t = next := by
    intro t ht
    by_contra hne
    rw [hstatus, if_neg hne] at ht
    exact h.not_running t ht
  -- a thread that is dying but still there is the initial thread or the one that leaves
  have hold : ∀ t, (s.switched next rest).status t = some .dying →
      t ≠ next ∧ (t = s.initialThread ∨ t = s.current) := by
    intro t ht
    have hne : t ≠ next := by
      intro heq
      rw [hstatus, if_pos heq] at ht
      exact absurd ht (by simp)
    rw [hstatus, if_neg hne] at ht
    exact ⟨hne, h.dying t ht⟩
  by_cases hfree : s.current ≠ next ∧ s.status s.current = some .dying ∧
      s.current ≠ s.initialThread
  · -- the thread that leaves is dead
    obtain ⟨hcur, hdie, hinit⟩ := hfree
    have hdie' : (s.switched next rest).status s.current = some .dying := by
      rw [hstatus, if_neg hcur]
      exact hdie
    have hdead : Dead (s.switched next rest) s.current := hcons.dead hdie' hcur
    refine ⟨some s.current, ?_, fun p hpage => ?_, ⟨hcons.free hdead, ?_, ?_, ?_⟩⟩
    · rw [hrun, if_neg hcur]
      unfold threadSwitchTail
      dsimp only
      rw [if_pos ⟨hdie', hinit⟩]
      exact if_neg hcur
    · rw [← Option.some.inj hpage]
      exact hdead
    · show Function.update (s.switched next rest).status s.current none next = _
      rw [Function.update_of_ne (Ne.symm hcur), hstatus, if_pos rfl]
    · intro t ht
      refine hrunning t ?_
      have hne : t ≠ s.current := by
        intro heq
        subst heq
        simp [pallocFreePage] at ht
      rwa [show (pallocFreePage _ (some s.current)).status t = (s.switched next rest).status t from
        Function.update_of_ne hne _ _] at ht
    · intro t ht
      have hne : t ≠ s.current := by
        intro heq
        subst heq
        simp [pallocFreePage] at ht
      rw [show (pallocFreePage _ (some s.current)).status t = (s.switched next rest).status t from
        Function.update_of_ne hne _ _] at ht
      exact (hold t ht).2.resolve_right hne
  · -- no page is freed: the thread that leaves lives on, or is the initial thread
    refine ⟨none, ?_, fun p hpage => absurd hpage (by simp), ⟨hcons, ?_, hrunning, fun t ht => ?_⟩⟩
    · rw [hrun]
      unfold threadSwitchTail
      dsimp only
      split
      · rfl
      · rename_i prev hprev
        have hcur : s.current ≠ next := by
          intro heq
          rw [if_pos heq] at hprev
          exact absurd hprev (by simp)
        rw [if_neg hcur] at hprev
        obtain rfl := Option.some.inj hprev
        have hnot : ¬ ((s.switched next rest).status s.current = some .dying ∧
            s.current ≠ s.initialThread) := by
          rw [hstatus, if_neg hcur]
          exact fun hd => hfree ⟨hcur, hd⟩
        exact if_neg hnot
    · show (s.switched next rest).status next = _
      rw [hstatus, if_pos rfl]
    · obtain ⟨hne, hor⟩ := hold t ht
      rcases hor with hinit | hcur
      · exact hinit
      · by_contra hinit
        subst hcur
        change (s.switched next rest).status s.current = _ at ht
        rw [hstatus, if_neg hne] at ht
        exact hfree ⟨hne, ht, hinit⟩

/-! ### Entering an operation -/

/-- A thread whose list element is on no list. -/
structure Loose (s : Sched) (t : Nat) : Prop where
  ready : t ∉ s.fifoReadyList
  waiter : ∀ q, t ∉ s.waiters q
  sleeper : t ∉ s.sleepers

theorem Inv.loose (h : Inv s) : Loose s s.current := by
  have hcur := h.current
  refine ⟨fun hr => ?_, fun q hq => ?_, fun hs => ?_⟩
  · have := ((h.mem_ready _).mp hr).1
    rw [hcur] at this
    exact absurd this (by simp)
  · have := (h.waiter q _ hq).1
    rw [hcur] at this
    exact absurd this (by simp)
  · have := (h.sleeper _ hs).1
    rw [hcur] at this
    exact absurd this (by simp)

theorem Inv.threadCurrent_eq (h : Inv s) : s.threadCurrent = some s.current := if_pos h.current

/-- How a loose thread `t` takes the status `st` and joins the lists of `s₁`. -/
structure Joins (s s₁ : Sched) (t : Nat) (st : Status) : Prop where
  status : ∀ u, s₁.status u = if u = t then some st else s.status u
  idle : s₁.idleThread = s.idleThread
  ready_nodup : s₁.fifoReadyList.Nodup
  ready : ∀ u, u ∈ s₁.fifoReadyList ↔
    u ∈ s.fifoReadyList ∨ (u = t ∧ st = .ready ∧ s.idleThread ≠ some t)
  all_nodup : s₁.allList.Nodup
  all : ∀ u, u ∈ s₁.allList ↔ (u ≠ t ∧ u ∈ s.allList) ∨ (u = t ∧ st ≠ .dying)
  alive : st = .dying → s.idleThread ≠ some t
  sleepers_nodup : s₁.sleepers.Nodup
  sleepers : ∀ u ∈ s₁.sleepers, u ∈ s.sleepers ∨ (u = t ∧ st = .blocked ∧ s.idleThread ≠ some t)
  waiters_nodup : ∀ q, (s₁.waiters q).Nodup
  waiters : ∀ q, ∀ u ∈ s₁.waiters q, u ∈ s.waiters q ∨
    (u = t ∧ st = .blocked ∧ s.idleThread ≠ some t ∧ t ∉ s₁.sleepers ∧
      ∀ r, t ∈ s₁.waiters r → r = q)

/-- A thread that was nowhere joins one of the lists, with the status that goes with it; the
lists of the others are as before. -/
theorem Joins.consistent {s₁ : Sched} (hj : Joins s s₁ t st) (h : Consistent s) (hl : Loose s t) :
    Consistent s₁ := by
  have hother : ∀ u, u ≠ t → s₁.status u = s.status u := by
    intro u hu
    rw [hj.status, if_neg hu]
  have hself : s₁.status t = some st := by
    rw [hj.status, if_pos rfl]
  refine ⟨hj.ready_nodup, fun u => ?_, hj.all_nodup, fun u => ?_, fun u hu => ?_,
    hj.sleepers_nodup, fun u hu => ?_, hj.waiters_nodup, fun q u hu => ?_⟩
  · rw [hj.ready, hj.idle]
    by_cases heq : u = t
    · subst heq
      rw [hself]
      simp [hl.ready]
    · rw [hother u heq, h.mem_ready u]
      simp [heq]
  · rw [hj.all]
    by_cases heq : u = t
    · subst heq
      rw [hself]
      simp
    · rw [hother u heq, h.mem_all u]
      simp [heq]
  · rw [hj.idle] at hu
    by_cases heq : u = t
    · subst heq
      rw [hself]
      exact ⟨by simp, fun hd => hj.alive (Option.some.inj hd) hu⟩
    · rw [hother u heq]
      exact h.idle u hu
  · rw [hj.idle]
    rcases hj.sleepers u hu with hold | ⟨rfl, rfl, hidle⟩
    · rw [hother u fun heq => hl.sleeper (heq ▸ hold)]
      exact h.sleeper u hold
    · exact ⟨hself, hidle⟩
  · rw [hj.idle]
    rcases hj.waiters q u hu with hold | ⟨rfl, rfl, hidle, hs, hq⟩
    · have hne : u ≠ t := fun heq => hl.waiter q (heq ▸ hold)
      obtain ⟨hblocked, hidle, hsleep, huniq⟩ := h.waiter q u hold
      rw [hother u hne]
      refine ⟨hblocked, hidle, fun hs => ?_, fun r hr => ?_⟩
      · rcases hj.sleepers u hs with hs | ⟨heq, -⟩
        · exact hsleep hs
        · exact hne heq
      · rcases hj.waiters r u hr with hr | ⟨heq, -⟩
        · exact huniq r hr
        · exact absurd heq hne
    · exact ⟨hself, hidle, hs, hq⟩

theorem nodup_snoc {l : List Nat} (h : l.Nodup) (ht : t ∉ l) : (l ++ [t]).Nodup := by
  rw [List.nodup_append]
  refine ⟨h, List.pairwise_singleton _ _, fun a ha b hb heq => ?_⟩
  rw [List.mem_singleton.mp hb] at heq
  exact ht (heq ▸ ha)

/-- A thread that blocks: it sleeps, waits on a semaphore, or is the idle thread. `hwhere` has
the three ways, which differ in the list that it is put into. -/
theorem Consistent.joins_blocked (h : Consistent s) (hl : Loose s t) {s₁ : Sched}
    (hstatus : ∀ u, s₁.status u = if u = t then some .blocked else s.status u)
    (hidle : s₁.idleThread = s.idleThread) (hready : s₁.fifoReadyList = s.fifoReadyList)
    (halln : s₁.allList.Nodup) (hall : ∀ u, u ∈ s₁.allList ↔ u = t ∨ u ∈ s.allList)
    (hwhere : (s₁.sleepers = s.sleepers ∧ s₁.waiters = s.waiters) ∨
      (s.idleThread ≠ some t ∧ s₁.sleepers = t :: s.sleepers ∧ s₁.waiters = s.waiters) ∨
      (s.idleThread ≠ some t ∧ s₁.sleepers = s.sleepers ∧
        ∃ q, s₁.waiters = Function.update s.waiters q (s.waiters q ++ [t]))) :
    Joins s s₁ t .blocked := by
  have hcommon : (∀ u, u ∈ s₁.fifoReadyList ↔ u ∈ s.fifoReadyList ∨
        (u = t ∧ Status.blocked = .ready ∧ s.idleThread ≠ some t)) ∧
      ∀ u, u ∈ s₁.allList ↔ (u ≠ t ∧ u ∈ s.allList) ∨ (u = t ∧ Status.blocked ≠ .dying) := by
    refine ⟨fun u => by simp [hready], fun u => ?_⟩
    rw [hall]
    by_cases heq : u = t <;> simp [heq]
  obtain ⟨hr, ha⟩ := hcommon
  have hrn : s₁.fifoReadyList.Nodup := hready ▸ h.ready_nodup
  rcases hwhere with ⟨hs, hw⟩ | ⟨hi, hs, hw⟩ | ⟨hi, hs, q, hw⟩
  · exact ⟨hstatus, hidle, hrn, hr, halln, ha, by simp, hs ▸ h.sleepers_nodup,
      fun u hu => Or.inl (hs ▸ hu), hw ▸ h.waiters_nodup, fun q u hu => Or.inl (hw ▸ hu)⟩
  · refine ⟨hstatus, hidle, hrn, hr, halln, ha, by simp, ?_, fun u hu => ?_, hw ▸ h.waiters_nodup,
      fun q u hu => Or.inl (hw ▸ hu)⟩
    · rw [hs]
      exact List.nodup_cons.mpr ⟨hl.sleeper, h.sleepers_nodup⟩
    · rw [hs] at hu
      rcases List.mem_cons.mp hu with rfl | hu
      · exact Or.inr ⟨rfl, rfl, hi⟩
      · exact Or.inl hu
  · have hother : ∀ r, r ≠ q → s₁.waiters r = s.waiters r := by
      intro r hr
      rw [hw, Function.update_of_ne hr]
    have hself : s₁.waiters q = s.waiters q ++ [t] := by
      rw [hw, Function.update_self]
    have honly : ∀ r, t ∈ s₁.waiters r → r = q := by
      intro r hr
      by_contra hne
      rw [hother r hne] at hr
      exact hl.waiter r hr
    refine ⟨hstatus, hidle, hrn, hr, halln, ha, by simp, hs ▸ h.sleepers_nodup,
      fun u hu => Or.inl (hs ▸ hu), fun r => ?_, fun r u hu => ?_⟩
    · by_cases heq : r = q
      · rw [heq, hself]
        exact nodup_snoc (h.waiters_nodup q) (hl.waiter q)
      · rw [hother r heq]
        exact h.waiters_nodup r
    · by_cases heq : r = q
      · rw [heq, hself] at hu
        rcases List.mem_append.mp hu with hu | hu
        · exact Or.inl (heq ▸ hu)
        · refine Or.inr ⟨List.mem_singleton.mp hu, rfl, hi, hs ▸ hl.sleeper, fun r' hr' => ?_⟩
          exact (honly r' hr').trans heq.symm
      · rw [hother r heq] at hu
        exact Or.inl hu

/-- A thread that becomes ready is queued, unless it is the idle thread. -/
theorem Consistent.joins_ready (h : Consistent s) (hl : Loose s t) (ht : t ∈ s.allList) :
    Joins s ((if s.idleThread = some t then s else s.threadEnqueue t).setStatus t .ready) t
      .ready := by
  have hall : ∀ u, u ∈ s.allList ↔ (u ≠ t ∧ u ∈ s.allList) ∨ (u = t ∧ Status.ready ≠ .dying) := by
    intro u
    by_cases heq : u = t <;> simp [heq, ht]
  by_cases hi : s.idleThread = some t
  · rw [if_pos hi]
    exact ⟨fun _ => setStatus_status, rfl, h.ready_nodup, fun u => by simp [hi], h.all_nodup, hall,
      by simp, h.sleepers_nodup, fun u hu => Or.inl hu, h.waiters_nodup, fun q u hu => Or.inl hu⟩
  · rw [if_neg hi]
    refine ⟨fun _ => setStatus_status, rfl, nodup_snoc h.ready_nodup hl.ready, fun u => ?_,
      h.all_nodup, hall, by simp, h.sleepers_nodup, fun u hu => Or.inl hu, h.waiters_nodup,
      fun q u hu => Or.inl hu⟩
    simp [threadEnqueue, hi]

/-- A thread that dies leaves the list of all threads. -/
theorem Consistent.joins_dying (h : Consistent s) (hi : s.idleThread ≠ some t) :
    Joins s { s.setStatus t .dying with allList := s.allList.erase t } t .dying := by
  refine ⟨fun _ => setStatus_status, rfl, h.ready_nodup, fun u => by simp, h.all_nodup.erase _,
    fun u => ?_, fun _ => hi, h.sleepers_nodup, fun u hu => Or.inl hu, h.waiters_nodup,
    fun q u hu => Or.inl hu⟩
  rw [h.all_nodup.mem_erase_iff]
  simp

/-- The running thread takes the status `st` and calls `schedule`. -/
theorem Inv.leave (h : Inv s) {s₁ : Sched} (hj : Joins s s₁ s.current st) (hst : st ≠ .running)
    (hcur : s₁.current = s.current) (hinit : s₁.initialThread = s.initialThread) : Leaving s₁ := by
  refine ⟨hj.consistent h.toConsistent h.loose, fun t ht => ?_, fun t ht => ?_, ?_⟩
  · rw [hj.status] at ht
    split at ht
    · exact hst (Option.some.inj ht)
    · rename_i hne
      exact hne (h.running t ht)
  · rw [hj.status] at ht
    split at ht
    · rename_i heq
      exact Or.inr (heq.trans hcur.symm)
    · exact Or.inl ((h.dying t ht).trans hinit.symm)
  · rw [hj.status, hcur, if_pos rfl]
    simp

/-- Another thread takes the status `st`. -/
theorem Inv.join (h : Inv s) {s₁ : Sched} (hj : Joins s s₁ t st) (hl : Loose s t)
    (ht : t ≠ s.current) (hst : st ≠ .running) (hdie : st ≠ .dying) (hcur : s₁.current = s.current)
    (hinit : s₁.initialThread = s.initialThread) : Inv s₁ := by
  refine ⟨hj.consistent h.toConsistent hl, ?_, fun u hu => ?_, fun u hu => ?_⟩
  · rw [hj.status, hcur, if_neg (Ne.symm ht)]
    exact h.current
  · rw [hj.status] at hu
    split at hu
    · exact absurd (Option.some.inj hu) hst
    · exact (h.running u hu).trans hcur.symm
  · rw [hj.status] at hu
    split at hu
    · exact absurd (Option.some.inj hu) hdie
    · exact (h.dying u hu).trans hinit.symm

/-- A page without a thread. -/
theorem Inv.init_thread (h : Inv s) {page : Nat} (hpage : s.status page = none) :
    Loose s page ∧ Joins s (s.initThread page) page .blocked ∧ page ≠ s.current := by
  have hl : Loose s page := by
    refine ⟨fun hr => ?_, fun q hq => ?_, fun hs => ?_⟩
    · have := ((h.mem_ready _).mp hr).1
      rw [hpage] at this
      exact absurd this (by simp)
    · have := (h.waiter q _ hq).1
      rw [hpage] at this
      exact absurd this (by simp)
    · have := (h.sleeper _ hs).1
      rw [hpage] at this
      exact absurd this (by simp)
  have hall : page ∉ s.allList := fun ha => ((h.mem_all page).mp ha).1 hpage
  refine ⟨hl, h.joins_blocked hl (fun _ => setStatus_status) rfl rfl (nodup_snoc h.all_nodup hall)
    (fun u => ?_) (Or.inl ⟨rfl, rfl⟩), fun heq => ?_⟩
  · simp [initThread, or_comm]
  · have hcur := h.current
    rw [← heq, hpage] at hcur
    exact absurd hcur (by simp)

/-- `thread_unblock` of a blocked thread on no list. -/
theorem Inv.thread_unblock (h : Inv s) (hl : Loose s t) (hblocked : s.status t = some .blocked)
    (hidle : s.idleThread ≠ some t) :
    ∃ s₁, s.threadUnblock t = some s₁ ∧ Inv s₁ ∧ s₁.idleThread = s.idleThread ∧
      s₁.fifoReadyList = s.fifoReadyList ++ [t] := by
  have hmem : t ∈ s.allList := by
    rw [h.mem_all, hblocked]
    simp
  have hne : t ≠ s.current := by
    intro heq
    rw [heq, h.current] at hblocked
    exact absurd hblocked (by simp)
  have hj := h.joins_ready hl hmem
  rw [if_neg hidle] at hj
  exact ⟨_, if_pos hblocked, h.join hj hl hne (by simp) (by simp) rfl rfl, rfl, rfl⟩

/-- A thread that is created is queued. -/
theorem Inv.enter_create {page : Option Nat} (h : Inv s) (ha : s.Admits (.create page) = true) :
    ∃ s₁, s.enter (.create page) = some s₁ ∧ Inv s₁ ∧
      ∃ more, s₁.fifoReadyList = s.fifoReadyList ++ more := by
  cases page with
  | none => exact ⟨s, rfl, h, [], (List.append_nil _).symm⟩
  | some page =>
      have hpage : s.status page = none := of_decide_eq_true ha
      obtain ⟨hl, hj, hne⟩ := h.init_thread hpage
      have hinv := h.join hj hl hne (by simp) (by simp) rfl rfl
      have hidle : s.idleThread ≠ some page := fun hi => (h.idle page hi).1 hpage
      obtain ⟨s₁, hs₁, hinv₁, -, hready⟩ := hinv.thread_unblock ⟨hl.ready, hl.waiter, hl.sleeper⟩
        (setStatus_status.trans (if_pos rfl)) hidle
      exact ⟨s₁, hs₁, hinv₁, [page], hready⟩

/-- A thread whose creation has begun is blocked. -/
theorem Inv.enter_createBegin {page : Nat} (h : Inv s) (ha : s.Admits (.createBegin page) = true) :
    ∃ s₁, s.enter (.createBegin page) = some s₁ ∧ Inv s₁ ∧
      ∃ more, s₁.fifoReadyList = s.fifoReadyList ++ more := by
  have hpage : s.status page = none := of_decide_eq_true ha
  obtain ⟨hl, hj, hne⟩ := h.init_thread hpage
  have hidle : s.idleThread ≠ some page := fun hi => (h.idle page hi).1 hpage
  have hj' : Joins s { s.initThread page with sleepers := page :: s.sleepers } page .blocked :=
    h.joins_blocked hl hj.status rfl rfl hj.all_nodup (fun u => by simp [initThread, or_comm])
      (Or.inr (Or.inl ⟨hidle, rfl, rfl⟩))
  exact ⟨_, rfl, h.join hj' hl hne (by simp) (by simp) rfl rfl, [], (List.append_nil _).symm⟩

/-- The idle thread is not queued from now on. -/
theorem Inv.enter_becomeIdle (h : Inv s) (ha : s.Admits .becomeIdle = true) :
    ∃ s₁, s.enter .becomeIdle = some s₁ ∧ Inv s₁ ∧
      ∃ more, s₁.fifoReadyList = s.fifoReadyList ++ more := by
  have hnone : s.idleThread = none := Option.isNone_iff_eq_none.mp ha
  have hcur := h.current
  obtain ⟨hlr, hlw, hls⟩ := h.loose
  have hne : ∀ {u : Nat}, u ≠ s.current → some s.current ≠ some u := by
    intro u hu heq
    exact hu (Option.some.inj heq).symm
  refine ⟨{ s with idleThread := some s.current }, by rw [enter, h.threadCurrent_eq]; rfl,
    ⟨⟨h.ready_nodup, fun u => ?_, h.all_nodup, h.mem_all, fun u hu => ?_, h.sleepers_nodup,
      fun u hu => ?_, h.waiters_nodup, fun q u hu => ?_⟩, h.current, h.running, h.dying⟩,
    [], (List.append_nil _).symm⟩
  · refine (h.mem_ready u).trans (and_congr_right fun hr => iff_of_true (by simp [hnone]) ?_)
    refine hne fun heq => ?_
    rw [heq, hcur] at hr
    exact absurd hr (by simp)
  · obtain rfl := Option.some.inj hu
    rw [hcur]
    simp
  · exact ⟨(h.sleeper u hu).1, hne fun heq => hls (heq ▸ hu)⟩
  · exact ⟨(h.waiter q u hu).1, hne fun heq => hlw q (heq ▸ hu), (h.waiter q u hu).2.2⟩

/-- A thread that is unblocked no longer sleeps, and is queued. -/
theorem Inv.enter_unblock {t : Nat} (h : Inv s) (ha : s.Admits (.unblock t) = true) :
    ∃ s₁, s.enter (.unblock t) = some s₁ ∧ Inv s₁ ∧
      ∃ more, s₁.fifoReadyList = s.fifoReadyList ++ more := by
  have hmem : t ∈ s.sleepers := of_decide_eq_true ha
  obtain ⟨hblocked, hidle⟩ := h.sleeper t hmem
  have hsub : ∀ u ∈ s.sleepers.erase t, u ∈ s.sleepers := fun u hu => List.mem_of_mem_erase hu
  have hinv : Inv { s with sleepers := s.sleepers.erase t } :=
    ⟨⟨h.ready_nodup, h.mem_ready, h.all_nodup, h.mem_all, h.idle, h.sleepers_nodup.erase _,
      fun u hu => h.sleeper u (hsub u hu), h.waiters_nodup, fun q u hu =>
        ⟨(h.waiter q u hu).1, (h.waiter q u hu).2.1, fun hs => (h.waiter q u hu).2.2.1 (hsub u hs),
          (h.waiter q u hu).2.2.2⟩⟩, h.current, h.running, h.dying⟩
  have hl : Loose { s with sleepers := s.sleepers.erase t } t := by
    refine ⟨fun hr => ?_, fun q hq => (h.waiter q t hq).2.2.1 hmem,
      h.sleepers_nodup.not_mem_erase⟩
    have := ((h.mem_ready t).mp hr).1
    rw [hblocked] at this
    exact absurd this (by simp)
  obtain ⟨s₁, hs₁, hinv₁, -, hready⟩ := hinv.thread_unblock hl hblocked hidle
  exact ⟨s₁, hs₁, hinv₁, [t], hready⟩

/-- The first of the threads that wait on a semaphore is queued behind those that are ready.
It was in the list of that semaphore and nowhere else. -/
theorem Inv.enter_semaUp (h : Inv s) (sema : Nat) :
    ∃ s₁, s.enter (.semaUp sema) = some s₁ ∧ Inv s₁ ∧
      ∃ more, s₁.fifoReadyList = s.fifoReadyList ++ more := by
  unfold enter
  cases hw : s.waiters sema with
  | nil => exact ⟨s, by simp only [hw], h, [], (List.append_nil _).symm⟩
  | cons t ts =>
      obtain ⟨hblocked, hidle, hsleep, huniq⟩ := h.waiter sema t (by simp [hw])
      have hnodup := h.waiters_nodup sema
      rw [hw] at hnodup
      obtain ⟨hnot, htail⟩ := List.nodup_cons.mp hnodup
      have hsub : ∀ q, ∀ u ∈ Function.update s.waiters sema ts q, u ∈ s.waiters q := by
        intro q u hu
        by_cases heq : q = sema
        · subst heq
          rw [Function.update_self] at hu
          rw [hw]
          exact List.mem_cons_of_mem _ hu
        · rwa [Function.update_of_ne heq] at hu
      have hinv : Inv { s with waiters := Function.update s.waiters sema ts } := by
        refine ⟨⟨h.ready_nodup, h.mem_ready, h.all_nodup, h.mem_all, h.idle, h.sleepers_nodup,
          h.sleeper, fun q => ?_, fun q u hu => ?_⟩, h.current, h.running, h.dying⟩
        · show (Function.update s.waiters sema ts q).Nodup
          by_cases heq : q = sema
          · rw [heq, Function.update_self]
            exact htail
          · rw [Function.update_of_ne heq]
            exact h.waiters_nodup q
        · obtain ⟨h₁, h₂, h₃, h₄⟩ := h.waiter q u (hsub q u hu)
          exact ⟨h₁, h₂, h₃, fun r hr => h₄ r (hsub r u hr)⟩
      have hl : Loose { s with waiters := Function.update s.waiters sema ts } t := by
        refine ⟨fun hr => ?_, fun q hq => ?_, hsleep⟩
        · have := ((h.mem_ready t).mp hr).1
          rw [hblocked] at this
          exact absurd this (by simp)
        · have heq := huniq q (hsub q t hq)
          subst heq
          change t ∈ Function.update s.waiters q ts q at hq
          rw [Function.update_self] at hq
          exact hnot hq
      obtain ⟨s₁, hs₁, hinv₁, -, hready⟩ := hinv.thread_unblock hl hblocked hidle
      refine ⟨s₁, ?_, hinv₁, [t], hready⟩
      simp only [hw]
      exact hs₁

/-- **Operations without `schedule`** keep the invariant and queue at most one
thread, at the end. -/
theorem Inv.enter_stay (h : Inv s) (ha : s.Admits op = true) (hop : op.schedules = false) :
    ∃ s₁, s.enter op = some s₁ ∧ Inv s₁ ∧ ∃ more, s₁.fifoReadyList = s.fifoReadyList ++ more := by
  cases op with
  | block => exact absurd hop (by simp [Op.schedules])
  | semaDown sema => exact absurd hop (by simp [Op.schedules])
  | yield => exact absurd hop (by simp [Op.schedules])
  | exit => exact absurd hop (by simp [Op.schedules])
  | create page => exact h.enter_create ha
  | createBegin page => exact h.enter_createBegin ha
  | becomeIdle => exact h.enter_becomeIdle ha
  | unblock t => exact h.enter_unblock ha
  | semaUp sema => exact h.enter_semaUp sema

/-- **Operations with `schedule`** prepare for it; a thread that yields is queued at
the end. -/
theorem Inv.enter_leave (h : Inv s) (ha : s.Admits op = true) (hop : op.schedules = true) :
    ∃ s₁, s.enter op = some s₁ ∧ Leaving s₁ ∧ s₁.idleThread = s.idleThread ∧
      ∃ more, s₁.fifoReadyList = s.fifoReadyList ++ more := by
  have hmem : s.current ∈ s.allList := by
    rw [h.mem_all, h.current]
    simp
  have hall : ∀ u, u ∈ s.allList ↔ u = s.current ∨ u ∈ s.allList := by
    intro u
    by_cases heq : u = s.current <;> simp [heq, hmem]
  cases op with
  | create page => exact absurd hop (by simp [Op.schedules])
  | createBegin page => exact absurd hop (by simp [Op.schedules])
  | becomeIdle => exact absurd hop (by simp [Op.schedules])
  | unblock t => exact absurd hop (by simp [Op.schedules])
  | semaUp sema => exact absurd hop (by simp [Op.schedules])
  | block =>
      refine ⟨_, by rw [enter, h.threadCurrent_eq]; rfl, ?_, ?_, [], ?_⟩
      · refine h.leave (h.joins_blocked h.loose (fun _ => setStatus_status) rfl rfl h.all_nodup hall ?_)
          (by simp) rfl rfl
        by_cases hi : s.idleThread = some s.current
        · exact Or.inl ⟨if_pos hi, rfl⟩
        · exact Or.inr (Or.inl ⟨hi, if_neg hi, rfl⟩)
      · rfl
      · exact (List.append_nil _).symm
  | semaDown sema =>
      have hidle : s.idleThread ≠ some s.current := of_decide_eq_true ha
      refine ⟨_, by rw [enter, h.threadCurrent_eq]; rfl, ?_, ?_, [], ?_⟩
      · exact h.leave (h.joins_blocked h.loose (fun _ => setStatus_status) rfl rfl h.all_nodup hall
          (Or.inr (Or.inr ⟨hidle, rfl, sema, rfl⟩))) (by simp) rfl rfl
      · rfl
      · exact (List.append_nil _).symm
  | yield =>
      have hj := h.joins_ready h.loose hmem
      by_cases hi : s.idleThread = some s.current
      · rw [if_pos hi] at hj
        refine ⟨_, by rw [enter, h.threadCurrent_eq]; rfl, ?_, ?_, [], ?_⟩
        all_goals simp only [hi, if_true]
        · exact h.leave hj (by simp) rfl rfl
        · exact hi
        · exact (List.append_nil _).symm
      · rw [if_neg hi] at hj
        refine ⟨_, by rw [enter, h.threadCurrent_eq]; rfl, ?_, ?_, [s.current], ?_⟩
        all_goals simp only [hi, if_false]
        · exact h.leave hj (by simp) rfl rfl
        · rfl
        · rfl
  | exit =>
      have hidle : s.idleThread ≠ some s.current := of_decide_eq_true ha
      refine ⟨_, by rw [enter, h.threadCurrent_eq]; rfl, ?_, ?_, [], ?_⟩
      · exact h.leave (h.joins_dying hidle) (by simp) rfl rfl
      · rfl
      · exact (List.append_nil _).symm

/-! ### One step -/

/-- There is a thread to run once the idle thread is known. -/
theorem exists_picks (h : s.fifoReadyList ≠ [] ∨ s.idleThread ≠ none) :
    ∃ next rest, s.Picks next rest := by
  cases hready : s.fifoReadyList with
  | cons next rest => exact ⟨next, rest, .front hready⟩
  | nil =>
      obtain ⟨t, ht⟩ := Option.ne_none_iff_exists'.mp (h.resolve_left (by simp [hready]))
      exact ⟨t, [], .idle hready rfl ht⟩

/-- Without one, `is_thread (next)` fails. -/
theorem dispatch_eq_none (hready : s.fifoReadyList = []) (hidle : s.idleThread = none) :
    s.dispatch = none := by
  unfold Sched.dispatch threadScheduleFifo
  simp only [hready, hidle]
  split <;> rfl

theorem pallocFreePage_ready (s : Sched) (page : Option Nat) :
    (s.pallocFreePage page).fifoReadyList = s.fifoReadyList := by
  cases page <;> rfl

theorem pallocFreePage_current (s : Sched) (page : Option Nat) :
    (s.pallocFreePage page).current = s.current := by
  cases page <;> rfl

/-- **An operation with `schedule`** dispatches the thread at the front of the
ready list, or the idle thread when there is none. -/
theorem Inv.step_schedule (h : Inv s) (hop : op.schedules = true) (hstep : s.Step op s') :
    Inv s' ∧ ∃ more, (∃ rest, s.fifoReadyList ++ more = s'.current :: rest ∧
        s'.fifoReadyList = rest) ∨
      (s.fifoReadyList ++ more = [] ∧ s'.fifoReadyList = []) := by
  unfold Step step at hstep
  split at hstep
  · rename_i ha
    obtain ⟨s₁, hs₁, hleave, -, more, hmore⟩ := h.enter_leave ha hop
    simp only [hs₁, Option.bind_some] at hstep
    unfold schedule at hstep
    by_cases hpick : s₁.fifoReadyList ≠ [] ∨ s₁.idleThread ≠ none
    · obtain ⟨next, rest, hp⟩ := exists_picks hpick
      obtain ⟨page, hrun, -, hinv⟩ := hleave.dispatch hp
      rw [hrun] at hstep
      obtain rfl := Option.some.inj hstep
      refine ⟨hinv, more, ?_⟩
      rw [← hmore, pallocFreePage_ready, pallocFreePage_current]
      cases hp with
      | front hready => exact Or.inl ⟨rest, hready, rfl⟩
      | idle hready hrest hidle => exact Or.inr ⟨hready, hrest⟩
    · obtain ⟨hready, hidle⟩ := not_or.mp hpick
      rw [dispatch_eq_none (not_not.mp hready) (not_not.mp hidle)] at hstep
      exact absurd hstep (by simp)
  · exact absurd hstep (by simp)

/-- **Any other operation** leaves the order of the ready list alone. -/
theorem Inv.step_stay (h : Inv s) (hop : op.schedules = false) (hstep : s.Step op s') :
    Inv s' ∧ ∃ more, s'.fifoReadyList = s.fifoReadyList ++ more := by
  unfold Step step at hstep
  split at hstep
  · rename_i ha
    obtain ⟨s₁, hs₁, hinv, hmore⟩ := h.enter_stay ha hop
    simp only [hs₁, Option.bind_some, hop, Bool.false_eq_true, if_false] at hstep
    obtain rfl := Option.some.inj hstep
    exact ⟨hinv, hmore⟩
  · exact absurd hstep (by simp)

theorem Inv.step (h : Inv s) (hstep : s.Step op s') : Inv s' := by
  cases hop : op.schedules with
  | true => exact (h.step_schedule hop hstep).1
  | false => exact (h.step_stay hop hstep).1

/-- No assertion fails in an operation that does not switch threads. -/
theorem Inv.stay_isSome (h : Inv s) (ha : s.Admits op = true) (hop : op.schedules = false) :
    (s.step op).isSome := by
  obtain ⟨s₁, hs₁, -⟩ := h.enter_stay ha hop
  unfold Sched.step
  simp [ha, hop, hs₁]

/-- No assertion fails in an operation after the idle thread has started: there is always
a thread to switch to. -/
theorem Inv.step_isSome (h : Inv s) (hidle : s.idleThread ≠ none) (ha : s.Admits op = true) :
    (s.step op).isSome := by
  cases hop : op.schedules with
  | true =>
      obtain ⟨s₁, hs₁, hleave, hidle₁, -⟩ := h.enter_leave ha hop
      obtain ⟨next, rest, hp⟩ := exists_picks (s := s₁) (Or.inr (hidle₁ ▸ hidle))
      obtain ⟨page, hrun, -⟩ := hleave.dispatch hp
      simp [Sched.step, ha, hop, hs₁, schedule, hrun]
  | false => exact h.stay_isSome ha hop

/-- Only dead threads are freed. -/
theorem Inv.freeing (h : Inv s) (ha : s.Admits op = true) {mid : Sched} {p : Nat}
    (hfree : s.freeing op = some (mid, p)) : Dead mid p := by
  unfold Sched.freeing at hfree
  split at hfree
  · rename_i hop
    obtain ⟨s₁, hs₁, hleave, -⟩ := h.enter_leave ha hop
    rw [hs₁, Option.bind_some] at hfree
    by_cases hpick : s₁.fifoReadyList ≠ [] ∨ s₁.idleThread ≠ none
    · obtain ⟨next, rest, hp⟩ := exists_picks hpick
      obtain ⟨page, hrun, hdead, -⟩ := hleave.dispatch hp
      rw [hrun, Option.bind_some] at hfree
      obtain ⟨p', hpage, heq⟩ := Option.map_eq_some_iff.mp hfree
      obtain ⟨rfl, rfl⟩ := Prod.mk.inj heq
      exact hdead p' hpage
    · obtain ⟨hready, hidle⟩ := not_or.mp hpick
      rw [dispatch_eq_none (not_not.mp hready) (not_not.mp hidle)] at hfree
      exact absurd hfree (by simp)
  · exact absurd hfree (by simp)

/-! ### Runs -/

/-- The calls of `schedule` in `ts` dispatch `t` for the first time at the one with
number `k`, counted from 0. -/
def DispatchedBy (t k : Nat) (ts : List (Transition Sched Op)) : Prop :=
  ∀ i τ, (ts.filter fun τ => τ.label.schedules)[i]? = some τ →
    (i < k → τ.post.current ≠ t) ∧ (i = k → τ.post.current = t)

variable {ts : List (Transition Sched Op)}

/-- **First in, first out.** The induction is on the run; each `schedule` moves the
thread one place forward. -/
theorem Inv.dispatchedBy (h : Inv s) (hrun : Run Step s ts) {k : Nat}
    (hk : s.fifoReadyList[k]? = some t) : DispatchedBy t k ts := by
  induction hrun generalizing k with
  | nil s =>
      intro i τ hτ
      simp at hτ
  | @cons s s' op ts hstep _ ih =>
      have hlt : k < s.fifoReadyList.length := (List.getElem?_eq_some_iff.mp hk).1
      have hmore : ∀ more, (s.fifoReadyList ++ more)[k]? = some t := fun more => by
        rw [List.getElem?_append_left hlt, hk]
      cases hop : op.schedules with
      | false =>
          obtain ⟨hinv, more, hready⟩ := h.step_stay hop hstep
          intro i τ hτ
          rw [List.filter_cons_of_neg (by simp [hop])] at hτ
          exact ih hinv (by rw [hready, hmore]) i τ hτ
      | true =>
          obtain ⟨hinv, more, ⟨rest, hfront, hready⟩ | ⟨hnil, -⟩⟩ := h.step_schedule hop hstep
          · have hpos := hmore more
            rw [hfront] at hpos
            intro i τ hτ
            rw [List.filter_cons_of_pos (by simp [hop])] at hτ
            cases i with
            | zero =>
                obtain rfl := Option.some.inj hτ
                refine ⟨fun hi hcur => ?_, fun hi => ?_⟩
                · -- a thread still queued does not run
                  obtain ⟨k, rfl⟩ := Nat.exists_eq_succ_of_ne_zero (Nat.ne_of_gt hi)
                  have hmem : t ∈ s'.fifoReadyList := by
                    rw [hready]
                    exact List.mem_of_getElem? hpos
                  have hst := ((hinv.mem_ready t).mp hmem).1
                  rw [← hcur, hinv.current] at hst
                  exact absurd hst (by simp)
                · rw [← hi] at hpos
                  exact Option.some.inj hpos
            | succ i =>
                cases k with
                | zero => exact ⟨fun hi => absurd hi (Nat.not_lt_zero _), fun hi => absurd hi (by simp)⟩
                | succ k =>
                    have := ih hinv (k := k) (by rw [hready]; exact hpos) i τ hτ
                    exact ⟨fun hi => this.1 (Nat.lt_of_succ_lt_succ hi),
                      fun hi => this.2 (Nat.succ.inj hi)⟩
          · have hpos := hmore more
            rw [hnil] at hpos
            exact absurd hpos (by simp)

/-- Between operations: one thread runs, the ready list holds the ready threads
but the idle thread, and the list of all threads those that are not dying. -/
structure Orderly (s : Sched) : Prop where
  one_running : ∃! t, s.status t = some .running
  ready_nodup : s.fifoReadyList.Nodup
  mem_ready : ∀ t, t ∈ s.fifoReadyList ↔ s.status t = some .ready ∧ s.idleThread ≠ some t
  all_nodup : s.allList.Nodup
  mem_all : ∀ t, t ∈ s.allList ↔ s.status t ≠ none ∧ s.status t ≠ some .dying

theorem Inv.orderly (h : Inv s) : Orderly s :=
  ⟨⟨s.current, h.current, fun t ht => h.running t ht⟩, h.ready_nodup, h.mem_ready, h.all_nodup,
    h.mem_all⟩

theorem admits_of_step (hstep : s.Step op s') : s.Admits op = true := by
  unfold Step Sched.step at hstep
  split at hstep
  · assumption
  · exact absurd hstep (by simp)

/-- **The FIFO scheduler.** After every operation of a run the scheduler is in
order, what the operation freed was dead, and every thread in the ready list is
dispatched when those ahead of it have been. -/
theorem fifo_run_orderly {main : Nat} (hrun : Run Step (threadInit main) ts) :
    ∀ ts₁ τ ts₂, ts = ts₁ ++ τ :: ts₂ →
      τ.post.Orderly ∧
      (∀ mid p, τ.pre.freeing τ.label = some (mid, p) → Dead mid p) ∧
      ∀ k t, τ.post.fifoReadyList[k]? = some t → DispatchedBy t k ts₂ := by
  intro ts₁ τ ts₂ hts
  subst hts
  have hmem : τ ∈ ts₁ ++ τ :: ts₂ := by simp
  obtain ⟨hpre, hpost⟩ := hrun.invariant (I := Inv) (fun _ _ _ h hs => h.step hs)
    (threadInit_inv main) τ hmem
  refine ⟨hpost.orderly, fun mid p hfree => ?_, fun k t hk => ?_⟩
  · exact hpre.freeing (admits_of_step (hrun.step_of_mem τ hmem)) hfree
  · exact hpost.dispatchedBy hrun.suffix hk

/-- The start of the idle thread, threads that yield, wait and exit, and a page used
again. -/
theorem fifo_run_orderly_sample :
    (Run.trace Sched.step (threadInit 1) [.create (some 2), .semaDown 0, .becomeIdle]).length = 3 ∧
      ∀ ts₁ τ ts₂, Run.trace Sched.step (threadInit 1)
          [.create (some 2), .semaDown 0, .becomeIdle, .semaUp 0, .block, .create (some 3),
            .create (some 4), .yield, .exit, .create (some 3), .yield, .semaDown 1, .exit] =
          ts₁ ++ τ :: ts₂ →
        τ.post.Orderly ∧
        (∀ mid p, τ.pre.freeing τ.label = some (mid, p) → Dead mid p) ∧
        ∀ k t, τ.post.fifoReadyList[k]? = some t → DispatchedBy t k ts₂ :=
  ⟨by decide, fifo_run_orderly (Run.of_trace Sched.step _ _)⟩

end Sched

end OsTools.Threads

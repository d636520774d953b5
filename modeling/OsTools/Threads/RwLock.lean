import OsTools.Threads.Lock
/-!
# OsTools.Threads.RwLock

The readers-writers lock of `threads/synch.c` with the condition variables it
waits on: `rw_lock_acquire`, `rw_lock_release`, `cond_wait`, `cond_signal` and
`cond_broadcast`.

A state has three layers. The guard lock is a `LockSys`, so a thread inside
`lock_acquire (&rw_lock->lock)` or `lock_release` takes that model's steps. A
condition's waiters are threads: the `semaphore_elem` a thread queues lives on
its stack, so `wsem t` is the semaphore of `t`'s element. On top stand the four
counters and a program counter for every statement of the two functions, so
that a thread can be preempted between any two of them.

`Act.run t` lets `t` execute its next statement; `Act.acquire` and
`Act.release` are the calls. `held` is a ghost: how often a thread has returned
from `rw_lock_acquire` without having called `rw_lock_release` since, as reader
(`true`) and as writer (`false`). A thread may acquire again what it holds; it
releases only what it holds.

The four counters are numbers here and `int`s in the source. What a run says
about the source, it says as long as none of them leaves the range of `int`;
`RwInv.ints` in `OsTools.Threads.RwLockSafe` gives a bound under which none does.
-/

namespace OsTools.Threads

open Function (update)

/-- The program counter of a thread with respect to a readers-writers lock; the
Boolean is the argument `reader`. -/
inductive RwPc (Tid : Type*)
  /-- In neither function. -/
  | out
  /-- `rw_lock_acquire`: in `lock_acquire` of the guard. -/
  | lockAcquire (reader : Bool)
  /-- At the `while` condition. -/
  | test (reader : Bool)
  /-- At `WR++` / `WW++`. -/
  | incWait (reader : Bool)
  /-- `cond_wait`: at `sema_init` and `list_push_back`. -/
  | push (reader : Bool)
  /-- `cond_wait`: in `lock_release` of the guard. -/
  | unlockWait (reader : Bool)
  /-- `cond_wait`: before the first pass of `sema_down (&waiter.semaphore)`. -/
  | downWait (reader : Bool)
  /-- `cond_wait`: blocked in that `sema_down`. -/
  | blocked (reader : Bool)
  /-- `cond_wait`: unblocked, next pass of `sema_down` not run. -/
  | woken (reader : Bool)
  /-- `cond_wait`: in `lock_acquire` of the guard. -/
  | relock (reader : Bool)
  /-- At `WR--` / `WW--`. -/
  | decWait (reader : Bool)
  /-- At `AR++` / `AW++`. -/
  | incActive (reader : Bool)
  /-- `rw_lock_acquire`: in the final `lock_release`. -/
  | unlockAcquire (reader : Bool)
  /-- `rw_lock_release`: in `lock_acquire` of the guard. -/
  | lockRelease (reader : Bool)
  /-- At `AR--` / `AW--`. -/
  | decActive (reader : Bool)
  /-- At the `if` that follows. -/
  | signalTest (reader : Bool)
  /-- `cond_signal (&rw_lock->write, ..)`: at its `list_empty` test. -/
  | signal
  /-- `cond_broadcast (&rw_lock->read, ..)`: at its loop condition. -/
  | broadcast
  /-- `cond_signal`: popped `target`, at its `sema_up`. `more` tells whether the
  call came from `cond_broadcast`. -/
  | up (target : Tid) (more : Bool)
  /-- `rw_lock_release`: in the final `lock_release`. -/
  | unlockRelease
  deriving DecidableEq

namespace RwPc

variable {Tid : Type*}

/-- Inside `lock_acquire` of the guard. -/
def locking : RwPc Tid → Bool
  | .lockAcquire _ | .relock _ | .lockRelease _ => true
  | _ => false

/-- Inside `lock_release` of the guard. -/
def unlocking : RwPc Tid → Bool
  | .unlockWait _ | .unlockAcquire _ | .unlockRelease => true
  | _ => false

/-- Between the two, where the code relies on holding the guard. -/
def guarded : RwPc Tid → Bool
  | .test _ | .incWait _ | .push _ | .decWait _ | .incActive _ | .decActive _
  | .signalTest _ | .signal | .broadcast | .up _ _ => true
  | _ => false

/-- Where a thread continues once the guard's `lock_acquire` has returned. -/
def afterLock : RwPc Tid → RwPc Tid
  | .lockAcquire reader => .test reader
  | .relock reader => .decWait reader
  | .lockRelease reader => .decActive reader
  | p => p

end RwPc

/-- The step of `lock_acquire` a thread at `p` takes next, if it can run. -/
def lockNext : LockPc → Option LockAct
  | .out | .woken => some .acquire
  | .taken => some .setHolder
  | _ => none

/-- The step of `lock_release` a thread at `p` takes next. -/
def unlockNext : LockPc → Option LockAct
  | .held => some .release
  | .releasing => some .up
  | _ => none

/-- `struct rw_lock` and its threads. -/
structure RwSys (Tid : Type*) where
  guard : LockSys Tid
  read : List Tid
  write : List Tid
  AR : Int
  WR : Int
  AW : Int
  WW : Int
  wsem : Tid → Semaphore Tid
  pc : Tid → RwPc Tid
  held : Bool → Tid → Nat

/-- A step of the system: a thread runs its next statement, or calls one of the
two functions. -/
inductive RwAct (Tid : Type*)
  | run (t : Tid)
  | acquire (t : Tid) (reader : Bool)
  | release (t : Tid) (reader : Bool)
  deriving DecidableEq

namespace RwSys

variable {Tid : Type*} [DecidableEq Tid]

/-- `rw_lock_init`. -/
def init : RwSys Tid where
  guard := LockSys.init
  read := []
  write := []
  AR := 0
  WR := 0
  AW := 0
  WW := 0
  wsem _ := semaInit 0
  pc _ := .out
  held _ _ := 0

/-- The waiters of the condition a reader or writer waits on. -/
def queue (s : RwSys Tid) : Bool → List Tid
  | true => s.read
  | false => s.write

/-- Thread `t` continues at `p`. -/
def goto (s : RwSys Tid) (t : Tid) (p : RwPc Tid) : RwSys Tid :=
  { s with pc := update s.pc t p }

/-- Thread `t` takes a step of the guard's own code. -/
def guardStep (s : RwSys Tid) (t : Tid) (act : Option LockAct) : Option (RwSys Tid) :=
  act.bind fun a => (s.guard.step t a).map fun guard => { s with guard }

/-- The statement at `t`'s program counter. Nothing happens where the thread
is outside, is blocked, or an assertion fails. -/
def runThread (s : RwSys Tid) (t : Tid) : Option (RwSys Tid) :=
  match s.pc t with
  | .out => none
  | .lockAcquire _ | .relock _ | .lockRelease _ =>
      if s.guard.pc t = .held then some (s.goto t (s.pc t).afterLock)
      else s.guardStep t (lockNext (s.guard.pc t))
  | .test true =>
      if s.AW + s.WW > 0 then some (s.goto t (.incWait true))
      else some (s.goto t (.incActive true))
  | .test false =>
      if s.AR + s.AW > 0 then some (s.goto t (.incWait false))
      else some (s.goto t (.incActive false))
  | .incWait true => some ({ s with WR := s.WR + 1 }.goto t (.push true))
  | .incWait false => some ({ s with WW := s.WW + 1 }.goto t (.push false))
  | .push reader =>
      -- ASSERT (lock_held_by_current_thread (lock))
      if s.guard.holder ≠ some t then none
      else
        let s := { s with wsem := update s.wsem t (semaInit 0) }
        match reader with
        | true => some ({ s with read := s.read ++ [t] }.goto t (.unlockWait true))
        | false => some ({ s with write := s.write ++ [t] }.goto t (.unlockWait false))
  | .unlockWait reader =>
      if s.guard.pc t = .out then some (s.goto t (.downWait reader))
      else s.guardStep t (unlockNext (s.guard.pc t))
  | .downWait reader | .woken reader =>
      match semaDown (s.wsem t) t with
      | (sema, true) => some ({ s with wsem := update s.wsem t sema }.goto t (.relock reader))
      | (sema, false) => some ({ s with wsem := update s.wsem t sema }.goto t (.blocked reader))
  | .blocked _ => none
  | .decWait true => some ({ s with WR := s.WR - 1 }.goto t (.test true))
  | .decWait false => some ({ s with WW := s.WW - 1 }.goto t (.test false))
  | .incActive true => some ({ s with AR := s.AR + 1 }.goto t (.unlockAcquire true))
  | .incActive false => some ({ s with AW := s.AW + 1 }.goto t (.unlockAcquire false))
  | .unlockAcquire reader =>
      if s.guard.pc t = .out then
        some ({ s with held := update s.held reader
                         (update (s.held reader) t (s.held reader t + 1)) }.goto t .out)
      else s.guardStep t (unlockNext (s.guard.pc t))
  | .decActive true => some ({ s with AR := s.AR - 1 }.goto t (.signalTest true))
  | .decActive false => some ({ s with AW := s.AW - 1 }.goto t (.signalTest false))
  | .signalTest true =>
      if s.AR = 0 ∧ s.WW > 0 then some (s.goto t .signal) else some (s.goto t .unlockRelease)
  | .signalTest false =>
      if s.WW > 0 then some (s.goto t .signal)
      else if s.WR > 0 then some (s.goto t .broadcast)
      else some (s.goto t .unlockRelease)
  | .signal =>
      -- ASSERT (lock_held_by_current_thread (lock))
      if s.guard.holder ≠ some t then none
      else
        match s.write with
        | [] => some (s.goto t .unlockRelease)
        | x :: rest => some ({ s with write := rest }.goto t (.up x false))
  | .broadcast =>
      match s.read with
      | [] => some (s.goto t .unlockRelease)
      | x :: rest =>
          -- cond_signal: ASSERT (lock_held_by_current_thread (lock))
          if s.guard.holder ≠ some t then none
          else some ({ s with read := rest }.goto t (.up x true))
  | .up target more =>
      let next : RwPc Tid := if more then .broadcast else .unlockRelease
      match semaUp (s.wsem target) with
      | (sema, none) => some ({ s with wsem := update s.wsem target sema }.goto t next)
      | (sema, some x) =>
          match s.pc x with
          | .blocked reader =>
              some (({ s with wsem := update s.wsem target sema }.goto t next).goto x
                (.woken reader))
          -- thread_unblock: ASSERT (t->status == THREAD_BLOCKED)
          | _ => none
  | .unlockRelease =>
      if s.guard.pc t = .out then some (s.goto t .out)
      else s.guardStep t (unlockNext (s.guard.pc t))

/-- One step of the system. -/
def step (s : RwSys Tid) : RwAct Tid → Option (RwSys Tid)
  | .run t => s.runThread t
  | .acquire t reader =>
      if s.pc t = .out then some (s.goto t (.lockAcquire reader)) else none
  | .release t reader =>
      if s.pc t = .out ∧ 0 < s.held reader t then
        some ({ s with held := update s.held reader
                         (update (s.held reader) t (s.held reader t - 1)) }.goto t
                (.lockRelease reader))
      else none

/-- The steps as a relation. -/
def Step (s : RwSys Tid) (a : RwAct Tid) (s' : RwSys Tid) : Prop := s.step a = some s'

/-! ### What a step can do

The proofs never look at `runThread` again: `step_effect` names every effect a
step can have, with the tests it passed, and treats reader and writer at once
through `busy`, `addActive` and `addWaiting`. -/

/-- The sum whose positivity makes a reader or a writer wait. -/
def busy (s : RwSys Tid) : Bool → Int
  | true => s.AW + s.WW
  | false => s.AR + s.AW

/-- Change the reader's or the writer's active counter. -/
def addActive (s : RwSys Tid) (d : Int) : Bool → RwSys Tid
  | true => { s with AR := s.AR + d }
  | false => { s with AW := s.AW + d }

/-- Change the reader's or the writer's waiting counter. -/
def addWaiting (s : RwSys Tid) (d : Int) : Bool → RwSys Tid
  | true => { s with WR := s.WR + d }
  | false => { s with WW := s.WW + d }

/-- Queue a waiter on the reader's or the writer's condition. -/
def setQueue (s : RwSys Tid) (waiters : List Tid) : Bool → RwSys Tid
  | true => { s with read := waiters }
  | false => { s with write := waiters }

/-- The effects of a step. -/
inductive Effect (s : RwSys Tid) : RwAct Tid → RwSys Tid → Prop
  | acquire {t : Tid} {r : Bool} (hpc : s.pc t = .out) :
      Effect s (.acquire t r) (s.goto t (.lockAcquire r))
  | release {t : Tid} {r : Bool} (hpc : s.pc t = .out) (hheld : 0 < s.held r t) :
      Effect s (.release t r)
        ({ s with held := update s.held r (update (s.held r) t (s.held r t - 1)) }.goto t
          (.lockRelease r))
  | guardLock {t : Tid} {act : LockAct} {guard : LockSys Tid} (hpc : (s.pc t).locking = true)
      (hnext : lockNext (s.guard.pc t) = some act) (hg : s.guard.step t act = some guard) :
      Effect s (.run t) { s with guard }
  | guardUnlock {t : Tid} {act : LockAct} {guard : LockSys Tid}
      (hpc : (s.pc t).unlocking = true)
      (hnext : unlockNext (s.guard.pc t) = some act) (hg : s.guard.step t act = some guard) :
      Effect s (.run t) { s with guard }
  | locked {t : Tid} (hpc : (s.pc t).locking = true) (hg : s.guard.pc t = .held) :
      Effect s (.run t) (s.goto t (s.pc t).afterLock)
  | unlockedWait {t : Tid} {r : Bool} (hpc : s.pc t = .unlockWait r)
      (hg : s.guard.pc t = .out) : Effect s (.run t) (s.goto t (.downWait r))
  | acquired {t : Tid} {r : Bool} (hpc : s.pc t = .unlockAcquire r)
      (hg : s.guard.pc t = .out) :
      Effect s (.run t)
        ({ s with held := update s.held r (update (s.held r) t (s.held r t + 1)) }.goto t .out)
  | released {t : Tid} (hpc : s.pc t = .unlockRelease) (hg : s.guard.pc t = .out) :
      Effect s (.run t) (s.goto t .out)
  | testWait {t : Tid} {r : Bool} (hpc : s.pc t = .test r) (hbusy : 0 < s.busy r) :
      Effect s (.run t) (s.goto t (.incWait r))
  | testGo {t : Tid} {r : Bool} (hpc : s.pc t = .test r) (hbusy : s.busy r ≤ 0) :
      Effect s (.run t) (s.goto t (.incActive r))
  | incWait {t : Tid} {r : Bool} (hpc : s.pc t = .incWait r) :
      Effect s (.run t) ((s.addWaiting 1 r).goto t (.push r))
  | push {t : Tid} {r : Bool} (hpc : s.pc t = .push r) (hholder : s.guard.holder = some t) :
      Effect s (.run t)
        (({ s with wsem := update s.wsem t (semaInit 0) }.setQueue (s.queue r ++ [t]) r).goto t
          (.unlockWait r))
  | block {t : Tid} {r : Bool} (hpc : s.pc t = .downWait r ∨ s.pc t = .woken r)
      (hzero : (s.wsem t).value = 0) :
      Effect s (.run t)
        ({ s with wsem := update s.wsem t ⟨(s.wsem t).value, (s.wsem t).waiters ++ [t]⟩ }.goto t
          (.blocked r))
  | take {t : Tid} {r : Bool} {v : UInt32} (hpc : s.pc t = .downWait r ∨ s.pc t = .woken r)
      (hv : v.toNat + 1 = (s.wsem t).value.toNat) :
      Effect s (.run t)
        ({ s with wsem := update s.wsem t ⟨v, (s.wsem t).waiters⟩ }.goto t (.relock r))
  | decWait {t : Tid} {r : Bool} (hpc : s.pc t = .decWait r) :
      Effect s (.run t) ((s.addWaiting (-1) r).goto t (.test r))
  | incActive {t : Tid} {r : Bool} (hpc : s.pc t = .incActive r) :
      Effect s (.run t) ((s.addActive 1 r).goto t (.unlockAcquire r))
  | decActive {t : Tid} {r : Bool} (hpc : s.pc t = .decActive r) :
      Effect s (.run t) ((s.addActive (-1) r).goto t (.signalTest r))
  | toSignal {t : Tid} {r : Bool} (hpc : s.pc t = .signalTest r) (hWW : 0 < s.WW) :
      Effect s (.run t) (s.goto t .signal)
  | toBroadcast {t : Tid} (hpc : s.pc t = .signalTest false) (hWW : s.WW ≤ 0)
      (hWR : 0 < s.WR) : Effect s (.run t) (s.goto t .broadcast)
  | skipReader {t : Tid} (hpc : s.pc t = .signalTest true) (h : s.AR ≠ 0 ∨ s.WW ≤ 0) :
      Effect s (.run t) (s.goto t .unlockRelease)
  | skipWriter {t : Tid} (hpc : s.pc t = .signalTest false) (hWW : s.WW ≤ 0)
      (hWR : s.WR ≤ 0) : Effect s (.run t) (s.goto t .unlockRelease)
  | signalEmpty {t : Tid} (hpc : s.pc t = .signal) (hnil : s.write = []) :
      Effect s (.run t) (s.goto t .unlockRelease)
  | signalPop {t x : Tid} {rest : List Tid} (hpc : s.pc t = .signal)
      (hcons : s.write = x :: rest) :
      Effect s (.run t) ((s.setQueue rest false).goto t (.up x false))
  | broadcastEmpty {t : Tid} (hpc : s.pc t = .broadcast) (hnil : s.read = []) :
      Effect s (.run t) (s.goto t .unlockRelease)
  | broadcastPop {t x : Tid} {rest : List Tid} (hpc : s.pc t = .broadcast)
      (hcons : s.read = x :: rest) :
      Effect s (.run t) ((s.setQueue rest true).goto t (.up x true))
  | upEmpty {t x : Tid} {more : Bool} (hpc : s.pc t = .up x more)
      (hnil : (s.wsem x).waiters = []) :
      Effect s (.run t)
        ({ s with wsem := update s.wsem x ⟨(s.wsem x).value + 1, (s.wsem x).waiters⟩ }.goto t
          (if more then .broadcast else .unlockRelease))
  | upWake {t x y : Tid} {more : Bool} {r : Bool} {rest : List Tid} (hpc : s.pc t = .up x more)
      (hcons : (s.wsem x).waiters = y :: rest) (hy : s.pc y = .blocked r) :
      Effect s (.run t)
        (({ s with wsem := update s.wsem x ⟨(s.wsem x).value + 1, rest⟩ }.goto t
          (if more then .broadcast else .unlockRelease)).goto y (.woken r))

theorem guardStep_some {s s' : RwSys Tid} {t : Tid} {act : Option LockAct}
    (h : s.guardStep t act = some s') :
    ∃ a guard, act = some a ∧ s.guard.step t a = some guard ∧ s' = { s with guard } := by
  unfold guardStep at h
  obtain ⟨a, ha, hs⟩ := Option.bind_eq_some_iff.mp h
  obtain ⟨guard, hg, rfl⟩ := Option.map_eq_some_iff.mp hs
  exact ⟨a, guard, ha, hg, rfl⟩

/-- The inversion of `runThread`: the next statement of a thread, by where it is in the code,
and what the statement changes. All invariants of the lock are proved from `Effect`, and none
looks at `runThread` again. -/
theorem runThread_effect {s s' : RwSys Tid} {t : Tid} (h : s.runThread t = some s') :
    Effect s (.run t) s' := by
  unfold runThread at h
  split at h
  case h_1 => simp at h
  case h_2 r hpc | h_3 r hpc | h_4 r hpc =>
    -- in `lock_acquire` of the guard: a step of the lock, or its end
    have hlock : (s.pc t).locking = true := by rw [hpc]; rfl
    split at h
    · obtain rfl := Option.some.inj h
      exact .locked hlock ‹_›
    · obtain ⟨a, guard, ha, hg, rfl⟩ := guardStep_some h
      exact .guardLock hlock ha hg
  case h_5 hpc | h_6 hpc =>
    -- the condition of a `while`
    split at h <;> obtain rfl := Option.some.inj h
    · exact .testWait hpc ‹_›
    · exact .testGo hpc (not_lt.mp ‹_›)
  case h_7 hpc | h_8 hpc =>
    obtain rfl := Option.some.inj h
    exact .incWait hpc
  case h_9 r hpc =>
    split at h
    · simp at h
    · rename_i hholder
      -- `cond_wait` asserts that the caller holds the guard
      have hholder' : s.guard.holder = some t := by simpa using hholder
      cases r <;> obtain rfl := Option.some.inj h <;> exact .push hpc hholder'
  case h_10 r hpc =>
    split at h
    · obtain rfl := Option.some.inj h
      exact .unlockedWait hpc ‹_›
    · obtain ⟨a, guard, ha, hg, rfl⟩ := guardStep_some h
      exact .guardUnlock (by rw [hpc]; rfl) ha hg
  case h_11 r hpc =>
    -- the first pass of `sema_down`
    rcases semaDown_cases (s.wsem t) t with ⟨hz, hd⟩ | ⟨v, hv, hd⟩ <;>
      rw [hd] at h <;> obtain rfl := Option.some.inj h
    · exact .block (Or.inl hpc) hz
    · exact .take (Or.inl hpc) hv
  case h_12 r hpc =>
    -- a pass of `sema_down` behind `thread_block`
    rcases semaDown_cases (s.wsem t) t with ⟨hz, hd⟩ | ⟨v, hv, hd⟩ <;>
      rw [hd] at h <;> obtain rfl := Option.some.inj h
    · exact .block (Or.inr hpc) hz
    · exact .take (Or.inr hpc) hv
  case h_13 => simp at h
  case h_14 hpc | h_15 hpc =>
    obtain rfl := Option.some.inj h
    exact .decWait hpc
  case h_16 hpc | h_17 hpc =>
    obtain rfl := Option.some.inj h
    exact .incActive hpc
  case h_18 r hpc =>
    split at h
    · obtain rfl := Option.some.inj h
      exact .acquired hpc ‹_›
    · obtain ⟨a, guard, ha, hg, rfl⟩ := guardStep_some h
      exact .guardUnlock (by rw [hpc]; rfl) ha hg
  case h_19 hpc | h_20 hpc =>
    obtain rfl := Option.some.inj h
    exact .decActive hpc
  case h_21 hpc =>
    split at h <;> rename_i hc <;> obtain rfl := Option.some.inj h
    · -- what `rw_lock_release` does for a reader
      exact .toSignal hpc hc.2
    · exact .skipReader hpc (by omega)
  case h_22 hpc =>
    split at h
    · obtain rfl := Option.some.inj h
      exact .toSignal hpc ‹_›
    · rename_i hWW
      split at h <;> rename_i hWR <;> obtain rfl := Option.some.inj h
      · -- no writer waits: the readers are woken, if there are any
        exact .toBroadcast hpc (by omega) hWR
      · exact .skipWriter hpc (by omega) (by omega)
  case h_23 hpc =>
    split at h
    · simp at h
    · split at h <;> rename_i hw <;> obtain rfl := Option.some.inj h
      · exact .signalEmpty hpc hw
      · exact .signalPop hpc hw
  case h_24 hpc =>
    split at h
    · rename_i hw
      obtain rfl := Option.some.inj h
      exact .broadcastEmpty hpc hw
    · rename_i hw
      split at h
      · simp at h
      · obtain rfl := Option.some.inj h
        exact .broadcastPop hpc hw
  case h_25 x more hpc =>
    -- `sema_up` wakes its first waiter, which is blocked
    unfold semaUp at h
    cases hw : (s.wsem x).waiters with
    | nil =>
        simp only [hw] at h
        obtain rfl := Option.some.inj h
        have := Effect.upEmpty hpc hw
        rwa [hw] at this
    | cons y rest =>
        simp only [hw] at h
        split at h
        · rename_i r hy
          obtain rfl := Option.some.inj h
          exact .upWake hpc hw hy
        · simp at h
  case h_26 hpc =>
    split at h
    · obtain rfl := Option.some.inj h
      exact .released hpc ‹_›
    · obtain ⟨a, guard, ha, hg, rfl⟩ := guardStep_some h
      exact .guardUnlock (by rw [hpc]; rfl) ha hg

/-- **The inversion of a step.** -/
theorem step_effect {s s' : RwSys Tid} {a : RwAct Tid} (h : s.Step a s') : Effect s a s' := by
  unfold Step step at h
  cases a with
  | run t => exact runThread_effect h
  | acquire t r =>
      by_cases hpc : s.pc t = .out
      · simp only [hpc, if_true] at h
        obtain rfl := Option.some.inj h
        exact .acquire hpc
      · simp [hpc] at h
  | release t r =>
      by_cases hc : s.pc t = .out ∧ 0 < s.held r t
      · simp only [hc, and_self, if_true] at h
        obtain rfl := Option.some.inj h
        exact .release hc.1 hc.2
      · simp [hc] at h

end RwSys

end OsTools.Threads

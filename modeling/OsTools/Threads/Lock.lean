import OsTools.Threads.Semaphore
/-!
# OsTools.Threads.Lock

The lock of `threads/synch.c`: a semaphore initialised to one and a `holder`
field that `lock_acquire` sets *after* its `sema_down` and `lock_release`
clears *before* its `sema_up`. Both gaps are preemption points, so the model
gives them program counters of their own (`taken`, `releasing`): a thread in
either gap owns the semaphore's unit although `holder` is `NULL`.

The invariant `LockSys.Inv` carries the semaphore's queue invariant over and
adds that the one unit is either in `value` or with exactly one owner.

## Proof shape

`step_cases` lists what a step can do, and `step_inv` goes through the list. The steps on
the semaphore are those of `SemaInv`, with the program counters of a lock; the others touch
`holder` only. Mutual exclusion is a statement about units: the value and the threads that
own a unit (`owns`) add up to one (`Inv.owner_unique`), in every gap of the two functions.
`holder` follows the owner between the gaps.

`sema_lock_run_safe` states both invariants for whole runs, with `SemaSafe` and `LockSafe`
saying what a reader should know of them.
-/

namespace OsTools.Threads

open Function (update)

/-- Where a thread stands with respect to a lock. -/
inductive LockPc
  /-- Neither holding the lock nor inside one of its functions. -/
  | out
  /-- In `lock_acquire`, blocked on the semaphore. -/
  | blocked
  /-- In `lock_acquire`, unblocked, next pass of `sema_down` not run. -/
  | woken
  /-- `sema_down` returned; `holder` is not set yet. -/
  | taken
  /-- `lock_acquire` returned. -/
  | held
  /-- In `lock_release`: `holder` is cleared, `sema_up` not run. -/
  | releasing
  deriving DecidableEq

namespace LockPc

def isBlocked : LockPc → Bool
  | .blocked => true
  | _ => false

def isWoken : LockPc → Bool
  | .woken => true
  | _ => false

/-- The thread has the semaphore's only unit. -/
def owns : LockPc → Bool
  | .taken | .held | .releasing => true
  | _ => false

end LockPc

/-- The atomic steps a thread takes on a lock. -/
inductive LockAct
  /-- `lock_acquire`: its assertion and the first pass of `sema_down`, or a
  later pass once woken. -/
  | acquire
  /-- `lock_try_acquire` up to its `sema_try_down`. -/
  | tryAcquire
  /-- `lock->holder = thread_current ()`. -/
  | setHolder
  /-- `lock_release`: its assertion and `lock->holder = NULL`. -/
  | release
  /-- The `sema_up` at the end of `lock_release`. -/
  | up
  deriving DecidableEq

/-- `struct lock` together with the threads that use it. -/
structure LockSys (Tid : Type*) where
  sema : Semaphore Tid
  holder : Option Tid
  pc : Tid → LockPc

namespace LockSys

variable {Tid : Type*} [DecidableEq Tid]

/-- `lock_init`. -/
def init : LockSys Tid := ⟨semaInit 1, none, fun _ => .out⟩

/-- Thread `t` takes one step. A step is missing where the thread is not at
that point of its code, where it is blocked, and where an assertion fails. -/
def step (s : LockSys Tid) (t : Tid) : LockAct → Option (LockSys Tid)
  | .acquire =>
      -- ASSERT (!lock_held_by_current_thread (lock)) on entry only
      if s.pc t = .out ∧ s.holder ≠ some t ∨ s.pc t = .woken then
        match semaDown s.sema t with
        | (sema, true) => some { s with sema, pc := update s.pc t .taken }
        | (sema, false) => some { s with sema, pc := update s.pc t .blocked }
      else none
  | .tryAcquire =>
      -- ASSERT (!lock_held_by_current_thread (lock))
      if s.pc t = .out ∧ s.holder ≠ some t then
        match semaTryDown s.sema with
        | (sema, true) => some { s with sema, pc := update s.pc t .taken }
        | (sema, false) => some { s with sema }
      else none
  | .setHolder =>
      if s.pc t = .taken then some { s with holder := some t, pc := update s.pc t .held }
      else none
  | .release =>
      -- ASSERT (lock_held_by_current_thread (lock))
      if s.pc t = .held ∧ s.holder = some t then
        some { s with holder := none, pc := update s.pc t .releasing }
      else none
  | .up =>
      if s.pc t = .releasing then
        match semaUp s.sema with
        | (sema, none) => some { s with sema, pc := update s.pc t .out }
        | (sema, some x) =>
            -- thread_unblock: ASSERT (t->status == THREAD_BLOCKED)
            if s.pc x = .blocked then
              some { s with sema, pc := update (update s.pc t .out) x .woken }
            else none
      else none

/-- The steps as a relation labelled by the thread and its action. -/
def Step (s : LockSys Tid) (a : Tid × LockAct) (s' : LockSys Tid) : Prop :=
  s.step a.1 a.2 = some s'

/-- Everything a step on a lock can do: a pass of `sema_down` that blocks or takes the unit,
setting the holder, clearing it, and `sema_up` with or without a waiter. -/
theorem step_cases {s s' : LockSys Tid} {t : Tid} {a : LockAct} (h : s.step t a = some s') :
    (a = .acquire ∧ (s.pc t = .out ∨ s.pc t = .woken) ∧ s.sema.value = 0 ∧
      s' = { s with sema := ⟨s.sema.value, s.sema.waiters ++ [t]⟩
                    pc := update s.pc t .blocked }) ∨
    (∃ v : UInt32, (a = .acquire ∨ a = .tryAcquire) ∧ (s.pc t = .out ∨ s.pc t = .woken) ∧
      v.toNat + 1 = s.sema.value.toNat ∧
      s' = { s with sema := ⟨v, s.sema.waiters⟩, pc := update s.pc t .taken }) ∨
    (a = .tryAcquire ∧ s.pc t = .out ∧ s' = s) ∨
    (a = .setHolder ∧ s.pc t = .taken ∧
      s' = { s with holder := some t, pc := update s.pc t .held }) ∨
    (a = .release ∧ s.pc t = .held ∧ s.holder = some t ∧
      s' = { s with holder := none, pc := update s.pc t .releasing }) ∨
    (a = .up ∧ s.pc t = .releasing ∧ s.sema.waiters = [] ∧
      s' = { s with sema := ⟨s.sema.value + 1, s.sema.waiters⟩, pc := update s.pc t .out }) ∨
    (∃ x rest, a = .up ∧ s.pc t = .releasing ∧ s.sema.waiters = x :: rest ∧
      s.pc x = .blocked ∧
      s' = { s with sema := ⟨s.sema.value + 1, rest⟩
                    pc := update (update s.pc t .out) x .woken }) := by
  cases a with
  | acquire =>
      simp only [step] at h
      split at h
      · rename_i hpc
        have hpc' : s.pc t = .out ∨ s.pc t = .woken := hpc.imp_left And.left
        rcases semaDown_cases s.sema t with ⟨hz, hd⟩ | ⟨v, hv, hd⟩
        · simp only [hd, Option.some.injEq] at h
          exact Or.inl ⟨rfl, hpc', hz, h.symm⟩
        · simp only [hd, Option.some.injEq] at h
          exact Or.inr (Or.inl ⟨v, Or.inl rfl, hpc', hv, h.symm⟩)
      · simp at h
  | tryAcquire =>
      simp only [step] at h
      split at h
      · rename_i hpc
        rcases semaTryDown_cases s.sema with ⟨-, hd⟩ | ⟨v, hv, hd⟩
        · simp only [hd, Option.some.injEq] at h
          exact Or.inr (Or.inr (Or.inl ⟨rfl, hpc.1, h.symm⟩))
        · simp only [hd, Option.some.injEq] at h
          exact Or.inr (Or.inl ⟨v, Or.inr rfl, Or.inl hpc.1, hv, h.symm⟩)
      · simp at h
  | setHolder =>
      simp only [step] at h
      split at h
      · rename_i hpc
        simp only [Option.some.injEq] at h
        exact Or.inr (Or.inr (Or.inr (Or.inl ⟨rfl, hpc, h.symm⟩)))
      · simp at h
  | release =>
      simp only [step] at h
      split at h
      · rename_i hpc
        simp only [Option.some.injEq] at h
        exact Or.inr (Or.inr (Or.inr (Or.inr (Or.inl ⟨rfl, hpc.1, hpc.2, h.symm⟩))))
      · simp at h
  | up =>
      simp only [step] at h
      split at h
      · rename_i hpc
        unfold semaUp at h
        cases hw : s.sema.waiters with
        | nil =>
            simp only [hw, Option.some.injEq] at h
            exact Or.inr (Or.inr (Or.inr (Or.inr (Or.inr (Or.inl ⟨rfl, hpc, rfl, h.symm⟩)))))
        | cons x rest =>
            simp only [hw] at h
            split at h
            · rename_i hx
              simp only [Option.some.injEq] at h
              exact Or.inr (Or.inr (Or.inr (Or.inr (Or.inr (Or.inr
                ⟨x, rest, rfl, hpc, rfl, hx, h.symm⟩)))))
            · simp at h
      · simp at h

/-- What the steps of the lock do to its program counters. -/
theorem step_pc {l l' : LockSys Tid} {t : Tid} {a : LockAct} (h : l.step t a = some l') :
    match a with
    | .acquire => (l.pc t = .out ∨ l.pc t = .woken) ∧
        ∃ p, (p = .blocked ∨ p = .taken) ∧ l'.pc = update l.pc t p
    | .setHolder => l.pc t = .taken ∧ l'.pc = update l.pc t .held
    | .release => l.pc t = .held ∧ l'.pc = update l.pc t .releasing
    | .up => l.pc t = .releasing ∧ l'.pc t = .out ∧
        ∀ u, u ≠ t → l'.pc u = l.pc u ∨ l.pc u = .blocked ∧ l'.pc u = .woken
    | .tryAcquire => True := by
  obtain ⟨rfl, hpc, -, rfl⟩ | ⟨v, ha, hpc, -, rfl⟩ | ⟨rfl, -, rfl⟩ | ⟨rfl, hpc, rfl⟩ |
    ⟨rfl, hpc, -, rfl⟩ | ⟨rfl, hpc, -, rfl⟩ | ⟨x, rest, rfl, hpc, -, hx, rfl⟩ :=
      step_cases h
  · exact ⟨hpc, .blocked, Or.inl rfl, rfl⟩
  · rcases ha with rfl | rfl
    · exact ⟨hpc, .taken, Or.inr rfl, rfl⟩
    · trivial
  · trivial
  · exact ⟨hpc, rfl⟩
  · exact ⟨hpc, rfl⟩
  · exact ⟨hpc, Function.update_self .., fun u hu => Or.inl (Function.update_of_ne hu ..)⟩
  · have hxt : x ≠ t := by
      rintro rfl
      rw [hx] at hpc
      exact absurd hpc (by decide)
    refine ⟨hpc, ?_, fun u hu => ?_⟩
    · show update (update l.pc t .out) x .woken t = _
      rw [Function.update_of_ne hxt.symm, Function.update_self]
    · show update (update l.pc t .out) x .woken u = _ ∨ _ ∧ update (update l.pc t .out) x .woken u = _
      by_cases hux : u = x
      · subst hux
        exact Or.inr ⟨hx, Function.update_self ..⟩
      · rw [Function.update_of_ne hux, Function.update_of_ne hu]
        exact Or.inl rfl

variable [Fintype Tid]

/-- The invariant of a lock: the semaphore's queue invariant, one unit split
between `value` and its owner, and `holder` naming exactly the thread between
the two gaps. -/
structure Inv (s : LockSys Tid) : Prop where
  queue : SemaInv s.sema s.pc LockPc.isBlocked LockPc.isWoken
  unit : s.sema.value.toNat + count LockPc.owns s.pc = 1
  holder : ∀ t, s.holder = some t ↔ s.pc t = .held

omit [DecidableEq Tid] in
theorem init_inv : Inv (init : LockSys Tid) := by
  refine ⟨SemaInv.init fun _ => rfl, ?_, fun t => by simp [init]⟩
  have hzero : count LockPc.owns (fun _ : Tid => LockPc.out) = 0 := count_eq_zero fun _ => rfl
  show (1 : UInt32).toNat + _ = 1
  simpa [init] using hzero

omit [DecidableEq Tid] in
/-- At most one thread owns the lock's unit. -/
theorem Inv.owner_unique {s : LockSys Tid} (hinv : Inv s) {t u : Tid}
    (ht : (s.pc t).owns = true) (hu : (s.pc u).owns = true) : t = u := by
  have hunit := hinv.unit
  exact eq_of_count_le_one (p := LockPc.owns) (f := s.pc) (by omega) ht hu

omit [DecidableEq Tid] in
/-- While a thread owns the unit, the value is zero. -/
theorem Inv.value_eq_zero {s : LockSys Tid} (hinv : Inv s) {t : Tid}
    (ht : (s.pc t).owns = true) : s.sema.value.toNat = 0 := by
  have hunit := hinv.unit
  have hpos := count_pos (p := LockPc.owns) (f := s.pc) ht
  omega

/-- `holder` follows a thread that changes neither to nor from `held`. -/
theorem holder_move {s : LockSys Tid} (hinv : Inv s) {t : Tid} {p : LockPc}
    (hold : s.pc t ≠ .held) (hnew : p ≠ .held) (u : Tid) :
    s.holder = some u ↔ update s.pc t p u = .held := by
  rw [hinv.holder]
  by_cases hut : u = t
  · subst hut
    rw [Function.update_self]
    exact ⟨fun h => absurd h hold, fun h => absurd h hnew⟩
  · rw [Function.update_of_ne hut]

/-- A step keeps the invariant: the unit of the semaphore is there, or with one thread between
`lock_acquire` and `lock_release`, and the waiters are the threads that are blocked. One case
for each of `step_cases`. -/
theorem step_inv {s s' : LockSys Tid} {t : Tid} {a : LockAct} (hinv : Inv s)
    (h : s.step t a = some s') : Inv s' := by
  have hunit := hinv.unit
  obtain ⟨-, hpc, hz, rfl⟩ | ⟨v, -, hpc, hv, rfl⟩ | ⟨-, -, rfl⟩ | ⟨-, hpc, rfl⟩ |
    ⟨-, hpc, hh, rfl⟩ | ⟨-, hpc, hnil, rfl⟩ | ⟨x, rest, -, hpc, hcons, hx, rfl⟩ := step_cases h
  · -- the pass of `sema_down` blocks
    have hfree : (s.pc t).isBlocked = false ∧ (s.pc t).owns = false ∧ s.pc t ≠ .held := by
      rcases hpc with hpc | hpc <;> rw [hpc] <;> decide
    refine ⟨hinv.queue.block hz hfree.1 rfl, ?_, holder_move hinv hfree.2.2 (by decide)⟩
    show s.sema.value.toNat + count LockPc.owns (update s.pc t .blocked) = 1
    rw [count_update_of_eq hfree.2.1.symm]
    exact hunit
  · -- the unit moves from `value` to `t`
    have hcount := count_update LockPc.owns s.pc t .taken
    have hfree : (s.pc t).isBlocked = false ∧ (s.pc t).owns = false ∧ s.pc t ≠ .held := by
      rcases hpc with hpc | hpc <;> rw [hpc] <;> decide
    refine ⟨hinv.queue.take hv hfree.1 rfl, ?_, holder_move hinv hfree.2.2 (by decide)⟩
    rw [hfree.2.1] at hcount
    show v.toNat + count LockPc.owns (update s.pc t .taken) = 1
    simp only [LockPc.owns, Bool.toNat_false, Bool.toNat_true] at hcount
    omega
  · exact hinv
  · -- `holder` is set: no other thread can be past the gap
    have howns : (s.pc t).owns = true := by rw [hpc]; rfl
    refine ⟨hinv.queue.move (by rw [hpc]; rfl) (by rw [hpc]; rfl), ?_, fun u => ?_⟩
    · show s.sema.value.toNat + count LockPc.owns (update s.pc t .held) = 1
      rw [count_update_of_eq howns.symm]
      exact hunit
    · show some t = some u ↔ update s.pc t .held u = .held
      by_cases hut : u = t
      · subst hut
        simp
      · rw [Function.update_of_ne hut]
        refine ⟨fun h => absurd (Option.some.inj h).symm hut, fun hu => ?_⟩
        exact absurd (hinv.owner_unique (by rw [hu]; rfl) howns) hut
  · -- `holder` is cleared: it named `t` only
    have howns : (s.pc t).owns = true := by rw [hpc]; rfl
    refine ⟨hinv.queue.move (by rw [hpc]; rfl) (by rw [hpc]; rfl), ?_, fun u => ?_⟩
    · show s.sema.value.toNat + count LockPc.owns (update s.pc t .releasing) = 1
      rw [count_update_of_eq howns.symm]
      exact hunit
    · show none = some u ↔ update s.pc t .releasing u = .held
      by_cases hut : u = t
      · subst hut
        simp
      · rw [Function.update_of_ne hut]
        refine ⟨fun h => by simp at h, fun hu => ?_⟩
        exact absurd (hinv.owner_unique (by rw [hu]; rfl) howns) hut
  · -- the unit goes back, nobody waits
    have hcount := count_update LockPc.owns s.pc t .out
    have howns : (s.pc t).owns = true := by rw [hpc]; rfl
    have hzero := hinv.value_eq_zero howns
    refine ⟨(hinv.queue.move (by rw [hpc]; rfl) (by rw [hpc]; rfl)).upEmpty hnil, ?_,
      holder_move hinv (by rw [hpc]; decide) (by decide)⟩
    rw [howns] at hcount
    have hone : (s.sema.value + 1).toNat = 1 := by
      rw [UInt32.toNat_add, hzero]
      rfl
    show (s.sema.value + 1).toNat + count LockPc.owns (update s.pc t .out) = 1
    simp only [LockPc.owns, Bool.toNat_true, Bool.toNat_false] at hcount
    omega
  · -- the unit goes back and the first waiter wakes
    have hxt : x ≠ t := by
      rintro rfl
      rw [hx] at hpc
      exact absurd hpc (by decide)
    have hcount := count_update LockPc.owns s.pc t .out
    have hcount' := count_update LockPc.owns (update s.pc t .out) x .woken
    have howns : (s.pc t).owns = true := by rw [hpc]; rfl
    have hzero := hinv.value_eq_zero howns
    have hx' : update s.pc t .out x = .blocked := by rw [Function.update_of_ne hxt, hx]
    refine ⟨(hinv.queue.move (by rw [hpc]; rfl) (by rw [hpc]; rfl)).upWake hcons rfl rfl
      (by rw [hx']; rfl), ?_, fun u => ?_⟩
    · rw [howns] at hcount
      rw [hx'] at hcount'
      have hone : (s.sema.value + 1).toNat = 1 := by
        rw [UInt32.toNat_add, hzero]
        rfl
      show (s.sema.value + 1).toNat +
        count LockPc.owns (update (update s.pc t .out) x .woken) = 1
      simp only [LockPc.owns, Bool.toNat_true, Bool.toNat_false] at hcount hcount'
      omega
    · show s.holder = some u ↔ update (update s.pc t .out) x .woken u = .held
      rw [holder_move hinv (t := t) (p := .out) (by rw [hpc]; decide) (by decide)]
      by_cases hux : u = x
      · subst hux
        rw [Function.update_self, hx']
        decide
      · rw [Function.update_of_ne hux]

/-- The assertions of `lock_acquire`, `lock_release` and `thread_unblock` hold
wherever a thread at that point of its code evaluates them. -/
theorem step_isSome {s : LockSys Tid} (hinv : Inv s) {t : Tid} {a : LockAct}
    (hat : match a with
      | .acquire => s.pc t = .out ∨ s.pc t = .woken
      | .tryAcquire => s.pc t = .out
      | .setHolder => s.pc t = .taken
      | .release => s.pc t = .held
      | .up => s.pc t = .releasing) : (s.step t a).isSome := by
  have hfree : s.pc t = .out → s.holder ≠ some t := fun hpc hh => by
    rw [hinv.holder, hpc] at hh
    exact absurd hh (by decide)
  cases a with
  | acquire =>
      have hguard : s.pc t = .out ∧ s.holder ≠ some t ∨ s.pc t = .woken :=
        hat.imp_left fun hpc => ⟨hpc, hfree hpc⟩
      rcases semaDown_cases s.sema t with ⟨-, hd⟩ | ⟨v, -, hd⟩ <;> simp [step, hguard, hd]
  | tryAcquire =>
      have hguard : s.pc t = .out ∧ s.holder ≠ some t := ⟨hat, hfree hat⟩
      rcases semaTryDown_cases s.sema with ⟨-, hd⟩ | ⟨v, -, hd⟩ <;> simp [step, hguard, hd]
  | setHolder =>
      have hguard : s.pc t = .taken := hat
      simp [step, hguard]
  | release =>
      have hguard : s.pc t = .held ∧ s.holder = some t := ⟨hat, (hinv.holder t).mpr hat⟩
      simp [step, hguard]
  | up =>
      have hguard : s.pc t = .releasing := hat
      cases hw : s.sema.waiters with
      | nil => simp [step, hguard, semaUp, hw]
      | cons x rest =>
          have hx : s.pc x = .blocked := by
            have := (hinv.queue.mem_waiters x).mp (by simp [hw])
            revert this
            cases s.pc x <;> simp [LockPc.isBlocked]
          simp [step, hguard, semaUp, hw, hx]

end LockSys

/-! ### The safety of semaphores and locks over whole runs -/

variable {Tid : Type*} [DecidableEq Tid] [Fintype Tid]

/-- What holds of a semaphore initialised to `value` after any of its steps. -/
structure SemaSafe (value : UInt32) (s : SemaSys Tid) : Prop where
  /-- Completed downs never exceed the initial value plus the ups. -/
  downs_le : s.downs ≤ value.toNat + s.ups
  /-- The waiters are blocked threads, none of them twice. -/
  waiters : s.sema.waiters.Nodup ∧ ∀ t, t ∈ s.sema.waiters ↔ s.pc t = .blocked
  /-- The value is covered by woken threads while any thread waits. -/
  wake : s.sema.waiters = [] ∨ s.sema.value.toNat ≤ count SemaPc.isWoken s.pc
  /-- No wake-up is lost. -/
  no_lost : ¬ (0 < s.sema.value.toNat ∧ (∃ t, s.pc t = .blocked) ∧ ∀ t, s.pc t ≠ .woken)

/-- What holds of a lock after any of its steps: at most one thread has it, and
`holder` is `NULL` or that thread. -/
structure LockSafe (s : LockSys Tid) : Prop where
  unique : ∀ t u, (s.pc t).owns = true → (s.pc u).owns = true → t = u
  holder : s.holder = none ∨ ∃ t, s.holder = some t ∧ s.pc t = .held

omit [DecidableEq Tid] in
theorem SemaSys.Inv.safe {value : UInt32} {s : SemaSys Tid} (hinv : SemaSys.Inv value s) :
    SemaSafe value s := by
  have hblocked : ∀ t, t ∈ s.sema.waiters ↔ s.pc t = .blocked := fun t => by
    rw [hinv.queue.mem_waiters]
    cases s.pc t <;> simp [SemaPc.isBlocked]
  refine ⟨?_, ⟨hinv.queue.nodup, hblocked⟩, hinv.queue.wake, ?_⟩
  · have := hinv.supply
    omega
  · rintro ⟨hv, ⟨t, ht⟩, hw⟩
    have hnil := hinv.queue.waiters_eq_nil (fun u => by
      have := hw u
      revert this
      cases s.pc u <;> simp [SemaPc.isWoken]) hv
    have hmem := (hblocked t).mpr ht
    rw [hnil] at hmem
    simp at hmem

omit [DecidableEq Tid] in
theorem LockSys.Inv.safe {s : LockSys Tid} (hinv : LockSys.Inv s) : LockSafe s := by
  refine ⟨fun t u ht hu => hinv.owner_unique ht hu, ?_⟩
  cases hh : s.holder with
  | none => exact Or.inl rfl
  | some t => exact Or.inr ⟨t, rfl, (hinv.holder t).mp hh⟩

/-- **Semaphores and locks are safe.** In every run of any number of threads on
a semaphore with any initial value, every state satisfies `SemaSafe` and every
completed down finds a unit to take; in every run on a lock, every state
satisfies `LockSafe`. -/
theorem sema_lock_run_safe (value : UInt32)
    {ts : List (Transition (SemaSys Tid) (SemaAct Tid))}
    {ls : List (Transition (LockSys Tid) (Tid × LockAct))}
    (hsema : Run SemaSys.Step (SemaSys.init value) ts)
    (hlock : Run LockSys.Step LockSys.init ls) :
    (∀ τ ∈ ts, SemaSafe value τ.pre ∧ SemaSafe value τ.post ∧
      (τ.post.downs ≠ τ.pre.downs →
        τ.post.sema.value.toNat + 1 = τ.pre.sema.value.toNat)) ∧
    ∀ τ ∈ ls, LockSafe τ.pre ∧ LockSafe τ.post := by
  constructor
  · intro τ hτ
    obtain ⟨hpre, hpost⟩ := hsema.invariant (I := SemaSys.Inv value)
      (fun _ _ _ hinv h => SemaSys.step_inv hinv h) (SemaSys.init_inv value) τ hτ
    exact ⟨hpre.safe, hpost.safe,
      fun hdown => SemaSys.step_no_underflow (hsema.step_of_mem τ hτ) hdown⟩
  · intro τ hτ
    obtain ⟨hpre, hpost⟩ := hlock.invariant (I := LockSys.Inv)
      (fun _ _ _ hinv h => LockSys.step_inv hinv h) LockSys.init_inv τ hτ
    exact ⟨hpre.safe, hpost.safe⟩

/-- A thread blocks, is woken, and another barges in before it runs again. -/
def bargingActs : List (SemaAct Bool) := [.down true, .up, .down false, .down true, .up, .down true]

/-- The same on a lock. -/
def bargingLockActs : List (Bool × LockAct) :=
  [(true, .acquire), (true, .setHolder), (false, .acquire), (true, .release), (true, .up),
    (true, .acquire), (false, .acquire), (true, .setHolder)]

theorem sema_lock_run_safe_barging :
    (∀ τ ∈ Run.trace SemaSys.step (SemaSys.init 0) bargingActs,
      SemaSafe 0 τ.pre ∧ SemaSafe 0 τ.post ∧
      (τ.post.downs ≠ τ.pre.downs →
        τ.post.sema.value.toNat + 1 = τ.pre.sema.value.toNat)) ∧
    ∀ τ ∈ Run.trace (fun s a => LockSys.step s a.1 a.2) LockSys.init bargingLockActs,
      LockSafe τ.pre ∧ LockSafe τ.post :=
  sema_lock_run_safe 0 (Run.of_trace SemaSys.step (SemaSys.init 0) bargingActs)
    (Run.of_trace (fun s a => LockSys.step s a.1 a.2) LockSys.init bargingLockActs)

end OsTools.Threads

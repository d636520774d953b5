import OsTools.Lib.Run
import OsTools.Lib.Count
/-!
# OsTools.Threads.Semaphore

The counting semaphore of `threads/synch.c`: `sema_init`, `sema_down`,
`sema_try_down` and `sema_up`.

Each of the three operations runs with interrupts disabled, so between two
context switches it is one atomic step. `sema_down` is the only one that can
give up the processor in the middle: when the value is zero it queues the
thread and calls `thread_block`, and when the thread runs again it is still
inside the `while` loop. `semaDown` is therefore *one pass* of that loop, and
the thread model (`SemaSys`) runs a pass for a thread that calls `sema_down`
afresh and for one that was unblocked since.

The invariant is stated over an arbitrary classification of program counters
(`SemaInv`), because a lock and a condition variable run the same passes from
larger program counters.

## Proof shape

The heart of the invariant is `wake`: while a thread waits, the value is at most the number
of threads that have been unblocked and have not run since. A woken thread that runs finds
its unit, or another thread barged in, took the unit and the woken one queues itself again;
in both cases the inequality holds, as the lemmas `take` and `block` show. `sema_up` adds a
unit and a woken thread at once (`upWake`), or nobody waits.

`step_cases` is the inversion of a step, and `step_inv` has one case for each of its
branches. That no assertion fails (`step_isSome`) comes from `mem_waiters`: a thread on the
queue is blocked.
-/

namespace OsTools.Threads

open Function (update)

variable {Tid : Type*}

/-! ### The operations of synch.c -/

/-- A counting semaphore: `struct semaphore`. The waiting threads stand in the
order in which `list_push_back` queued them. -/
structure Semaphore (Tid : Type*) where
  value : UInt32
  waiters : List Tid
  deriving DecidableEq

/-- `sema_init`. -/
def semaInit (value : UInt32) : Semaphore Tid := ⟨value, []⟩

/-- One pass of the loop of `sema_down` by thread `t`. The Boolean tells
whether the pass left the loop and took the value; otherwise `t` has queued
itself and blocks. -/
def semaDown (sema : Semaphore Tid) (t : Tid) : Semaphore Tid × Bool :=
  if sema.value = 0 then ({ sema with waiters := sema.waiters ++ [t] }, false)
  else ({ sema with value := sema.value - 1 }, true)

/-- `sema_try_down`. -/
def semaTryDown (sema : Semaphore Tid) : Semaphore Tid × Bool :=
  if sema.value > 0 then ({ sema with value := sema.value - 1 }, true) else (sema, false)

/-- `sema_up`: the thread it unblocks, if any, is the first in the queue. -/
def semaUp (sema : Semaphore Tid) : Semaphore Tid × Option Tid :=
  match sema.waiters with
  | [] => ({ sema with value := sema.value + 1 }, none)
  | t :: rest => ({ sema with value := sema.value + 1, waiters := rest }, some t)

theorem toNat_sub_one {v : UInt32} (h : v ≠ 0) : (v - 1).toNat + 1 = v.toNat := by
  have hpos : v.toNat ≠ 0 := fun hz => h (UInt32.toNat_inj.mp hz)
  have hle : (1 : UInt32) ≤ v := by
    rw [UInt32.le_iff_toNat_le]
    show 1 ≤ v.toNat
    omega
  rw [UInt32.toNat_sub_of_le _ _ hle]
  show v.toNat - 1 + 1 = v.toNat
  omega

theorem toNat_add_one_le (v : UInt32) : (v + 1).toNat ≤ v.toNat + 1 := by
  rw [UInt32.toNat_add]
  exact Nat.mod_le _ _

/-- What a pass of `sema_down` does: it blocks exactly on value zero, and
otherwise takes one unit. -/
theorem semaDown_cases (sema : Semaphore Tid) (t : Tid) :
    (sema.value = 0 ∧ semaDown sema t = (⟨sema.value, sema.waiters ++ [t]⟩, false)) ∨
    ∃ v : UInt32, v.toNat + 1 = sema.value.toNat ∧
      semaDown sema t = (⟨v, sema.waiters⟩, true) := by
  unfold semaDown
  by_cases h : sema.value = 0
  · exact Or.inl ⟨h, by rw [if_pos h]⟩
  · exact Or.inr ⟨sema.value - 1, toNat_sub_one h, by rw [if_neg h]⟩

/-- `sema_try_down` fails on value zero, and otherwise takes one unit. -/
theorem semaTryDown_cases (sema : Semaphore Tid) :
    (sema.value = 0 ∧ semaTryDown sema = (sema, false)) ∨
    ∃ v : UInt32, v.toNat + 1 = sema.value.toNat ∧
      semaTryDown sema = (⟨v, sema.waiters⟩, true) := by
  unfold semaTryDown
  by_cases h : sema.value = 0
  · exact Or.inl ⟨h, by rw [if_neg (by rw [h]; decide)]⟩
  · have hpos : sema.value > 0 := by
      rw [gt_iff_lt, UInt32.lt_iff_toNat_lt]
      have := toNat_sub_one h
      show 0 < sema.value.toNat
      omega
    exact Or.inr ⟨sema.value - 1, toNat_sub_one h, by rw [if_pos hpos]⟩

/-! ### The queue invariant

`blocked` and `woken` classify program counters: a `blocked` thread is inside
`sema_down` on the waiters list, a `woken` one was unblocked and has not run
since. -/

section Invariant

variable [Fintype Tid] [DecidableEq Tid] {P : Type*}

/-- The waiters are exactly the blocked threads, and while any thread waits,
the value is covered by threads that were unblocked but have not run: no unit
is available that no pending thread will come for. -/
structure SemaInv (sema : Semaphore Tid) (pc : Tid → P) (blocked woken : P → Bool) : Prop where
  nodup : sema.waiters.Nodup
  mem_waiters : ∀ t, t ∈ sema.waiters ↔ blocked (pc t) = true
  wake : sema.waiters = [] ∨ sema.value.toNat ≤ count woken pc

namespace SemaInv

variable {sema : Semaphore Tid} {pc : Tid → P} {blocked woken : P → Bool}

omit [DecidableEq Tid] in
theorem init {value : UInt32} (h : ∀ t, blocked (pc t) = false) :
    SemaInv (semaInit value) pc blocked woken :=
  ⟨List.nodup_nil, fun t => by simp [semaInit, h t], Or.inl rfl⟩

/-- A thread may move freely as long as it stays as blocked and as woken as it
was. -/
theorem move (hinv : SemaInv sema pc blocked woken) {t : Tid} {p : P}
    (hb : blocked p = blocked (pc t)) (hw : woken p = woken (pc t)) :
    SemaInv sema (update pc t p) blocked woken := by
  refine ⟨hinv.nodup, fun u => ?_, ?_⟩
  · rw [hinv.mem_waiters]
    by_cases hut : u = t
    · subst hut
      rw [Function.update_self, hb]
    · rw [Function.update_of_ne hut]
  · rw [count_update_of_eq hw]
    exact hinv.wake

/-- A pass of `sema_down` on value zero: the thread queues itself. -/
theorem block (hinv : SemaInv sema pc blocked woken) {t : Tid} {p : P}
    (hzero : sema.value = 0) (hold : blocked (pc t) = false) (hb : blocked p = true) :
    SemaInv ⟨sema.value, sema.waiters ++ [t]⟩ (update pc t p) blocked woken := by
  have hnot : t ∉ sema.waiters := by
    rw [hinv.mem_waiters, hold]
    exact Bool.false_ne_true
  refine ⟨?_, fun u => ?_, ?_⟩
  · exact hinv.nodup.append (List.nodup_singleton t) (by simpa using hnot)
  · rw [List.mem_append, List.mem_singleton, hinv.mem_waiters]
    by_cases hut : u = t
    · subst hut
      simp [hb]
    · rw [Function.update_of_ne hut]
      simp [hut]
  · right
    show sema.value.toNat ≤ _
    rw [hzero]
    exact Nat.zero_le _

/-- Taking one unit: whichever thread takes it, at most one woken thread is
used up, so the units left stay covered. -/
theorem take (hinv : SemaInv sema pc blocked woken) {t : Tid} {p : P} {v : UInt32}
    (hv : v.toNat + 1 = sema.value.toNat) (hold : blocked (pc t) = false)
    (hb : blocked p = false) :
    SemaInv ⟨v, sema.waiters⟩ (update pc t p) blocked woken := by
  refine ⟨hinv.nodup, fun u => ?_, ?_⟩
  · rw [hinv.mem_waiters]
    by_cases hut : u = t
    · subst hut
      rw [Function.update_self, hold, hb]
    · rw [Function.update_of_ne hut]
  · refine hinv.wake.imp_right fun h => ?_
    have hcount := count_update woken pc t p
    have hle : (woken (pc t)).toNat ≤ 1 := Bool.toNat_le _
    show v.toNat ≤ _
    omega

omit [DecidableEq Tid] in
/-- Taking one unit without moving a thread (`sema_try_down`). -/
theorem takeStill (hinv : SemaInv sema pc blocked woken) {v : UInt32}
    (hv : v.toNat + 1 = sema.value.toNat) :
    SemaInv ⟨v, sema.waiters⟩ pc blocked woken :=
  ⟨hinv.nodup, hinv.mem_waiters, hinv.wake.imp_right fun h => by
    show v.toNat ≤ _
    omega⟩

omit [DecidableEq Tid] in
/-- `sema_up` with nobody waiting. -/
theorem upEmpty (hinv : SemaInv sema pc blocked woken) (hnil : sema.waiters = []) :
    SemaInv ⟨sema.value + 1, sema.waiters⟩ pc blocked woken :=
  ⟨hinv.nodup, hinv.mem_waiters, Or.inl hnil⟩

/-- `sema_up` with a thread waiting: the new unit is covered by the thread it
unblocks. -/
theorem upWake (hinv : SemaInv sema pc blocked woken) {t : Tid} {rest : List Tid} {p : P}
    (hcons : sema.waiters = t :: rest) (hb : blocked p = false) (hw : woken p = true)
    (hdisj : woken (pc t) = false) :
    SemaInv ⟨sema.value + 1, rest⟩ (update pc t p) blocked woken := by
  have hnodup := hinv.nodup
  rw [hcons, List.nodup_cons] at hnodup
  refine ⟨hnodup.2, fun u => ?_, ?_⟩
  · by_cases hut : u = t
    · subst hut
      rw [Function.update_self, hb]
      simpa using hnodup.1
    · rw [Function.update_of_ne hut, ← hinv.mem_waiters, hcons]
      simp [hut]
  · right
    have hcount := count_update woken pc t p
    rw [hw, hdisj] at hcount
    have hle := toNat_add_one_le sema.value
    have hold : sema.value.toNat ≤ count woken pc := by
      refine hinv.wake.resolve_left fun h => ?_
      rw [h] at hcons
      exact absurd hcons (by simp)
    simp only [Bool.toNat_false, Bool.toNat_true] at hcount
    show (sema.value + 1).toNat ≤ _
    omega

omit [DecidableEq Tid] in
/-- With no woken thread pending, a free unit means an empty queue. -/
theorem waiters_eq_nil (hinv : SemaInv sema pc blocked woken)
    (hw : ∀ t, woken (pc t) = false) (hv : 0 < sema.value.toNat) : sema.waiters = [] := by
  refine hinv.wake.resolve_right fun h => ?_
  have := count_eq_zero hw
  omega

end SemaInv

end Invariant

/-! ### Threads using one semaphore -/

/-- Where a thread stands with respect to the semaphore. -/
inductive SemaPc
  /-- Not inside `sema_down`. -/
  | out
  /-- Inside `sema_down`, blocked on the waiters list. -/
  | blocked
  /-- Unblocked by `sema_up`; its next pass has not run. -/
  | woken
  deriving DecidableEq

def SemaPc.isBlocked : SemaPc → Bool
  | .blocked => true
  | _ => false

def SemaPc.isWoken : SemaPc → Bool
  | .woken => true
  | _ => false

/-- A semaphore, the threads using it, and two ghost counters: the downs
completed (by `sema_down` or `sema_try_down`) and the calls of `sema_up`. -/
structure SemaSys (Tid : Type*) where
  sema : Semaphore Tid
  pc : Tid → SemaPc
  downs : Nat
  ups : Nat

/-- The atomic steps. `sema_try_down` and `sema_up` do not depend on who runs
them (an interrupt handler may), so they carry no thread. -/
inductive SemaAct (Tid : Type*)
  /-- One pass of `sema_down`: the first one of a call, or the one a woken
  thread runs when it is scheduled again. -/
  | down (t : Tid)
  | tryDown
  | up
  deriving DecidableEq

namespace SemaSys

variable [DecidableEq Tid]

/-- The semaphore initialised to `value`, every thread outside. -/
def init (value : UInt32) : SemaSys Tid := ⟨semaInit value, fun _ => .out, 0, 0⟩

/-- One atomic step; a blocked thread cannot run. -/
def step (s : SemaSys Tid) : SemaAct Tid → Option (SemaSys Tid)
  | .down t =>
      if s.pc t = .blocked then none
      else
        match semaDown s.sema t with
        | (sema, true) =>
            some { s with sema, pc := update s.pc t .out, downs := s.downs + 1 }
        | (sema, false) => some { s with sema, pc := update s.pc t .blocked }
  | .tryDown =>
      match semaTryDown s.sema with
      | (sema, success) => some { s with sema, downs := s.downs + success.toNat }
  | .up =>
      match semaUp s.sema with
      | (sema, none) => some { s with sema, ups := s.ups + 1 }
      | (sema, some t) =>
          -- thread_unblock: ASSERT (t->status == THREAD_BLOCKED)
          if s.pc t = .blocked then
            some { s with sema, pc := update s.pc t .woken, ups := s.ups + 1 }
          else none

/-- The steps as a relation. -/
def Step (s : SemaSys Tid) (a : SemaAct Tid) (s' : SemaSys Tid) : Prop := s.step a = some s'

/-- Everything a step can do: a pass of `sema_down` blocks or takes a unit, `sema_up` adds one
and wakes the first waiter if there is one, `sema_try_down` takes a unit or fails. -/
theorem step_cases {s s' : SemaSys Tid} {a : SemaAct Tid} (h : s.Step a s') :
    (∃ t, a = .down t ∧ s.pc t ≠ .blocked ∧ s.sema.value = 0 ∧
      s' = { s with sema := ⟨s.sema.value, s.sema.waiters ++ [t]⟩
                    pc := update s.pc t .blocked }) ∨
    (∃ t v, a = .down t ∧ s.pc t ≠ .blocked ∧ v.toNat + 1 = s.sema.value.toNat ∧
      s' = { s with sema := ⟨v, s.sema.waiters⟩, pc := update s.pc t .out
                    downs := s.downs + 1 }) ∨
    (a = .tryDown ∧ s' = s) ∨
    (∃ v : UInt32, a = .tryDown ∧ v.toNat + 1 = s.sema.value.toNat ∧
      s' = { s with sema := ⟨v, s.sema.waiters⟩, downs := s.downs + 1 }) ∨
    (a = .up ∧ s.sema.waiters = [] ∧
      s' = { s with sema := ⟨s.sema.value + 1, s.sema.waiters⟩, ups := s.ups + 1 }) ∨
    (∃ t rest, a = .up ∧ s.sema.waiters = t :: rest ∧ s.pc t = .blocked ∧
      s' = { s with sema := ⟨s.sema.value + 1, rest⟩, pc := update s.pc t .woken
                    ups := s.ups + 1 }) := by
  unfold Step step at h
  cases a with
  | down t =>
      by_cases hpc : s.pc t = .blocked
      · simp [hpc] at h
      rcases semaDown_cases s.sema t with ⟨hz, hd⟩ | ⟨v, hv, hd⟩
      · simp only [hpc, if_false, hd, Option.some.injEq] at h
        exact Or.inl ⟨t, rfl, hpc, hz, h.symm⟩
      · simp only [hpc, if_false, hd, Option.some.injEq] at h
        exact Or.inr (Or.inl ⟨t, v, rfl, hpc, hv, h.symm⟩)
  | tryDown =>
      rcases semaTryDown_cases s.sema with ⟨-, hd⟩ | ⟨v, hv, hd⟩
      · simp only [hd, Bool.toNat_false, Nat.add_zero, Option.some.injEq] at h
        exact Or.inr (Or.inr (Or.inl ⟨rfl, h.symm⟩))
      · simp only [hd, Bool.toNat_true, Option.some.injEq] at h
        exact Or.inr (Or.inr (Or.inr (Or.inl ⟨v, rfl, hv, h.symm⟩)))
  | up =>
      unfold semaUp at h
      cases hw : s.sema.waiters with
      | nil =>
          simp only [hw, Option.some.injEq] at h
          exact Or.inr (Or.inr (Or.inr (Or.inr (Or.inl ⟨rfl, rfl, h.symm⟩))))
      | cons t rest =>
          by_cases hpc : s.pc t = .blocked
          · simp only [hw, hpc, if_true, Option.some.injEq] at h
            exact Or.inr (Or.inr (Or.inr (Or.inr (Or.inr ⟨t, rest, rfl, rfl, hpc, h.symm⟩))))
          · simp [hw, hpc] at h

/-- A step completes a down only by taking a unit that is there, so the
decrement of `value` never wraps. -/
theorem step_no_underflow {s s' : SemaSys Tid} {a : SemaAct Tid} (h : s.Step a s')
    (hdown : s'.downs ≠ s.downs) : s'.sema.value.toNat + 1 = s.sema.value.toNat := by
  obtain ⟨t, -, -, -, rfl⟩ | ⟨t, v, -, -, hv, rfl⟩ | ⟨-, rfl⟩ | ⟨v, -, hv, rfl⟩ |
    ⟨-, -, rfl⟩ | ⟨t, rest, -, -, -, rfl⟩ := step_cases h
  · exact absurd rfl hdown
  · exact hv
  · exact absurd rfl hdown
  · exact hv
  · exact absurd rfl hdown
  · exact absurd rfl hdown

variable [Fintype Tid]

/-- The invariant of a semaphore initialised to `value`: the queue invariant,
and the units in circulation never exceed those supplied. `value` is 32 bits
wide and `sema_up` does not test it, so the sum is an inequality: an increment
that wraps only loses units. -/
structure Inv (value : UInt32) (s : SemaSys Tid) : Prop where
  queue : SemaInv s.sema s.pc SemaPc.isBlocked SemaPc.isWoken
  supply : s.sema.value.toNat + s.downs ≤ value.toNat + s.ups

omit [DecidableEq Tid] in
theorem init_inv (value : UInt32) : Inv value (init value : SemaSys Tid) :=
  ⟨SemaInv.init fun _ => rfl, Nat.le_refl _⟩

theorem not_isBlocked {p : SemaPc} (h : p ≠ .blocked) : p.isBlocked = false := by
  cases p <;> first | rfl | exact absurd rfl h

/-- A step keeps the balance: what was taken and what is there is no more than what was there
at the start and what was put there; and the waiters are the threads that are blocked, in
their order. -/
theorem step_inv {value : UInt32} {s s' : SemaSys Tid} {a : SemaAct Tid}
    (hinv : Inv value s) (h : s.Step a s') : Inv value s' := by
  obtain ⟨t, -, hpc, hz, rfl⟩ | ⟨t, v, -, hpc, hv, rfl⟩ | ⟨-, rfl⟩ | ⟨v, -, hv, rfl⟩ |
    ⟨-, hnil, rfl⟩ | ⟨t, rest, -, hcons, hpc, rfl⟩ := step_cases h
  · exact ⟨hinv.queue.block hz (not_isBlocked hpc) rfl, hinv.supply⟩
  · have hs := hinv.supply
    refine ⟨hinv.queue.take hv (not_isBlocked hpc) rfl, ?_⟩
    show v.toNat + (s.downs + 1) ≤ value.toNat + s.ups
    omega
  · exact hinv
  · have hs := hinv.supply
    refine ⟨hinv.queue.takeStill hv, ?_⟩
    show v.toNat + (s.downs + 1) ≤ value.toNat + s.ups
    omega
  · have hs := hinv.supply
    have hle := toNat_add_one_le s.sema.value
    refine ⟨hinv.queue.upEmpty hnil, ?_⟩
    show (s.sema.value + 1).toNat + s.downs ≤ value.toNat + (s.ups + 1)
    omega
  · have hs := hinv.supply
    have hle := toNat_add_one_le s.sema.value
    refine ⟨hinv.queue.upWake hcons rfl rfl (by rw [hpc]; rfl), ?_⟩
    show (s.sema.value + 1).toNat + s.downs ≤ value.toNat + (s.ups + 1)
    omega

/-- The assertion of `thread_unblock` holds whenever `sema_up` reaches it: every
step the model can be asked for is possible, except running a blocked thread. -/
theorem step_isSome {value : UInt32} {s : SemaSys Tid} (hinv : Inv value s) (a : SemaAct Tid)
    (hrun : ∀ t, a = .down t → s.pc t ≠ .blocked) : (s.step a).isSome := by
  cases a with
  | down t =>
      have hpc := hrun t rfl
      rcases semaDown_cases s.sema t with ⟨-, hd⟩ | ⟨v, -, hd⟩ <;> simp [step, hpc, hd]
  | tryDown => simp [step]
  | up =>
      cases hw : s.sema.waiters with
      | nil => simp [step, semaUp, hw]
      | cons t rest =>
          have hmem : t ∈ s.sema.waiters := by simp [hw]
          have hpc : s.pc t = .blocked := by
            have := (hinv.queue.mem_waiters t).mp hmem
            revert this
            cases s.pc t <;> simp [SemaPc.isBlocked]
          simp [step, semaUp, hw, hpc]

end SemaSys

end OsTools.Threads

import Mathlib.Algebra.Order.BigOperators.Group.Finset
import OsTools.Threads.RwLockQueue
/-!
# OsTools.Threads.RwLockSafe

What the readers-writers lock guarantees over whole runs: exclusion and the
meaning of its counters (`rw_lock_run_safe`), and that no wake-up is lost
(`rw_lock_no_lost_wakeup`).

Both are read off the invariant `RwInv`. Exclusion is `CountInv.excl` once the
counters are known to be sums over the threads (`holders_eq_sum`): a sum that is
at most one has at most one thread in it. The same sums say when the counters
are `int`s. Three of them count threads; `AR` counts holds, of which one thread
may have any number, so that exclusion is stated for runs with few enough of
them (`Few`), and `RwInv.ints` shows that nothing overflows there.

For the wake-ups, a state in which everybody inside is asleep has no thread in
guarded code. Then none of the three reasons in `WakeInv` for which a queue may
be nonempty is left, and the queues are empty.
-/

namespace OsTools.Threads

open Function (update)
open RwPc

variable {Tid : Type*}

namespace RwSys

/-- Thread `t` holds the lock as reader or writer: it has returned from
`rw_lock_acquire` and not called `rw_lock_release` since, or it is inside one of
the two with its `AR++` / `AW++` done and not undone. -/
def holds (s : RwSys Tid) (r : Bool) (t : Tid) : Bool :=
  decide (0 < s.held r t) || (s.pc t).inside r

/-- How many times `t` holds it. -/
def holdCount (s : RwSys Tid) (r : Bool) (t : Tid) : Nat :=
  s.held r t + ((s.pc t).inside r).toNat

/-- No thread holds the guard. -/
def GuardFree (s : RwSys Tid) : Prop := s.guard.holder = none

/-- Asleep on a semaphore: on the thread's own in `cond_wait`, or on the guard's. -/
def asleep (s : RwSys Tid) (t : Tid) : Bool :=
  match s.pc t with
  | .blocked _ => true
  | p => p.locking && s.guard.pc t == .blocked

/-- Waiting in `cond_wait` and already signalled. -/
def signalled (s : RwSys Tid) (t : Tid) : Bool :=
  match s.pc t with
  | .unlockWait _ | .downWait _ => (s.wsem t).value != 0
  | .woken _ | .relock _ | .decWait _ => true
  | _ => false

variable [Fintype Tid] {s s' : RwSys Tid}

theorem holders_eq_sum (s : RwSys Tid) (r : Bool) : s.holders r = ∑ t, s.holdCount r t := by
  unfold holders holdCount
  rw [count_eq_sum, Finset.sum_add_distrib]

omit [Fintype Tid] in
theorem holds_iff (s : RwSys Tid) (r : Bool) (t : Tid) :
    s.holds r t = true ↔ 0 < s.holdCount r t := by
  unfold holds holdCount
  cases (s.pc t).inside r <;> simp

/-- Fewer threads hold the lock than holds are counted. -/
theorem count_holds_le (s : RwSys Tid) (r : Bool) : count id (s.holds r) ≤ s.holders r := by
  rw [holders_eq_sum, count_eq_sum]
  refine Finset.sum_le_sum fun t _ => ?_
  have := holds_iff s r t
  cases hh : s.holds r t with
  | false => exact Nat.zero_le _
  | true => exact this.mp hh

/-- Where nobody holds the lock twice, the holds are the threads. -/
theorem count_holds_eq (s : RwSys Tid) (r : Bool) (h : ∀ t, s.holdCount r t ≤ 1) :
    s.holders r = count id (s.holds r) := by
  rw [holders_eq_sum, count_eq_sum]
  refine Finset.sum_congr rfl fun t _ => ?_
  have := holds_iff s r t
  have hle := h t
  cases hh : s.holds r t with
  | false =>
      rw [hh] at this
      show s.holdCount r t = 0
      simpa using this
  | true =>
      have := this.mp hh
      show s.holdCount r t = 1
      omega

theorem holdCount_le (s : RwSys Tid) (r : Bool) (t : Tid) : s.holdCount r t ≤ s.holders r := by
  rw [holders_eq_sum]
  exact Finset.single_le_sum (f := s.holdCount r) (fun _ _ => Nat.zero_le _) (Finset.mem_univ t)

/-- The threads and their holds as reader are few enough for counters of type `int`. -/
def Few (s : RwSys Tid) : Prop := s.holders true + Fintype.card Tid + 1 < 2 ^ 31

/-- The counters, and the sums of them that `rw_lock_acquire` tests, are `int`s: no
statement that changes or tests them overflows. -/
def Ints (s : RwSys Tid) : Prop :=
  ∀ v ∈ [s.AR, s.WR, s.AW, s.WW, s.AW + s.WW, s.AR + s.AW], -2 ^ 31 ≤ v ∧ v < 2 ^ 31

/-- What the lock guarantees in a state. -/
structure RwSafe (s : RwSys Tid) : Prop where
  /-- At most one writer. -/
  writer : count id (s.holds false) ≤ 1
  /-- No reader beside it. -/
  excl : (∃ t, s.holds false t = true) → ∀ t, s.holds true t = false
  /-- `AR` counts the reader's holds and `AW` the writer's. -/
  holds : s.AR = s.holders true ∧ s.AW = s.holders false
  /-- `AW` is the number of threads that hold the lock as writer. -/
  writers : s.AW = count id (s.holds false)
  /-- `AR` is the number of threads that hold it as reader, unless one holds it
  more than once. -/
  readers : (∀ t, s.holdCount true t ≤ 1) → s.AR = count id (s.holds true)

theorem RwInv.safe (h : RwInv s) : RwSafe s := by
  have hAR : s.AR = s.holders true := h.counts.active true
  have hAW : s.AW = s.holders false := h.counts.active false
  have hexcl := h.counts.excl
  have hle : s.holders false ≤ 1 := by omega
  refine ⟨le_trans (count_holds_le s false) hle, ?_, ⟨hAR, hAW⟩, ?_, ?_⟩
  · rintro ⟨t, ht⟩ u
    have hpos := (holds_iff s false t).mp ht
    have hsum := holdCount_le s false t
    have hzero : s.holders true = 0 := by omega
    have hu := holdCount_le s true u
    cases hh : s.holds true u with
    | false => rfl
    | true =>
        have := (holds_iff s true u).mp hh
        omega
  · rw [hAW, count_holds_eq s false fun t => le_trans (holdCount_le s false t) hle]
  · intro hone
    rw [hAR, count_holds_eq s true hone]

/-- `WR` and `WW` count threads, and only one writer is active. -/
theorem RwInv.ints (h : RwInv s) (hfew : s.Few) : s.Ints := by
  have hAR : s.AR = s.holders true := h.counts.active true
  have hWR : s.WR = count (waiting true) s.pc := h.counts.waiting true
  have hWW : s.WW = count (waiting false) s.pc := h.counts.waiting false
  have hcard : ∀ r, count (waiting r) s.pc ≤ Fintype.card Tid := fun r => count_le_card _ _
  have hread := hcard true
  have hwrite := hcard false
  have hexcl := h.counts.excl
  unfold Few at hfew
  intro v hv
  simp only [List.mem_cons, List.not_mem_nil, or_false] at hv
  rcases hv with rfl | rfl | rfl | rfl | rfl | rfl <;> omega

variable [DecidableEq Tid]

/-- A reader becomes active only where no writer is active or waiting. -/
theorem reader_enters (h : RwInv s) {a : RwAct Tid} (hs : s.Step a s') (hAR : s.AR < s'.AR) :
    s.AW + s.WW ≤ 0 := by
  cases step_effect hs with
  | @incActive t r hpc =>
      have htest := h.counts.tested t
      rw [hpc] at htest
      cases r with
      | true => exact htest
      | false => exact absurd hAR (lt_irrefl _)
  | @decActive t r hpc =>
      cases r with
      | true =>
          change s.AR < s.AR + -1 at hAR
          omega
      | false => exact absurd hAR (lt_irrefl _)
  | @incWait t r _ | @push t r _ _ | @decWait t r _ => cases r <;> exact absurd hAR (lt_irrefl _)
  | _ => exact absurd hAR (lt_irrefl _)

/-- **Exclusion and counters of the readers-writers lock.** In every run of any
number of threads in which the threads and their holds as reader stay below
2³¹ - 1: no counter overflows, every state satisfies `RwSafe`, and a step that
makes a reader active starts where no writer is active or waiting. -/
theorem rw_lock_run_safe {ts : List (Transition (RwSys Tid) (RwAct Tid))}
    (hrun : Run RwSys.Step RwSys.init ts) (hfew : ∀ τ ∈ ts, τ.pre.Few ∧ τ.post.Few) :
    ∀ τ ∈ ts, (τ.pre.Ints ∧ τ.post.Ints) ∧ RwSafe τ.pre ∧ RwSafe τ.post ∧
      (τ.pre.AR < τ.post.AR → τ.pre.AW + τ.pre.WW ≤ 0) := by
  intro τ hτ
  obtain ⟨hpre, hpost⟩ := hrun.invariant (I := RwInv) (fun _ _ _ h hs => step_inv h hs)
    init_inv τ hτ
  obtain ⟨hfewPre, hfewPost⟩ := hfew τ hτ
  exact ⟨⟨hpre.ints hfewPre, hpost.ints hfewPost⟩, hpre.safe, hpost.safe,
    reader_enters hpre (hrun.step_of_mem τ hτ)⟩

/-- Two acquisitions by one reader. -/
def rereadActs : List (RwAct Unit) :=
  .acquire () true :: List.replicate 8 (.run ()) ++ .acquire () true :: List.replicate 8 (.run ())

theorem rw_lock_run_safe_reread :
    (Run.trace RwSys.step init rereadActs).length = 18 ∧
      ∀ τ ∈ Run.trace RwSys.step init rereadActs, (τ.pre.Ints ∧ τ.post.Ints) ∧ RwSafe τ.pre ∧
        RwSafe τ.post ∧ (τ.pre.AR < τ.post.AR → τ.pre.AW + τ.pre.WW ≤ 0) := by
  refine ⟨by decide, rw_lock_run_safe (Run.of_trace RwSys.step init rereadActs) ?_⟩
  unfold Few
  decide

/-- A reader that acquires again what it holds makes `AR` exceed the number of
reader threads: `AR` counts holds. -/
theorem readers_not_threads :
    ¬ ∀ ts, Run RwSys.Step (init : RwSys Unit) ts → ∀ τ ∈ ts, τ.post.GuardFree →
      τ.post.AR = count id (τ.post.holds true) := by
  intro h
  have hbad : ∃ τ ∈ Run.trace RwSys.step (init : RwSys Unit) rereadActs,
      τ.post.guard.holder = none ∧ τ.post.AR ≠ count id (τ.post.holds true) := by decide
  obtain ⟨τ, hτ, hfree, hne⟩ := hbad
  exact hne (h _ (Run.of_trace RwSys.step init rereadActs) τ hτ hfree)

/-! ### Progress -/

omit [Fintype Tid] [DecidableEq Tid] in
theorem asleep_of_locking {t : Tid} (hl : (s.pc t).locking = true)
    (hb : s.guard.pc t = .blocked) : s.asleep t = true := by
  unfold asleep
  split
  · rfl
  · rw [hl, hb]
    rfl

omit [Fintype Tid] [DecidableEq Tid] in
/-- A thread that was pushed and is parked no more has been signalled. -/
theorem signalled_of_pushed {t : Tid} {r : Bool} (hpush : (s.pc t).pushed r = true)
    (hpark : ¬ (s.pc t).parked r = true) : s.signalled t = true := by
  unfold signalled
  generalize s.pc t = p at hpush hpark ⊢
  cases p <;> simp_all [pushed, parked]

/-- A thread inside one of the functions and not asleep can take its next
statement: no assertion on the way fails. -/
theorem RwInv.runThread_isSome (h : RwInv s) {t : Tid} (hin : s.pc t ≠ .out)
    (hawake : s.asleep t = false) : (s.runThread t).isSome := by
  have hfits := h.guards.fits t
  have hholder : (s.pc t).guarded = true → s.guard.holder = some t := fun hg =>
    (h.guards.lock.holder t).mpr (held_of_fits hg hfits)
  -- in `lock_acquire` of the guard only a blocked thread cannot go on
  have hlock : (s.pc t).locking = true → s.guard.pc t ≠ .held →
      (s.guardStep t (lockNext (s.guard.pc t))).isSome := by
    intro hl hheld
    have hblocked : s.guard.pc t ≠ .blocked := fun hb => by
      rw [asleep_of_locking hl hb] at hawake
      exact absurd hawake (by simp)
    have hrel := not_releasing_of_fits hl hfits
    cases hg : s.guard.pc t with
    | out | woken =>
        obtain ⟨g, hstep⟩ := Option.isSome_iff_exists.mp
          (LockSys.step_isSome h.guards.lock (t := t) (a := .acquire) (by simp [hg]))
        simp [guardStep, lockNext, hstep]
    | taken =>
        obtain ⟨g, hstep⟩ := Option.isSome_iff_exists.mp
          (LockSys.step_isSome h.guards.lock (t := t) (a := .setHolder) hg)
        simp [guardStep, lockNext, hstep]
    | held => exact absurd hg hheld
    | blocked => exact absurd hg hblocked
    | releasing => exact absurd hg hrel
  -- `lock_release` never blocks
  have hunlock : (s.pc t).unlocking = true → s.guard.pc t ≠ .out →
      (s.guardStep t (unlockNext (s.guard.pc t))).isSome := by
    intro hu hout
    rcases held_or_releasing_of_fits hu hfits hout with hg | hg
    · obtain ⟨g, hstep⟩ := Option.isSome_iff_exists.mp
        (LockSys.step_isSome h.guards.lock (t := t) (a := .release) hg)
      simp [guardStep, unlockNext, hg, hstep]
    · obtain ⟨g, hstep⟩ := Option.isSome_iff_exists.mp
        (LockSys.step_isSome h.guards.lock (t := t) (a := .up) hg)
      simp [guardStep, unlockNext, hg, hstep]
  unfold runThread
  split
  case h_1 hpc => exact absurd hpc hin
  case h_2 hpc | h_3 hpc | h_4 hpc =>
    split
    · rfl
    · exact hlock (by rw [hpc]; rfl) ‹_›
  case h_5 | h_6 | h_21 => split <;> rfl
  case h_7 | h_8 | h_14 | h_15 | h_16 | h_17 | h_19 | h_20 => rfl
  case h_9 r hpc =>
    rw [if_neg (by simpa using hholder (by rw [hpc]; rfl))]
    cases r <;> rfl
  case h_10 hpc | h_18 hpc | h_26 hpc =>
    split
    · rfl
    · exact hunlock (by rw [hpc]; rfl) ‹_›
  case h_11 r _ | h_12 r _ =>
    rcases semaDown_cases (s.wsem t) t with ⟨-, hd⟩ | ⟨v, -, hd⟩ <;> rw [hd] <;> rfl
  case h_13 hpc => simp [asleep, hpc] at hawake
  case h_22 => split <;> [rfl; (split <;> rfl)]
  case h_23 hpc =>
    rw [if_neg (by simpa using hholder (by rw [hpc]; rfl))]
    split <;> rfl
  case h_24 hpc =>
    split
    · rfl
    · rw [if_neg (by simpa using hholder (by rw [hpc]; rfl))]
      rfl
  case h_25 x more hpc =>
    cases hw : (s.wsem x).waiters with
    | nil => simp [semaUp, hw]
    | cons y rest =>
        -- a waiter on a private semaphore is the thread that `cond_wait` blocked
        obtain ⟨hpark, -, -⟩ := (h.queues.slot x).targeted more ⟨t, hpc⟩
        obtain ⟨rfl, rfl, hblocked⟩ := (h.queues.slot x).sem.of_waiters hpark hw
        simp [semaUp, hw, hblocked]

/-! ### No wake-up is lost -/

/-- Nobody holds the lock and nobody can run inside its functions. -/
def Quiescent (s : RwSys Tid) : Prop :=
  s.AR = 0 ∧ s.AW = 0 ∧ ∀ t, s.pc t = .out ∨ s.asleep t = true

omit [Fintype Tid] [DecidableEq Tid] in
theorem asleep_cases {t : Tid} (h : s.asleep t = true) :
    (∃ r, s.pc t = .blocked r) ∨ (s.pc t).locking = true ∧ s.guard.pc t = .blocked := by
  unfold asleep at h
  split at h
  · exact Or.inl ⟨_, ‹_›⟩
  · simp only [Bool.and_eq_true, beq_iff_eq] at h
    exact Or.inr h

omit [DecidableEq Tid] in
/-- The guard's own queue is empty when everybody inside is asleep: its unit
would be free, so a sleeper there would have been woken. -/
theorem RwInv.not_asleep_on_guard (h : RwInv s)
    (hall : ∀ t, s.pc t = .out ∨ s.asleep t = true) (t : Tid) : s.guard.pc t ≠ .blocked := by
  have hpc : ∀ u, s.guard.pc u = .out ∨ s.guard.pc u = .blocked := by
    intro u
    have hfits := h.guards.fits u
    rcases hall u with hu | hu
    · rw [hu] at hfits
      left
      simpa [fits, guarded, locking, unlocking] using hfits
    · rcases asleep_cases hu with ⟨r, hr⟩ | ⟨-, hb⟩
      · rw [hr] at hfits
        left
        simpa [fits, guarded, locking, unlocking] using hfits
      · exact Or.inr hb
  have howns : count LockPc.owns s.guard.pc = 0 :=
    count_eq_zero fun u => by rcases hpc u with hu | hu <;> rw [hu] <;> rfl
  have hwoken : ∀ u, (s.guard.pc u).isWoken = false := fun u => by
    rcases hpc u with hu | hu <;> rw [hu] <;> rfl
  have hunit := h.guards.lock.unit
  have hnil := h.guards.lock.queue.waiters_eq_nil hwoken (by omega)
  intro hb
  have hmem := (h.guards.lock.queue.mem_waiters t).mpr (by rw [hb]; rfl)
  rw [hnil] at hmem
  exact absurd hmem List.not_mem_nil

omit [Fintype Tid] [DecidableEq Tid] in
/-- A thread parked in `cond_wait` is on its queue, or signalled, or about to
be. -/
theorem QueueInv.parked_cases (h : QueueInv s) {t : Tid} {r : Bool}
    (hp : (s.pc t).parked r = true) :
    t ∈ s.queue r ∨ s.signalled t = true ∨ ∃ u, (s.pc u).guarded = true := by
  by_cases hv : (s.wsem t).value = 0
  · rcases (h.slot t).listed r hp hv with hmem | ⟨m, w, hw⟩
    · exact Or.inl hmem
    · exact Or.inr (Or.inr ⟨w, by rw [hw]; rfl⟩)
  · right; left
    have hsem := (h.slot t).sem
    unfold signalled
    generalize s.pc t = p at hp hsem ⊢
    cases p <;> simp_all [parked, SemOk]

omit [DecidableEq Tid] in
/-- **In a quiescent state both queues are empty**, and indeed every thread has
left. -/
theorem RwInv.quiescent (h : RwInv s) (hq : s.Quiescent) :
    s.read = [] ∧ s.write = [] ∧ ∀ t, s.pc t = .out := by
  classical
  obtain ⟨hAR, hAW, hall⟩ := hq
  have hpc : ∀ t, s.pc t = .out ∨ ∃ r, s.pc t = .blocked r := by
    intro t
    refine (hall t).imp_right fun ht => ?_
    exact (asleep_cases ht).resolve_right fun hb => h.not_asleep_on_guard hall t hb.2
  have hnone : ∀ q : RwPc Tid → Bool, q .out = false → (∀ r, q (.blocked r) = false) →
      count q s.pc = 0 := fun q hout hblocked => count_eq_zero fun t => by
    rcases hpc t with ht | ⟨r, ht⟩ <;> rw [ht]
    · exact hout
    · exact hblocked r
  -- nobody is about to wake a sleeper, so that it is still on its queue
  have hlisted : ∀ t r, s.pc t = .blocked r → t ∈ s.queue r := by
    intro t r ht
    rcases h.queues.parked_cases (t := t) (r := r) (by rw [ht]; simp [parked]) with
      hmem | hs | ⟨u, hu⟩
    · exact hmem
    · rw [signalled, ht] at hs
      exact absurd hs (by simp)
    · rcases hpc u with hu' | ⟨r', hu'⟩ <;> rw [hu'] at hu <;> exact absurd hu (by simp [guarded])
  have hwrite : s.write = [] := by
    by_contra hne
    rcases h.wakes.write hne with hpos | hlt | hpos
    · omega
    · -- every waiting writer is on the queue, and none has been signalled
      have hle : count (pushed false) s.pc ≤ s.write.length :=
        count_le_length fun t ht => by
          rcases hpc t with hout | ⟨r, hb⟩
          · rw [hout] at ht
            exact absurd ht (by simp [pushed])
          · rw [hb] at ht
            obtain rfl : false = r := by simpa [pushed] using ht
            exact hlisted t false hb
      omega
    · have := hnone servesWrite rfl (fun _ => rfl)
      omega
  have hread : s.read = [] := by
    by_contra hne
    have hWW : s.WW = count (waiting false) s.pc := h.counts.waiting false
    have hzero : count (waiting false) s.pc = 0 := count_eq_zero fun t => by
      rcases hpc t with hout | ⟨r, hb⟩
      · rw [hout]; rfl
      · cases r with
        | true => rw [hb]; rfl
        | false =>
            have hmem : t ∈ s.write := hlisted t false hb
            rw [hwrite] at hmem
            exact absurd hmem List.not_mem_nil
    rcases h.wakes.read hne with hpos | hpos
    · omega
    · have := hnone servesRead rfl (fun _ => rfl)
      omega
  refine ⟨hread, hwrite, fun t => (hpc t).resolve_right ?_⟩
  rintro ⟨r, ht⟩
  have hmem := hlisted t r ht
  cases r with
  | true => exact absurd (show t ∈ s.read from hmem) (by simp [hread])
  | false => exact absurd (show t ∈ s.write from hmem) (by simp [hwrite])

/-- A writer that waits under a free guard coexists with a thread that is
active or signalled. -/
theorem RwInv.writer_pending (h : RwInv s) (hfree : ∀ t, (s.pc t).guarded = false)
    (hne : s.write ≠ []) : 0 < s.AR + s.AW ∨ ∃ t, s.signalled t = true := by
  rcases h.wakes.write hne with hpos | hlt | hpos
  · exact Or.inl hpos
  · right
    by_contra hnone
    have hle : count (pushed false) s.pc ≤ s.write.length := count_le_length fun t ht => by
      by_cases hp : (s.pc t).parked false = true
      · rcases h.queues.parked_cases hp with hmem | hs | ⟨u, hu⟩
        · exact hmem
        · exact absurd ⟨t, hs⟩ hnone
        · rw [hfree u] at hu
          exact absurd hu (by simp)
      · exact absurd ⟨t, signalled_of_pushed ht hp⟩ hnone
    omega
  · obtain ⟨t, ht⟩ := exists_of_count_pos hpos
    exact absurd (guarded_of_servesWrite ht) (by simp [hfree t])

/-- A thread that waits under a free guard coexists with a thread that is
active or signalled. -/
theorem RwInv.pending (h : RwInv s) (hfree : ∀ t, (s.pc t).guarded = false) {x : Tid} {r : Bool}
    (hx : (s.pc x).parked r = true) : 0 < s.AR + s.AW ∨ ∃ t, s.signalled t = true := by
  have hnn := h.counts.nonneg
  rcases h.queues.parked_cases hx with hmem | hs | ⟨u, hu⟩
  · cases r with
    | false => exact h.writer_pending hfree (List.ne_nil_of_mem hmem)
    | true =>
        rcases h.wakes.read (List.ne_nil_of_mem hmem) with hpos | hpos
        · by_cases hAW : 0 < s.AW
          · left
            omega
          · -- a writer waits: it is signalled, or queued and then served
            have hWW : s.WW = count (waiting false) s.pc := h.counts.waiting false
            obtain ⟨t, ht⟩ := exists_of_count_pos (p := waiting false) (f := s.pc) (by omega)
            by_cases hp : (s.pc t).parked false = true
            · rcases h.queues.parked_cases hp with hmem' | hs | ⟨u, hu⟩
              · exact h.writer_pending hfree (List.ne_nil_of_mem hmem')
              · exact Or.inr ⟨t, hs⟩
              · rw [hfree u] at hu
                exact absurd hu (by simp)
            · exact Or.inr ⟨t, signalled_of_pushed (pushed_of_waiting ht (hfree t)) hp⟩
        · obtain ⟨t, ht⟩ := exists_of_count_pos hpos
          exact absurd (guarded_of_servesRead ht) (by simp [hfree t])
  · exact Or.inr ⟨x, hs⟩
  · rw [hfree u] at hu
    exact absurd hu (by simp)

/-- **No wake-up is lost.** In every state of every run: if nobody holds the
lock and nobody can run inside it, both queues are empty; and while no thread
is inside guarded code, a thread waiting in `cond_wait` coexists with one that
holds the lock or has been signalled. -/
theorem rw_lock_no_lost_wakeup {ts : List (Transition (RwSys Tid) (RwAct Tid))}
    (hrun : Run RwSys.Step RwSys.init ts) :
    ∀ τ ∈ ts, (τ.post.Quiescent → τ.post.read = [] ∧ τ.post.write = []) ∧
      ((∀ t, (τ.post.pc t).guarded = false) → ∀ x r, (τ.post.pc x).parked r = true →
        0 < τ.post.AR + τ.post.AW ∨ ∃ t, τ.post.signalled t = true) := by
  intro τ hτ
  have hinv := (hrun.invariant (I := RwInv) (fun _ _ _ h hs => step_inv h hs) init_inv τ hτ).2
  exact ⟨fun hq => ⟨(hinv.quiescent hq).1, (hinv.quiescent hq).2.1⟩,
    fun hfree x r hx => hinv.pending hfree hx⟩

/-- A writer queues behind a reader and is signalled when the reader leaves. -/
def handoverActs : List (RwAct Bool) :=
  .acquire true true :: List.replicate 8 (.run true) ++
    .acquire false false :: List.replicate 10 (.run false) ++
    .release true true :: List.replicate 10 (.run true) ++ List.replicate 10 (.run false)

theorem rw_lock_no_lost_wakeup_handover :
    (Run.trace RwSys.step init handoverActs).length = 41 ∧
      ∀ τ ∈ Run.trace RwSys.step init handoverActs,
        (τ.post.Quiescent → τ.post.read = [] ∧ τ.post.write = []) ∧
        ((∀ t, (τ.post.pc t).guarded = false) → ∀ x r, (τ.post.pc x).parked r = true →
          0 < τ.post.AR + τ.post.AW ∨ ∃ t, τ.post.signalled t = true) :=
  ⟨by decide, rw_lock_no_lost_wakeup (Run.of_trace RwSys.step init handoverActs)⟩

end RwSys

end OsTools.Threads

import OsTools.Threads.RwLock
/-!
# OsTools.Threads.RwLockInv

The invariant of the readers-writers lock, in four parts that later parts use
from earlier ones:

* `GuardInv`: the guard lock's own invariant, and each thread's two program
  counters agree, so at most one thread is in guarded code;
* `CountInv`: the counters equal numbers of threads, and what a thread tested
  under the guard is still true when it acts on it;
* `QueueInv`: a thread that sleeps on its private semaphore is on its
  condition's queue or the target of a pending `sema_up`;
* `WakeInv`: a nonempty queue always has somebody who will empty it.

The parts are needed in this order. That a thread in guarded code is the guard's
owner makes it the only one there (`GuardInv.unique`); so between the `while`
condition and `AR++` or `AW++` nobody else changes a counter, and the sum that
was tested is still what it was (`CountInv.tested`). This is what exclusion comes
from: the counter goes up only where the other one is known to be zero. The last
two parts are about the condition variables and assume both.

For each part, one lemma covers the steps that leave the part's data alone
(`quiet`), and the others are treated one by one.
-/

namespace OsTools.Threads

open Function (update)

variable {Tid : Type*}

namespace RwPc

/-- On the queue of a condition, or just popped from it. -/
def parked (r : Bool) : RwPc Tid → Bool
  | .unlockWait r' | .downWait r' | .blocked r' => r == r'
  | _ => false

/-- From the push on the queue to the decrement of the waiting counter. -/
def pushed (r : Bool) : RwPc Tid → Bool
  | .unlockWait r' | .downWait r' | .blocked r' | .woken r' | .relock r' | .decWait r' => r == r'
  | _ => false

/-- Counted in `WR` / `WW`. -/
def waiting (r : Bool) : RwPc Tid → Bool
  | .push r' | .unlockWait r' | .downWait r' | .blocked r' | .woken r' | .relock r'
  | .decWait r' => r == r'
  | _ => false

/-- Counted in `AR` / `AW` while inside one of the two functions. -/
def inside (r : Bool) : RwPc Tid → Bool
  | .unlockAcquire r' | .lockRelease r' | .decActive r' => r == r'
  | _ => false

/-- About to make a writer active or waiting, or to wake the readers. -/
def servesRead : RwPc Tid → Bool
  | .test false | .incWait false | .incActive false | .signalTest false | .broadcast
  | .up _ true => true
  | _ => false

/-- About to make a writer active, or to wake a writer. -/
def servesWrite : RwPc Tid → Bool
  | .test false | .incActive false | .signalTest _ | .signal => true
  | _ => false

theorem parked_inj {p : RwPc Tid} {r r' : Bool} (h : p.parked r = true)
    (h' : p.parked r' = true) : r = r' := by
  cases p <;> simp_all [parked]

/-- What a thread's position in the readers-writers lock says about its
position in the guard lock. -/
def fits (p : RwPc Tid) (l : LockPc) : Bool :=
  if p.guarded then decide (l = .held)
  else if p.locking then decide (l ≠ .releasing)
  else if p.unlocking then decide (l = .held ∨ l = .releasing ∨ l = .out)
  else decide (l = .out)

theorem fits_out (r : Bool) : (out : RwPc Tid).fits .out = true ∧
    (lockAcquire r : RwPc Tid).fits .out = true ∧
    (lockRelease r : RwPc Tid).fits .out = true := by
  cases r <;> exact ⟨rfl, rfl, rfl⟩

theorem held_of_fits {p : RwPc Tid} {l : LockPc} (hp : p.guarded = true)
    (h : p.fits l = true) : l = .held := by
  simpa [fits, hp] using h

theorem not_releasing_of_fits {p : RwPc Tid} {l : LockPc} (hp : p.locking = true)
    (h : p.fits l = true) : l ≠ .releasing := by
  cases p <;> simp_all [fits, guarded, locking]

theorem held_or_releasing_of_fits {p : RwPc Tid} {l : LockPc} (hp : p.unlocking = true)
    (h : p.fits l = true) (hl : l ≠ .out) : l = .held ∨ l = .releasing := by
  cases p <;> simp_all [fits, guarded, locking, unlocking]

/-- The statements that serve waiting threads are under the guard. -/
theorem guarded_of_servesWrite {p : RwPc Tid} (h : p.servesWrite = true) : p.guarded = true := by
  cases p <;> simp_all [servesWrite, guarded]

theorem guarded_of_servesRead {p : RwPc Tid} (h : p.servesRead = true) : p.guarded = true := by
  cases p <;> simp_all [servesRead, guarded]

/-- A waiting thread is on its queue, or about to be pushed there. -/
theorem pushed_of_waiting {p : RwPc Tid} {r : Bool} (h : p.waiting r = true)
    (hp : p.guarded = false) : p.pushed r = true := by
  cases p <;> simp_all [waiting, pushed, guarded]

theorem afterLock_guarded {p : RwPc Tid} (h : p.locking = true) :
    p.afterLock.guarded = true := by
  cases p <;> simp_all [locking, afterLock, guarded]

theorem fits_of_locking {p : RwPc Tid} {l : LockPc} (hp : p.locking = true)
    (hl : l ≠ .releasing) : p.fits l = true := by
  cases p <;> simp_all [locking, fits, guarded]

theorem fits_of_unlocking {p : RwPc Tid} {l : LockPc} (hp : p.unlocking = true)
    (hl : l = .held ∨ l = .releasing ∨ l = .out) : p.fits l = true := by
  cases p <;> simp_all [unlocking, locking, fits, guarded]

theorem locking_of_fits_blocked {p : RwPc Tid} (h : p.fits .blocked = true) :
    p.locking = true := by
  cases p <;> simp_all [unlocking, locking, fits, guarded]

theorem fits_guarded {p : RwPc Tid} (h : p.guarded = true) : p.fits .held = true := by
  simp [fits, h]

end RwPc

open RwPc

theorem lockNext_eq_some {l : LockPc} {a : LockAct} (h : lockNext l = some a) :
    a = .acquire ∨ a = .setHolder := by
  cases l <;> simp [lockNext] at h <;> simp [← h]

theorem unlockNext_eq_some {l : LockPc} {a : LockAct} (h : unlockNext l = some a) :
    a = .release ∨ a = .up := by
  cases l <;> simp [unlockNext] at h <;> simp [← h]

namespace RwSys

section Frames

variable (s : RwSys Tid) (d : Int) (r : Bool) (t : Tid) (p : RwPc Tid) (l : List Tid)

@[simp] theorem addActive_pc : (s.addActive d r).pc = s.pc := by cases r <;> rfl
@[simp] theorem addActive_guard : (s.addActive d r).guard = s.guard := by cases r <;> rfl
@[simp] theorem addActive_wsem : (s.addActive d r).wsem = s.wsem := by cases r <;> rfl
@[simp] theorem addActive_queue (r' : Bool) : (s.addActive d r).queue r' = s.queue r' := by
  cases r <;> cases r' <;> rfl

@[simp] theorem addWaiting_pc : (s.addWaiting d r).pc = s.pc := by cases r <;> rfl
@[simp] theorem addWaiting_guard : (s.addWaiting d r).guard = s.guard := by cases r <;> rfl
@[simp] theorem addWaiting_wsem : (s.addWaiting d r).wsem = s.wsem := by cases r <;> rfl
@[simp] theorem addWaiting_queue (r' : Bool) : (s.addWaiting d r).queue r' = s.queue r' := by
  cases r <;> cases r' <;> rfl

@[simp] theorem setQueue_pc : (s.setQueue l r).pc = s.pc := by cases r <;> rfl
@[simp] theorem setQueue_guard : (s.setQueue l r).guard = s.guard := by cases r <;> rfl
@[simp] theorem setQueue_wsem : (s.setQueue l r).wsem = s.wsem := by cases r <;> rfl
@[simp] theorem setQueue_queue_self : (s.setQueue l r).queue r = l := by cases r <;> rfl

variable [DecidableEq Tid]

@[simp] theorem goto_pc : (s.goto t p).pc = update s.pc t p := rfl
@[simp] theorem goto_guard : (s.goto t p).guard = s.guard := rfl
@[simp] theorem goto_wsem : (s.goto t p).wsem = s.wsem := rfl
@[simp] theorem goto_queue : (s.goto t p).queue r = s.queue r := by cases r <;> rfl

end Frames

variable [DecidableEq Tid]

/-! ### The guard -/

/-- The guard lock is in order, and no thread is in guarded code without it. -/
structure GuardInv [Fintype Tid] (s : RwSys Tid) : Prop where
  lock : LockSys.Inv s.guard
  fits : ∀ t, (s.pc t).fits (s.guard.pc t) = true

namespace GuardInv

variable [Fintype Tid] {s s' : RwSys Tid}

omit [DecidableEq Tid] in
/-- The thread in guarded code is the guard's owner, so there is only one. -/
theorem unique (h : GuardInv s) {t u : Tid} (ht : (s.pc t).guarded = true)
    (hu : (s.pc u).guarded = true) : t = u := by
  refine h.lock.owner_unique ?_ ?_
  · rw [held_of_fits ht (h.fits t)]; rfl
  · rw [held_of_fits hu (h.fits u)]; rfl

theorem move (h : GuardInv s) {t : Tid} {p : RwPc Tid} (hg : s'.guard = s.guard)
    (hpc : s'.pc = update s.pc t p) (hfits : p.fits (s.guard.pc t) = true) : GuardInv s' := by
  refine ⟨hg ▸ h.lock, fun u => ?_⟩
  rw [hg, hpc]
  by_cases hut : u = t
  · subst hut
    rwa [Function.update_self]
  · rw [Function.update_of_ne hut]
    exact h.fits u

/-- A guarded thread moves to another guarded statement or to the unlock. -/
theorem stay (h : GuardInv s) {t : Tid} {p : RwPc Tid} (hg : s'.guard = s.guard)
    (hpc : s'.pc = update s.pc t p) (ht : (s.pc t).guarded = true)
    (hfits : p.fits .held = true) : GuardInv s' := by
  refine h.move hg hpc ?_
  rw [held_of_fits ht (h.fits t)]
  exact hfits

/-- A step of the guard's own code keeps the agreement: the stepping thread
stays within `lock_acquire` or `lock_release`, and a thread it wakes was
blocked in `lock_acquire`. -/
theorem guard_step (h : GuardInv s) {t : Tid} {act : LockAct} {guard : LockSys Tid}
    (hg : s.guard.step t act = some guard)
    (ht : ((s.pc t).locking = true ∧ (act = .acquire ∨ act = .setHolder)) ∨
      ((s.pc t).unlocking = true ∧ (act = .release ∨ act = .up))) :
    GuardInv { s with guard } := by
  refine ⟨LockSys.step_inv h.lock hg, fun u => ?_⟩
  show (s.pc u).fits (guard.pc u) = true
  have key : ∀ l, (s.pc t).fits l = true →
      ∀ u, (s.pc u).fits (update s.guard.pc t l u) = true := by
    intro l hl u
    by_cases hut : u = t
    · subst hut
      rwa [Function.update_self]
    · rw [Function.update_of_ne hut]
      exact h.fits u
  have hlock : act ≠ .release → act ≠ .up → (s.pc t).locking = true := fun h1 h2 =>
    ht.elim And.left fun hu => (hu.2.elim (absurd · h1) (absurd · h2))
  have hunlock : act = .release ∨ act = .up → (s.pc t).unlocking = true := fun ha =>
    ht.elim (fun hl => by rcases hl.2 with rfl | rfl <;> simp at ha) And.left
  obtain ⟨rfl, -, -, rfl⟩ | ⟨v, ha, -, -, rfl⟩ | ⟨rfl, -, rfl⟩ | ⟨rfl, -, rfl⟩ |
    ⟨rfl, -, -, rfl⟩ | ⟨rfl, -, -, rfl⟩ | ⟨x, rest, rfl, -, -, hx, rfl⟩ :=
    LockSys.step_cases hg
  · exact key _ (fits_of_locking (hlock (by decide) (by decide)) (by decide)) u
  · refine key _ (fits_of_locking (hlock ?_ ?_) (by decide)) u <;>
      rcases ha with rfl | rfl <;> decide
  · exact h.fits u
  · exact key _ (fits_of_locking (hlock (by decide) (by decide)) (by decide)) u
  · exact key _ (fits_of_unlocking (hunlock (Or.inl rfl)) (by decide)) u
  · exact key _ (fits_of_unlocking (hunlock (Or.inr rfl)) (by decide)) u
  · show (s.pc u).fits (update (update s.guard.pc t .out) x .woken u) = true
    by_cases hux : u = x
    · -- `x` was blocked in `lock_acquire`, and stays there
      subst hux
      rw [Function.update_self]
      have hfits := h.fits u
      rw [hx] at hfits
      exact fits_of_locking (locking_of_fits_blocked hfits) (by decide)
    · rw [Function.update_of_ne hux]
      exact key _ (fits_of_unlocking (hunlock (Or.inr rfl)) (by decide)) u

omit [DecidableEq Tid] in
theorem init : GuardInv (init : RwSys Tid) := ⟨LockSys.init_inv, fun _ => rfl⟩

/-- The guard is a lock as in `OsTools.Threads.Lock`. Its own steps keep its invariant;
all others are made by its holder or by threads that are nowhere near it, and leave it as
it is. -/
theorem step (h : GuardInv s) {a : RwAct Tid} (he : Effect s a s') : GuardInv s' := by
  cases he with
  | @acquire t r hpc =>
      have hout : s.guard.pc t = .out := by
        have := h.fits t
        rw [hpc] at this
        simpa [RwPc.fits, guarded, locking, unlocking] using this
      exact h.move rfl rfl (by rw [hout]; exact (fits_out r).2.1)
  | @release t r hpc hheld =>
      have hout : s.guard.pc t = .out := by
        have := h.fits t
        rw [hpc] at this
        simpa [RwPc.fits, guarded, locking, unlocking] using this
      exact h.move rfl rfl (by rw [hout]; exact (fits_out r).2.2)
  | guardLock hpc hnext hg => exact h.guard_step hg (Or.inl ⟨hpc, lockNext_eq_some hnext⟩)
  | guardUnlock hpc hnext hg => exact h.guard_step hg (Or.inr ⟨hpc, unlockNext_eq_some hnext⟩)
  | locked hpc hg => exact h.move rfl rfl (by rw [hg]; exact fits_guarded (afterLock_guarded hpc))
  | unlockedWait hpc hg => exact h.move rfl rfl (by rw [hg]; rfl)
  | acquired hpc hg => exact h.move rfl rfl (by rw [hg]; rfl)
  | released hpc hg => exact h.move rfl rfl (by rw [hg]; rfl)
  | testWait hpc _ => exact h.stay rfl rfl (by rw [hpc]; rfl) rfl
  | testGo hpc _ => exact h.stay rfl rfl (by rw [hpc]; rfl) rfl
  | incWait hpc => exact h.stay (by simp) (by simp; rfl) (by rw [hpc]; rfl) rfl
  | push hpc _ => exact h.stay (by simp) (by simp; rfl) (by rw [hpc]; rfl) rfl
  | @block t r hpc _ =>
      refine h.move rfl rfl ?_
      have := h.fits t
      rcases hpc with hpc | hpc <;> rw [hpc] at this <;> exact this
  | @take t r v hpc _ =>
      refine h.move rfl rfl ?_
      have hout : s.guard.pc t = .out := by
        have := h.fits t
        rcases hpc with hpc | hpc <;> rw [hpc] at this <;>
          simpa [RwPc.fits, guarded, locking, unlocking] using this
      rw [hout]; rfl
  | decWait hpc => exact h.stay (by simp) (by simp; rfl) (by rw [hpc]; rfl) rfl
  | incActive hpc => exact h.stay (by simp) (by simp; rfl) (by rw [hpc]; rfl) rfl
  | decActive hpc => exact h.stay (by simp) (by simp; rfl) (by rw [hpc]; rfl) rfl
  | toSignal hpc _ => exact h.stay rfl rfl (by rw [hpc]; rfl) rfl
  | toBroadcast hpc _ _ => exact h.stay rfl rfl (by rw [hpc]; rfl) rfl
  | skipReader hpc _ => exact h.stay rfl rfl (by rw [hpc]; rfl) rfl
  | skipWriter hpc _ _ => exact h.stay rfl rfl (by rw [hpc]; rfl) rfl
  | signalEmpty hpc _ => exact h.stay rfl rfl (by rw [hpc]; rfl) rfl
  | signalPop hpc _ => exact h.stay rfl rfl (by rw [hpc]; rfl) rfl
  | broadcastEmpty hpc _ => exact h.stay rfl rfl (by rw [hpc]; rfl) rfl
  | broadcastPop hpc _ => exact h.stay rfl rfl (by rw [hpc]; rfl) rfl
  | upEmpty hpc _ => exact h.stay rfl rfl (by rw [hpc]; rfl) (by split <;> rfl)
  | @upWake t x y more r rest hpc hcons hy =>
      have hyt : y ≠ t := by
        rintro rfl
        rw [hpc] at hy
        exact absurd hy (by simp)
      have hmid : GuardInv ({ s with wsem := update s.wsem x ⟨(s.wsem x).value + 1, rest⟩ }.goto t
          (if more then .broadcast else .unlockRelease)) :=
        h.stay rfl rfl (by rw [hpc]; rfl) (by split <;> rfl)
      refine hmid.move (t := y) (p := .woken r) rfl rfl ?_
      have := h.fits y
      rw [hy] at this
      exact this

end GuardInv

/-! ### The counters -/

/-- `AR` or `AW`. -/
def active (s : RwSys Tid) : Bool → Int
  | true => s.AR
  | false => s.AW

/-- `WR` or `WW`. -/
def waitingCnt (s : RwSys Tid) : Bool → Int
  | true => s.WR
  | false => s.WW

/-- How many times the threads hold the lock as readers or as writers: the
acquisitions they have returned from and not begun to release, and those whose
`AR++` / `AW++` or whose pending `AR--` / `AW--` stands in a call in progress. -/
def holders [Fintype Tid] (s : RwSys Tid) (r : Bool) : Nat :=
  ∑ t, s.held r t + count (inside r) s.pc

/-- What a thread found out under the guard and still relies on. -/
def Tested (s : RwSys Tid) : RwPc Tid → Prop
  | .incWait r | .push r => 0 < s.busy r
  | .incActive r => s.busy r ≤ 0
  | _ => True

/-- The counters count, the lock excludes, and every tested condition still
holds. -/
structure CountInv [Fintype Tid] (s : RwSys Tid) : Prop where
  active : ∀ r, s.active r = s.holders r
  waiting : ∀ r, s.waitingCnt r = count (waiting r) s.pc
  excl : s.AW = 0 ∨ s.AW = 1 ∧ s.AR = 0
  tested : ∀ t, s.Tested (s.pc t)

omit [DecidableEq Tid] in
theorem tested_of_not_guarded {s : RwSys Tid} {p : RwPc Tid} (h : p.guarded = false) :
    s.Tested p := by
  cases p <;> simp_all [guarded, Tested]

omit [DecidableEq Tid] in
theorem tested_congr {s s' : RwSys Tid} (h : ∀ r, s'.busy r = s.busy r) {p : RwPc Tid} :
    s'.Tested p ↔ s.Tested p := by
  cases p <;> simp [Tested, h]

section Values

variable (s : RwSys Tid) (d : Int) (r : Bool) (t : Tid) (p : RwPc Tid)

omit [DecidableEq Tid] in
@[simp] theorem active_addActive_self : (s.addActive d r).active r = s.active r + d := by
  cases r <;> rfl
omit [DecidableEq Tid] in
theorem active_addActive_ne {r' : Bool} (h : r' ≠ r) :
    (s.addActive d r).active r' = s.active r' := by
  cases r <;> cases r' <;> first | rfl | exact absurd rfl h
omit [DecidableEq Tid] in
@[simp] theorem active_addWaiting (r' : Bool) : (s.addWaiting d r).active r' = s.active r' := by
  cases r <;> cases r' <;> rfl
omit [DecidableEq Tid] in
@[simp] theorem waitingCnt_addActive (r' : Bool) :
    (s.addActive d r).waitingCnt r' = s.waitingCnt r' := by
  cases r <;> cases r' <;> rfl
omit [DecidableEq Tid] in
@[simp] theorem waitingCnt_addWaiting_self :
    (s.addWaiting d r).waitingCnt r = s.waitingCnt r + d := by
  cases r <;> rfl
omit [DecidableEq Tid] in
theorem waitingCnt_addWaiting_ne {r' : Bool} (h : r' ≠ r) :
    (s.addWaiting d r).waitingCnt r' = s.waitingCnt r' := by
  cases r <;> cases r' <;> first | rfl | exact absurd rfl h
@[simp] theorem active_goto : (s.goto t p).active r = s.active r := by cases r <;> rfl
@[simp] theorem waitingCnt_goto : (s.goto t p).waitingCnt r = s.waitingCnt r := by
  cases r <;> rfl
@[simp] theorem busy_goto : (s.goto t p).busy r = s.busy r := by cases r <;> rfl
@[simp] theorem tested_goto {q : RwPc Tid} : (s.goto t p).Tested q ↔ s.Tested q :=
  tested_congr fun r => busy_goto s r t p

omit [DecidableEq Tid] in
/-- Exclusion reads the two active counters only. -/
theorem excl_congr {s s' : RwSys Tid} (hA : ∀ r, s'.active r = s.active r)
    (h : s.AW = 0 ∨ s.AW = 1 ∧ s.AR = 0) : s'.AW = 0 ∨ s'.AW = 1 ∧ s'.AR = 0 := by
  have h1 : s'.AR = s.AR := hA true
  have h2 : s'.AW = s.AW := hA false
  rwa [h1, h2]

end Values

section Holders

variable [Fintype Tid] (s : RwSys Tid)

omit [DecidableEq Tid] in
@[simp] theorem holders_addActive (d : Int) (r r' : Bool) :
    (s.addActive d r).holders r' = s.holders r' := by cases r <;> rfl

omit [DecidableEq Tid] in
@[simp] theorem holders_addWaiting (d : Int) (r r' : Bool) :
    (s.addWaiting d r).holders r' = s.holders r' := by cases r <;> rfl

/-- Moving a thread changes the holders by its membership. -/
theorem holders_goto (t : Tid) (p : RwPc Tid) (r : Bool) :
    (s.goto t p).holders r + ((s.pc t).inside r).toNat = s.holders r + (p.inside r).toNat := by
  have hc := count_update (inside r) s.pc t p
  show (∑ u, s.held r u + count (inside r) (update s.pc t p)) + _ = (∑ u, s.held r u + _) + _
  omega

/-- A return or a call moves one hold between `held` and the call in progress:
the holders stay. -/
theorem holders_exchange {t : Tid} {p : RwPc Tid} {r : Bool} {k : Nat}
    (hk : k + (p.inside r).toNat = s.held r t + ((s.pc t).inside r).toNat)
    (hother : ∀ r', r' ≠ r → p.inside r' = (s.pc t).inside r') (r' : Bool) :
    ({ s with held := update s.held r (update (s.held r) t k) }.goto t p).holders r' =
      s.holders r' := by
  have hc := count_update (inside r') s.pc t p
  show ∑ u, update s.held r (update (s.held r) t k) r' u + count (inside r') (update s.pc t p) =
    ∑ u, s.held r' u + count (inside r') s.pc
  by_cases hr : r' = r
  · subst hr
    have hsum := sum_update (s.held r') t k
    rw [Function.update_self]
    omega
  · rw [Function.update_of_ne hr]
    rw [hother r' hr] at hc
    omega

end Holders

namespace CountInv

variable [Fintype Tid] {s s' : RwSys Tid}

omit [DecidableEq Tid] in
theorem nonneg (h : CountInv s) : 0 ≤ s.AR ∧ 0 ≤ s.AW ∧ 0 ≤ s.WR ∧ 0 ≤ s.WW := by
  have h1 := h.active true
  have h2 := h.active false
  have h3 := h.waiting true
  have h4 := h.waiting false
  simp only [RwSys.active, waitingCnt] at h1 h2 h3 h4
  omega

/-- A thread moves, the counters and the numbers they count stay. -/
theorem quiet (h : CountInv s) {t : Tid} {p : RwPc Tid} (hpc : s'.pc = update s.pc t p)
    (hA : ∀ r, s'.active r = s.active r) (hW : ∀ r, s'.waitingCnt r = s.waitingCnt r)
    (hH : ∀ r, s'.holders r = s.holders r)
    (hwait : ∀ r, p.waiting r = (s.pc t).waiting r) (htest : s.Tested p) : CountInv s' := by
  have h1 := hA true
  have h2 := hA false
  have h3 := hW false
  simp only [RwSys.active, waitingCnt] at h1 h2 h3
  have hbusy : ∀ r, s'.busy r = s.busy r := by
    rintro (_ | _) <;> simp only [busy, h1, h2, h3]
  refine ⟨fun r => ?_, fun r => ?_, ?_, fun u => ?_⟩
  · rw [hA, h.active, hH]
  · rw [hW, h.waiting, hpc, count_update_of_eq (hwait r)]
  · rw [h1, h2]
    exact h.excl
  · rw [hpc, tested_congr hbusy]
    by_cases hut : u = t
    · subst hut
      rwa [Function.update_self]
    · rw [Function.update_of_ne hut]
      exact h.tested u

/-- The common case of `quiet`: only the program counter changes, among
positions counted alike. -/
theorem goto (h : CountInv s) {t : Tid} {p : RwPc Tid}
    (hin : ∀ r, p.inside r = (s.pc t).inside r)
    (hwait : ∀ r, p.waiting r = (s.pc t).waiting r) (htest : s.Tested p) :
    CountInv (s.goto t p) := by
  refine h.quiet rfl (fun _ => rfl) (fun _ => rfl) (fun r => ?_) hwait htest
  have := holders_goto s t p r
  rw [hin r] at this
  omega

/-- The guarded thread `t` moves to `p`: the others are not guarded, so nothing
they rely on can be disturbed. -/
theorem tested_move (hg : GuardInv s) {t : Tid} {p : RwPc Tid}
    (ht : (s.pc t).guarded = true) (htest : s'.Tested p) (u : Tid) :
    s'.Tested (update s.pc t p u) := by
  by_cases hut : u = t
  · subst hut
    rwa [Function.update_self]
  · rw [Function.update_of_ne hut]
    refine tested_of_not_guarded ?_
    cases hu : (s.pc u).guarded with
    | false => rfl
    | true => exact absurd (hg.unique hu ht) hut

omit [DecidableEq Tid] in
theorem init : CountInv (init : RwSys Tid) := by
  have hz : ∀ q : RwPc Tid → Bool, q .out = false → count q (RwSys.init : RwSys Tid).pc = 0 :=
    fun q hq => count_eq_zero fun _ => hq
  refine ⟨fun r => ?_, fun r => ?_, Or.inl rfl, fun _ => trivial⟩
  · rw [holders, hz _ rfl]
    cases r <;> simp [RwSys.init, RwSys.active]
  · rw [hz _ rfl]
    cases r <;> rfl

/-- The guarded thread `t` changes a waiting counter as it enters or leaves the
threads this counter counts. -/
theorem wait_step (h : CountInv s) (hg : GuardInv s) {t : Tid} {p : RwPc Tid} {d : Int}
    {r : Bool} (ht : (s.pc t).guarded = true)
    (hin : ∀ r', p.inside r' = (s.pc t).inside r')
    (hself : ((p.waiting r).toNat : Int) = ((s.pc t).waiting r).toNat + d)
    (hother : ∀ r', r' ≠ r → p.waiting r' = (s.pc t).waiting r')
    (htest : (s.addWaiting d r).Tested p) : CountInv ((s.addWaiting d r).goto t p) := by
  have hA : ∀ r', ((s.addWaiting d r).goto t p).active r' = s.active r' := fun r' => by simp
  refine ⟨fun r' => ?_, fun r' => ?_, excl_congr hA h.excl, fun u => ?_⟩
  · have hH := holders_goto (s.addWaiting d r) t p r'
    rw [addWaiting_pc, hin r', holders_addWaiting] at hH
    have := h.active r'
    rw [hA r']
    omega
  · have hc := count_update (RwPc.waiting r') s.pc t p
    have hW := h.waiting r'
    rw [waitingCnt_goto, goto_pc, addWaiting_pc]
    by_cases hr : r' = r
    · subst hr
      rw [waitingCnt_addWaiting_self]
      omega
    · rw [hother r' hr] at hc
      rw [waitingCnt_addWaiting_ne s d r hr]
      omega
  · rw [goto_pc, addWaiting_pc]
    exact tested_move hg ht ((tested_goto _ _ _).mpr htest) u

/-- The guarded thread `t` changes an active counter as it enters or leaves the
holders this counter counts. -/
theorem active_step (h : CountInv s) (hg : GuardInv s) {t : Tid} {p : RwPc Tid} {d : Int}
    {r : Bool} (ht : (s.pc t).guarded = true)
    (hself : ((p.inside r).toNat : Int) = ((s.pc t).inside r).toNat + d)
    (hother : ∀ r', r' ≠ r → p.inside r' = (s.pc t).inside r')
    (hwait : ∀ r', p.waiting r' = (s.pc t).waiting r')
    (hexcl : (s.addActive d r).AW = 0 ∨ (s.addActive d r).AW = 1 ∧ (s.addActive d r).AR = 0)
    (htest : (s.addActive d r).Tested p) : CountInv ((s.addActive d r).goto t p) := by
  refine ⟨fun r' => ?_, fun r' => ?_, hexcl, fun u => ?_⟩
  · have hH := holders_goto (s.addActive d r) t p r'
    have hA := h.active r'
    rw [addActive_pc, holders_addActive] at hH
    rw [active_goto]
    by_cases hr : r' = r
    · subst hr
      rw [active_addActive_self]
      omega
    · rw [hother r' hr] at hH
      rw [active_addActive_ne s d r hr]
      omega
  · rw [waitingCnt_goto, goto_pc, addActive_pc, waitingCnt_addActive, h.waiting,
      count_update_of_eq (hwait r')]
  · rw [goto_pc, addActive_pc]
    exact tested_move hg ht ((tested_goto _ _ _).mpr htest) u

theorem step_incWait (h : CountInv s) (hg : GuardInv s) {t : Tid} {r : Bool}
    (hpc : s.pc t = .incWait r) : CountInv ((s.addWaiting 1 r).goto t (.push r)) := by
  have hnn := h.nonneg
  have hT := h.tested t
  rw [hpc] at hT
  refine h.wait_step hg ?_ ?_ ?_ ?_ ?_ <;> rw [hpc] at *
  · rfl
  · exact fun _ => rfl
  · simp [RwPc.waiting]
  · intro r' hr
    simp [RwPc.waiting, hr]
  · cases r <;> simp only [Tested, busy, addWaiting] at hT ⊢ <;> omega

theorem step_decWait (h : CountInv s) (hg : GuardInv s) {t : Tid} {r : Bool}
    (hpc : s.pc t = .decWait r) : CountInv ((s.addWaiting (-1) r).goto t (.test r)) := by
  refine h.wait_step hg ?_ ?_ ?_ ?_ trivial <;> rw [hpc]
  · rfl
  · exact fun _ => rfl
  · simp [RwPc.waiting]
  · intro r' hr
    simp [RwPc.waiting, hr]

theorem step_incActive (h : CountInv s) (hg : GuardInv s) {t : Tid} {r : Bool}
    (hpc : s.pc t = .incActive r) : CountInv ((s.addActive 1 r).goto t (.unlockAcquire r)) := by
  have hnn := h.nonneg
  have hT := h.tested t
  have hexcl := h.excl
  rw [hpc] at hT
  refine h.active_step hg ?_ ?_ ?_ ?_ ?_ trivial <;> rw [hpc] at *
  · rfl
  · simp [inside]
  · intro r' hr
    simp [inside, hr]
  · exact fun _ => rfl
  · -- the tested sum is still not positive, so no writer is active, and for a
    -- writer no reader either
    cases r <;> simp only [Tested, busy, addActive] at hT ⊢ <;> omega

theorem step_decActive (h : CountInv s) (hg : GuardInv s) {t : Tid} {r : Bool}
    (hpc : s.pc t = .decActive r) :
    CountInv ((s.addActive (-1) r).goto t (.signalTest r)) := by
  have hA := h.active r
  have hexcl := h.excl
  have hpos : 0 < count (inside r) s.pc := count_pos (i := t) (by rw [hpc]; simp [inside])
  refine h.active_step hg ?_ ?_ ?_ ?_ ?_ trivial <;> (try rw [hpc])
  · rfl
  · simp [inside]
  · intro r' hr
    simp [inside, hr]
  · exact fun _ => rfl
  · have hge : 1 ≤ s.active r := by
      rw [hA, holders]
      omega
    cases r <;> simp only [RwSys.active, addActive] at hge ⊢ <;> omega

/-- The counters count the holds and the waiting threads, and a step moves one thread. Only
the holder of the guard changes a counter, so that what it has tested still holds when it
does. -/
theorem step (h : CountInv s) (hg : GuardInv s) {a : RwAct Tid} (he : Effect s a s') :
    CountInv s' := by
  cases he with
  | acquire hpc =>
      exact h.goto (by rw [hpc]; exact fun _ => rfl) (by rw [hpc]; exact fun _ => rfl) trivial
  | @release t r hpc hheld =>
      refine h.quiet rfl (fun r => by cases r <;> rfl) (fun r => by cases r <;> rfl) ?_
        (by rw [hpc]; exact fun _ => rfl) trivial
      refine holders_exchange s ?_ ?_ <;> rw [hpc]
      · simp only [inside, beq_self_eq_true, Bool.toNat_true, Bool.toNat_false]
        omega
      · intro r' hr
        simp [inside, hr]
  | guardLock _ _ _ | guardUnlock _ _ _ => exact ⟨h.active, h.waiting, h.excl, h.tested⟩
  | @locked t hpc _ =>
      refine h.goto ?_ ?_ ?_ <;> revert hpc <;> cases s.pc t <;>
        simp [locking, afterLock, inside, RwPc.waiting, Tested]
  | unlockedWait hpc _ =>
      exact h.goto (by rw [hpc]; exact fun _ => rfl) (by rw [hpc]; exact fun _ => rfl) trivial
  | @acquired t r hpc _ =>
      refine h.quiet rfl (fun r => by cases r <;> rfl) (fun r => by cases r <;> rfl) ?_
        (by rw [hpc]; exact fun _ => rfl) trivial
      refine holders_exchange s ?_ ?_ <;> rw [hpc]
      · simp [inside]
      · intro r' hr
        simp [inside, hr]
  | released hpc _ =>
      exact h.goto (by rw [hpc]; exact fun _ => rfl) (by rw [hpc]; exact fun _ => rfl) trivial
  | testWait hpc hbusy =>
      exact h.goto (by rw [hpc]; exact fun _ => rfl) (by rw [hpc]; exact fun _ => rfl) hbusy
  | testGo hpc hbusy =>
      exact h.goto (by rw [hpc]; exact fun _ => rfl) (by rw [hpc]; exact fun _ => rfl) hbusy
  | incWait hpc => exact h.step_incWait hg hpc
  | @push t r hpc _ =>
      have hA : ∀ r', (({ s with wsem := update s.wsem t (semaInit 0) }.setQueue
          (s.queue r ++ [t]) r).goto t (.unlockWait r)).active r' = s.active r' := by
        cases r <;> rintro (_ | _) <;> rfl
      refine h.quiet (t := t) (p := .unlockWait r) (by simp) hA ?_ ?_
        (by rw [hpc]; exact fun _ => rfl) trivial
      · cases r <;> rintro (_ | _) <;> rfl
      · intro r'
        have := holders_goto s t (.unlockWait r) r'
        rw [hpc] at this
        cases r <;> exact Nat.add_right_cancel this
  | @block t r hpc _ =>
      have hgo : CountInv (s.goto t (.blocked r)) := by
        rcases hpc with hpc | hpc <;>
          exact h.goto (by rw [hpc]; exact fun _ => rfl) (by rw [hpc]; exact fun _ => rfl) trivial
      exact ⟨hgo.active, hgo.waiting, hgo.excl, hgo.tested⟩
  | @take t r v hpc _ =>
      have hgo : CountInv (s.goto t (.relock r)) := by
        rcases hpc with hpc | hpc <;>
          exact h.goto (by rw [hpc]; exact fun _ => rfl) (by rw [hpc]; exact fun _ => rfl) trivial
      exact ⟨hgo.active, hgo.waiting, hgo.excl, hgo.tested⟩
  | decWait hpc => exact h.step_decWait hg hpc
  | incActive hpc => exact h.step_incActive hg hpc
  | decActive hpc => exact h.step_decActive hg hpc
  | toSignal hpc _ | toBroadcast hpc _ _ | skipReader hpc _ | skipWriter hpc _ _
  | signalEmpty hpc _ | broadcastEmpty hpc _ =>
      exact h.goto (by rw [hpc]; exact fun _ => rfl) (by rw [hpc]; exact fun _ => rfl) trivial
  | @signalPop t x rest hpc _ =>
      have hgo := h.goto (t := t) (p := .up x false) (by rw [hpc]; exact fun _ => rfl)
        (by rw [hpc]; exact fun _ => rfl) trivial
      exact ⟨fun r => by cases r; exacts [hgo.active false, hgo.active true],
        fun r => by cases r; exacts [hgo.waiting false, hgo.waiting true], hgo.excl, hgo.tested⟩
  | @broadcastPop t x rest hpc _ =>
      have hgo := h.goto (t := t) (p := .up x true) (by rw [hpc]; exact fun _ => rfl)
        (by rw [hpc]; exact fun _ => rfl) trivial
      exact ⟨fun r => by cases r; exacts [hgo.active false, hgo.active true],
        fun r => by cases r; exacts [hgo.waiting false, hgo.waiting true], hgo.excl, hgo.tested⟩
  | @upEmpty t x more hpc _ =>
      have hgo : CountInv (s.goto t (if more then .broadcast else .unlockRelease)) := by
        cases more <;>
          exact h.goto (by rw [hpc]; exact fun _ => rfl) (by rw [hpc]; exact fun _ => rfl) trivial
      exact ⟨hgo.active, hgo.waiting, hgo.excl, hgo.tested⟩
  | @upWake t x y more r rest hpc _ hy =>
      have hyt : y ≠ t := by
        rintro rfl
        rw [hpc] at hy
        exact absurd hy (by simp)
      have hgo : CountInv (s.goto t (if more then .broadcast else .unlockRelease)) := by
        cases more <;>
          exact h.goto (by rw [hpc]; exact fun _ => rfl) (by rw [hpc]; exact fun _ => rfl) trivial
      have hy' : (s.goto t (if more then .broadcast else .unlockRelease)).pc y = .blocked r := by
        rw [goto_pc, Function.update_of_ne hyt, hy]
      have hgo' := hgo.goto (t := y) (p := .woken r) (by rw [hy']; exact fun _ => rfl)
        (by rw [hy']; exact fun _ => rfl) trivial
      exact ⟨hgo'.active, hgo'.waiting, hgo'.excl, hgo'.tested⟩

end CountInv

end RwSys

end OsTools.Threads

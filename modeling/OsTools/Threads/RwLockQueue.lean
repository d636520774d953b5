import OsTools.Threads.RwLockInv
/-!
# OsTools.Threads.RwLockQueue

The last two parts of the readers-writers lock's invariant.

* `QueueInv`: a thread that sleeps on its private semaphore is on its
  condition's queue or the target of a pending `sema_up`, and nobody else is
  on a queue;
* `WakeInv`: a nonempty queue always has somebody who will empty it.

`RwInv` joins the four parts; `RwInv.step` is the step lemma of the lock.

## Proof shape

`Slot` fits one thread's program counter and private semaphore with the queues and the
pending wake-ups. Its lemmas say how a slot changes when its own thread moves, so that a
step of the system is a move of one slot, and all the other slots are carried over by
`congr`. Since a `cond_signal` runs in guarded code, at most one thread raises a semaphore
at a time (`only_raises`), which is why the popped thread is the target of that thread and
of no other.

`WakeInv` counts: a queue is empty, or one of the threads that serve it is on its way. A
thread ceases to serve a queue only in a step that makes another of the alternatives true,
or that finds the queue empty.
-/

namespace OsTools.Threads

open Function (update)

variable {Tid : Type*}

namespace RwPc

/-- At a `sema_up` of `cond_signal`. -/
def raising : RwPc Tid → Bool
  | .up _ _ => true
  | _ => false

/-- Nowhere between the push on a queue and the return from `sema_down`. -/
def apart : RwPc Tid → Bool
  | .unlockWait _ | .downWait _ | .blocked _ | .woken _ => false
  | _ => true

theorem guarded_of_raising {p : RwPc Tid} (h : p.raising = true) : p.guarded = true := by
  cases p <;> simp_all [raising, guarded]

theorem apart_of_guarded {p : RwPc Tid} (h : p.guarded = true) : p.apart = true := by
  cases p <;> simp_all [apart, guarded]

theorem not_parked_of_apart {p : RwPc Tid} (h : p.apart = true) (r : Bool) :
    p.parked r = false := by
  cases p <;> simp_all [apart, parked]

/-- What a thread's private semaphore looks like at each point of `cond_wait`. -/
def SemOk (t : Tid) (sema : Semaphore Tid) : RwPc Tid → Prop
  | .blocked _ => sema = ⟨0, [t]⟩
  | .unlockWait _ | .downWait _ => sema.waiters = []
  | .woken _ => sema.waiters = [] ∧ sema.value ≠ 0
  | _ => True

theorem semOk_of_apart {t : Tid} {sema : Semaphore Tid} {p : RwPc Tid} (h : p.apart = true) :
    SemOk t sema p := by
  cases p <;> simp_all [apart, SemOk]

/-- A parked thread whose semaphore has a waiter is that waiter, and blocked. -/
theorem SemOk.of_waiters {t y : Tid} {sema : Semaphore Tid} {p : RwPc Tid} {r : Bool}
    {rest : List Tid} (h : SemOk t sema p) (hp : p.parked r = true)
    (hw : sema.waiters = y :: rest) : y = t ∧ rest = [] ∧ p = .blocked r := by
  cases p <;> simp_all [parked, SemOk]

/-- A parked thread whose semaphore has no waiter has not run `sema_down`. -/
theorem SemOk.of_nil {t : Tid} {sema : Semaphore Tid} {p : RwPc Tid} {r : Bool}
    (h : SemOk t sema p) (hp : p.parked r = true) (hw : sema.waiters = []) :
    p = .unlockWait r ∨ p = .downWait r := by
  cases p <;> simp_all [parked, SemOk]

end RwPc

open RwPc

/-- Some thread is about to call `sema_up` on the semaphore of `u`. -/
def Targeted (pc : Tid → RwPc Tid) (u : Tid) (m : Bool) : Prop := ∃ w, pc w = .up u m

/-- How one thread's program counter and private semaphore fit with the queues
it is on and the wake-ups that aim at it. -/
structure Slot (q T : Bool → Prop) (t : Tid) (sema : Semaphore Tid) (p : RwPc Tid) : Prop where
  sem : SemOk t sema p
  queued : ∀ r, q r → p.parked r = true ∧ sema.value = 0
  targeted : ∀ m, T m → p.parked m = true ∧ sema.value = 0 ∧ ∀ r, ¬ q r
  listed : ∀ r, p.parked r = true → sema.value = 0 → q r ∨ ∃ m, T m

namespace Slot

variable {q q' T T' : Bool → Prop} {t : Tid} {sema sema' : Semaphore Tid} {p p' : RwPc Tid}

theorem congr (h : Slot q T t sema p) (hq : ∀ r, q' r ↔ q r) (hT : ∀ m, T' m ↔ T m) :
    Slot q' T' t sema p := by
  have hq' : q' = q := funext fun r => propext (hq r)
  have hT' : T' = T := funext fun m => propext (hT m)
  rw [hq', hT']
  exact h

/-- A thread apart from the waits is on no queue and no target. -/
theorem of_apart (hp : p.apart = true) (hq : ∀ r, ¬ q r) (hT : ∀ m, ¬ T m) :
    Slot q T t sema p :=
  ⟨semOk_of_apart hp, fun r h => absurd h (hq r), fun m h => absurd h (hT m),
    fun r h => by rw [not_parked_of_apart hp r] at h; exact absurd h (by simp)⟩

theorem not_queued (h : Slot q T t sema p) (hp : p.apart = true) (r : Bool) : ¬ q r := fun hq => by
  have := (h.queued r hq).1
  rw [not_parked_of_apart hp r] at this
  exact absurd this (by simp)

theorem not_targeted (h : Slot q T t sema p) (hp : p.apart = true) (m : Bool) : ¬ T m :=
  fun hT => by
    have := (h.targeted m hT).1
    rw [not_parked_of_apart hp m] at this
    exact absurd this (by simp)

/-- The thread moves between positions apart from the waits. -/
theorem move (h : Slot q T t sema p) (hp : p.apart = true) (hp' : p'.apart = true) :
    Slot q T t sema' p' :=
  of_apart hp' (h.not_queued hp) (h.not_targeted hp)

/-- The thread moves on within the wait, parked as before. -/
theorem walk (h : Slot q T t sema p) (hpark : ∀ r, p'.parked r = p.parked r)
    (hval : sema'.value = sema.value) (hsem : SemOk t sema' p') : Slot q T t sema' p' := by
  refine ⟨hsem, fun r hq => ?_, fun m hT => ?_, fun r hr hv => ?_⟩
  · rw [hpark, hval]
    exact h.queued r hq
  · rw [hpark, hval]
    exact h.targeted m hT
  · rw [hpark] at hr
    rw [hval] at hv
    exact h.listed r hr hv

/-- A thread whose semaphore has a unit is on no queue and no target. -/
theorem of_value (h : Slot q T t sema p) (hv : sema.value ≠ 0) : (∀ r, ¬ q r) ∧ ∀ m, ¬ T m :=
  ⟨fun r hq => hv (h.queued r hq).2, fun m hT => hv (h.targeted m hT).2.1⟩

/-- A signalled thread: its semaphore has a unit, nobody lists it. -/
theorem of_raised (hsem : SemOk t sema p) (hv : sema.value ≠ 0) (hq : ∀ r, ¬ q r)
    (hT : ∀ m, ¬ T m) : Slot q T t sema p :=
  ⟨hsem, fun r h => absurd h (hq r), fun m h => absurd h (hT m), fun _ _ h => absurd h hv⟩

end Slot

section Targets

variable [DecidableEq Tid] {pc : Tid → RwPc Tid} {t : Tid} {p : RwPc Tid}

/-- A move between positions that raise nothing keeps the targets. -/
theorem targeted_update (hold : (pc t).raising = false) (hnew : p.raising = false) (u : Tid)
    (m : Bool) : Targeted (update pc t p) u m ↔ Targeted pc u m := by
  constructor
  · rintro ⟨w, hw⟩
    by_cases hwt : w = t
    · subst hwt
      rw [Function.update_self] at hw
      rw [hw] at hnew
      exact absurd hnew (by simp [raising])
    · rw [Function.update_of_ne hwt] at hw
      exact ⟨w, hw⟩
  · rintro ⟨w, hw⟩
    refine ⟨w, ?_⟩
    rw [Function.update_of_ne, hw]
    rintro rfl
    rw [hw] at hold
    exact absurd hold (by simp [raising])

/-- When no other thread raises, `t`'s new position alone decides. -/
theorem targeted_update_of_unique (honly : ∀ w, (pc w).raising = true → w = t) (u : Tid)
    (m : Bool) : Targeted (update pc t p) u m ↔ p = .up u m := by
  constructor
  · rintro ⟨w, hw⟩
    by_cases hwt : w = t
    · subst hwt
      rwa [Function.update_self] at hw
    · rw [Function.update_of_ne hwt] at hw
      exact absurd (honly w (by rw [hw]; rfl)) hwt
  · rintro rfl
    exact ⟨t, Function.update_self _ _ _⟩

end Targets

namespace RwSys

/-! ### The queues -/

/-- A queue lists, once each, the threads parked on it that nobody has
signalled. -/
structure QueueInv (s : RwSys Tid) : Prop where
  nodup : ∀ r, (s.queue r).Nodup
  slot : ∀ t, Slot (t ∈ s.queue ·) (Targeted s.pc t) t (s.wsem t) (s.pc t)

namespace QueueInv

variable {s s' : RwSys Tid}

theorem init : QueueInv (init : RwSys Tid) := by
  refine ⟨fun r => ?_, fun t => Slot.of_apart rfl (fun r => ?_) (fun m => ?_)⟩
  · cases r <;> exact List.nodup_nil
  · cases r <;> exact List.not_mem_nil
  · rintro ⟨w, hw⟩
    exact absurd hw (by simp [RwSys.init])

/-- What the invariant reads. -/
theorem congr (h : QueueInv s) (hpc : s'.pc = s.pc) (hw : s'.wsem = s.wsem)
    (hq : ∀ r, s'.queue r = s.queue r) : QueueInv s' := by
  refine ⟨fun r => hq r ▸ h.nodup r, fun t => ?_⟩
  rw [hpc, hw]
  exact (h.slot t).congr (fun r => by rw [hq]) (fun m => Iff.rfl)

variable [DecidableEq Tid]

/-- The thread `t` moves and its semaphore may change; nobody raises. -/
theorem at_thread (h : QueueInv s) {t : Tid} {p : RwPc Tid} {sema : Semaphore Tid}
    (hpc : s'.pc = update s.pc t p) (hw : s'.wsem = update s.wsem t sema)
    (hq : ∀ r, s'.queue r = s.queue r) (hold : (s.pc t).raising = false)
    (hnew : p.raising = false)
    (hslot : Slot (t ∈ s.queue ·) (Targeted s.pc t) t sema p) : QueueInv s' := by
  refine ⟨fun r => hq r ▸ h.nodup r, fun u => ?_⟩
  rw [hpc, hw]
  have hcongr : ∀ {sema p'}, Slot (u ∈ s.queue ·) (Targeted s.pc u) u sema p' →
      Slot (u ∈ s'.queue ·) (Targeted (update s.pc t p) u) u sema p' :=
    fun hs => hs.congr (fun r => by rw [hq]) (targeted_update hold hnew u)
  refine hcongr ?_
  by_cases hut : u = t
  · subst hut
    rwa [Function.update_self, Function.update_self]
  · rw [Function.update_of_ne hut, Function.update_of_ne hut]
    exact h.slot u

/-- `t` moves, its semaphore stays. -/
theorem goto (h : QueueInv s) {t : Tid} {p : RwPc Tid} (hold : (s.pc t).raising = false)
    (hnew : p.raising = false)
    (hslot : Slot (t ∈ s.queue ·) (Targeted s.pc t) t (s.wsem t) p) : QueueInv (s.goto t p) :=
  h.at_thread rfl (by rw [goto_wsem, Function.update_eq_self]) (fun r => by simp) hold hnew hslot

/-- `t` moves between positions apart from the waits. -/
theorem pass (h : QueueInv s) {t : Tid} {p : RwPc Tid} (hold : (s.pc t).raising = false)
    (hnew : p.raising = false) (hp : (s.pc t).apart = true) (hp' : p.apart = true) :
    QueueInv (s.goto t p) :=
  h.goto hold hnew ((h.slot t).move hp hp')

variable [Fintype Tid]

omit [DecidableEq Tid] in
/-- While `t` is in guarded code nobody else raises. -/
theorem only_raises (hg : GuardInv s) {t : Tid} (ht : (s.pc t).guarded = true) (w : Tid)
    (hw : (s.pc w).raising = true) : w = t :=
  hg.unique (guarded_of_raising hw) ht

omit [Fintype Tid] in
/-- `sema_init` and `list_push_back`. The thread is queued from now on and parks next, on a
semaphore that is its own and has no waiter. -/
theorem push (h : QueueInv s) {t : Tid} {r : Bool} (hpc : s.pc t = .push r) :
    QueueInv (({ s with wsem := update s.wsem t (semaInit 0) }.setQueue (s.queue r ++ [t]) r).goto t
      (.unlockWait r)) := by
  set s' := ({ s with wsem := update s.wsem t (semaInit 0) }.setQueue (s.queue r ++ [t]) r).goto t
    (.unlockWait r) with hs'
  have hpc' : s'.pc = update s.pc t (.unlockWait r) := by rw [hs']; simp
  have hw' : s'.wsem = update s.wsem t (semaInit 0) := by rw [hs']; simp
  have hq : ∀ r', s'.queue r' = if r' = r then s.queue r ++ [t] else s.queue r' := by
    rw [hs']
    cases r <;> rintro (_ | _) <;> rfl
  have hslot := h.slot t
  have hapart : (s.pc t).apart = true := by rw [hpc]; rfl
  have hnot := hslot.not_queued hapart
  have htarget : ∀ u m, Targeted (update s.pc t (.unlockWait r)) u m ↔ Targeted s.pc u m :=
    targeted_update (by rw [hpc]; rfl) rfl
  refine ⟨fun r' => ?_, fun u => ?_⟩
  · rw [hq]
    split
    · exact (h.nodup r).append (List.nodup_singleton t) (by simpa using hnot r)
    · exact h.nodup r'
  · rw [hpc', hw']
    by_cases hut : u = t
    · -- `t` is now parked on the queue of `r`, and nobody aims at it
      subst hut
      rw [Function.update_self, Function.update_self]
      have hmem : ∀ r', u ∈ s'.queue r' ↔ r' = r := by
        intro r'
        rw [hq]
        split
        · simp_all
        · simp [*, hnot r']
      refine ⟨rfl, fun r' hr => ?_, fun m hT => ?_, fun r' hr _ => ?_⟩
      · rw [hmem] at hr
        exact ⟨by simp [parked, hr], rfl⟩
      · exact absurd ((htarget u m).mp hT) (hslot.not_targeted hapart m)
      · exact Or.inl ((hmem r').mpr (by simpa [parked] using hr))
    · rw [Function.update_of_ne hut, Function.update_of_ne hut]
      refine (h.slot u).congr (fun r' => ?_) (htarget u)
      rw [hq]
      split
      · simp [*]
      · rfl

omit [Fintype Tid] in
/-- A pass of `sema_down` that blocks: the thread was not woken, so it has been
parked all along. -/
theorem block (h : QueueInv s) {t : Tid} {r : Bool}
    (hpc : s.pc t = .downWait r ∨ s.pc t = .woken r) (hzero : (s.wsem t).value = 0) :
    QueueInv ({ s with wsem := update s.wsem t ⟨(s.wsem t).value, (s.wsem t).waiters ++ [t]⟩ }.goto t
      (.blocked r)) := by
  have hslot := h.slot t
  have hpc' : s.pc t = .downWait r := by
    refine hpc.resolve_right fun hw => ?_
    have := hslot.sem
    rw [hw] at this
    exact this.2 hzero
  have hnil : (s.wsem t).waiters = [] := by
    have := hslot.sem
    rwa [hpc'] at this
  refine h.at_thread (t := t) (p := .blocked r) rfl rfl (fun r' => by cases r' <;> rfl)
    (by rw [hpc']; rfl) rfl (hslot.walk (fun r' => by rw [hpc']; rfl) rfl ?_)
  rw [hnil, hzero]
  rfl

omit [Fintype Tid] in
/-- A pass of `sema_down` that succeeds: the thread was signalled, so it is on
no queue. -/
theorem take (h : QueueInv s) {t : Tid} {r : Bool} {v : UInt32}
    (hpc : s.pc t = .downWait r ∨ s.pc t = .woken r) (hv : v.toNat + 1 = (s.wsem t).value.toNat) :
    QueueInv ({ s with wsem := update s.wsem t ⟨v, (s.wsem t).waiters⟩ }.goto t
      (.relock r)) := by
  have hne : (s.wsem t).value ≠ 0 := by
    intro hz
    rw [hz] at hv
    exact absurd hv (by simp)
  obtain ⟨hnq, hnT⟩ := (h.slot t).of_value hne
  exact h.at_thread (t := t) (p := .relock r) rfl rfl (fun r' => by cases r' <;> rfl)
    (by rcases hpc with hpc | hpc <;> rw [hpc] <;> rfl) rfl (Slot.of_apart rfl hnq hnT)

/-- `list_pop_front`: the popped thread becomes the target. Nobody is a target before, since
it takes the guard to raise a semaphore. -/
theorem pop (h : QueueInv s) (hg : GuardInv s) {t x : Tid} {r : Bool} {rest : List Tid}
    (ht : (s.pc t).guarded = true) (hold : (s.pc t).raising = false)
    (hcons : s.queue r = x :: rest) : QueueInv ((s.setQueue rest r).goto t (.up x r)) := by
  set s' := (s.setQueue rest r).goto t (.up x r) with hs'
  have hpc' : s'.pc = update s.pc t (.up x r) := by rw [hs']; simp
  have hw' : s'.wsem = s.wsem := by rw [hs']; simp
  have hq : ∀ r', s'.queue r' = if r' = r then rest else s.queue r' := by
    rw [hs']
    cases r <;> rintro (_ | _) <;> rfl
  have hnodup := h.nodup r
  rw [hcons, List.nodup_cons] at hnodup
  have hx := (h.slot x).queued r (by simp [hcons])
  have hxt : x ≠ t := by
    rintro rfl
    have := not_parked_of_apart (apart_of_guarded ht) r
    rw [hx.1] at this
    exact absurd this (by simp)
  have htarget := targeted_update_of_unique (p := .up x r) (only_raises hg ht)
  -- nobody is a target before, as only the holder of the guard raises
  have hnone : ∀ u m, ¬ Targeted s.pc u m := by
    rintro u m ⟨w, hw⟩
    obtain rfl := only_raises hg ht w (by rw [hw]; rfl)
    rw [hw] at hold
    exact absurd hold (by simp [raising])
  refine ⟨fun r' => ?_, fun u => ?_⟩
  · rw [hq]
    split
    · exact hnodup.2
    · exact h.nodup r'
  · rw [hpc', hw']
    by_cases hux : u = x
    · -- `x` leaves its only queue
      subst hux
      rw [Function.update_of_ne hxt]
      have hout : ∀ r', u ∉ s'.queue r' := by
        intro r' hmem
        rw [hq] at hmem
        split at hmem
        · exact hnodup.1 hmem
        · rename_i hr
          exact hr (parked_inj ((h.slot u).queued r' hmem).1 hx.1)
      refine ⟨(h.slot u).sem, fun r' hr => absurd hr (hout r'), fun m hT => ?_, fun _ _ _ => ?_⟩
      · obtain ⟨-, rfl⟩ : u = u ∧ r = m := by simpa using (htarget u m).mp hT
        exact ⟨hx.1, hx.2, hout⟩
      · exact Or.inr ⟨r, (htarget u r).mpr rfl⟩
    · have hslot : Slot (u ∈ s'.queue ·) (Targeted (update s.pc t (.up x r)) u) u (s.wsem u)
          (s.pc u) := by
        refine (h.slot u).congr (fun r' => ?_) (fun m => ?_)
        · rw [hq]
          split
          · simp [*]
          · rfl
        · rw [htarget]
          exact ⟨fun he => absurd (RwPc.up.inj he).1.symm hux, fun hT => absurd hT (hnone u m)⟩
      by_cases hut : u = t
      · subst hut
        rw [Function.update_self]
        exact hslot.move (apart_of_guarded ht) rfl
      · rwa [Function.update_of_ne hut]

/-- `sema_up` before its target has run `sema_down`: the unit stays in the semaphore, and the
target finds it there and does not block. -/
theorem upEmpty (h : QueueInv s) (hg : GuardInv s) {t x : Tid} {more : Bool} {p : RwPc Tid}
    (hpc : s.pc t = .up x more) (hp : p.apart = true) (hnew : p.raising = false)
    (hnil : (s.wsem x).waiters = []) :
    QueueInv ({ s with wsem := update s.wsem x ⟨(s.wsem x).value + 1, (s.wsem x).waiters⟩ }.goto t
      p) := by
  set s' := { s with wsem := update s.wsem x ⟨(s.wsem x).value + 1, (s.wsem x).waiters⟩ }.goto t p
    with hs'
  have ht : (s.pc t).guarded = true := by rw [hpc]; rfl
  obtain ⟨hpark, hzero, hnq⟩ := (h.slot x).targeted more ⟨t, hpc⟩
  have hxt : x ≠ t := by
    rintro rfl
    rw [hpc] at hpark
    exact absurd hpark (by simp [parked])
  have htarget : ∀ u m, ¬ Targeted (update s.pc t p) u m := fun u m hT => by
    have := (targeted_update_of_unique (only_raises hg ht) u m).mp hT
    rw [this] at hnew
    exact absurd hnew (by simp [raising])
  have holdT : ∀ u, u ≠ x → ∀ m, ¬ Targeted s.pc u m := by
    rintro u hux m ⟨w, hw⟩
    obtain rfl := only_raises hg ht w (by rw [hw]; rfl)
    rw [hw] at hpc
    exact hux (RwPc.up.inj hpc).1
  have hq : ∀ r', s'.queue r' = s.queue r' := by
    rw [hs']
    rintro (_ | _) <;> rfl
  refine ⟨fun r' => hq r' ▸ h.nodup r', fun u => ?_⟩
  refine Slot.congr (q := (u ∈ s.queue ·)) (T := Targeted (update s.pc t p) u) ?_
    (fun r' => by rw [hq]) (fun m => Iff.rfl)
  show Slot _ _ u (update s.wsem x _ u) (update s.pc t p u)
  by_cases hux : u = x
  · subst hux
    rw [Function.update_self, Function.update_of_ne hxt]
    refine Slot.of_raised ?_ ?_ hnq (htarget u)
    · rcases (h.slot u).sem.of_nil hpark hnil with hu | hu <;> rw [hu] <;> exact hnil
    · show (s.wsem u).value + 1 ≠ 0
      rw [hzero]
      decide
  · rw [Function.update_of_ne hux]
    have hslot : Slot (u ∈ s.queue ·) (Targeted (update s.pc t p) u) u (s.wsem u) (s.pc u) :=
      (h.slot u).congr (fun _ => Iff.rfl)
        (fun m => ⟨fun hT => absurd hT (htarget u m), fun hT => absurd hT (holdT u hux m)⟩)
    by_cases hut : u = t
    · subst hut
      rw [Function.update_self]
      exact hslot.move (apart_of_guarded ht) hp
    · rwa [Function.update_of_ne hut]

/-- `sema_up` on a blocked target: the waiter it wakes is the target itself, because nobody
else ever waits on its semaphore. -/
theorem upWake (h : QueueInv s) (hg : GuardInv s) {t x y : Tid} {more r : Bool} {p : RwPc Tid}
    {rest : List Tid} (hpc : s.pc t = .up x more) (hp : p.apart = true)
    (hnew : p.raising = false) (hcons : (s.wsem x).waiters = y :: rest)
    (hy : s.pc y = .blocked r) :
    QueueInv (({ s with wsem := update s.wsem x ⟨(s.wsem x).value + 1, rest⟩ }.goto t p).goto y
      (.woken r)) := by
  have ht : (s.pc t).guarded = true := by rw [hpc]; rfl
  obtain ⟨hpark, hzero, hnq⟩ := (h.slot x).targeted more ⟨t, hpc⟩
  obtain ⟨rfl, rfl, hblocked⟩ := (h.slot x).sem.of_waiters hpark hcons
  have hyt : y ≠ t := by
    rintro rfl
    rw [hpc] at hy
    exact absurd hy (by simp)
  have htarget : ∀ u m, ¬ Targeted (update (update s.pc t p) y (.woken r)) u m := fun u m hT => by
    rw [targeted_update (by rw [Function.update_of_ne hyt, hy]; rfl) rfl] at hT
    have := (targeted_update_of_unique (only_raises hg ht) u m).mp hT
    rw [this] at hnew
    exact absurd hnew (by simp [raising])
  have holdT : ∀ u, u ≠ y → ∀ m, ¬ Targeted s.pc u m := by
    rintro u huy m ⟨w, hw⟩
    obtain rfl := only_raises hg ht w (by rw [hw]; rfl)
    rw [hw] at hpc
    exact huy (RwPc.up.inj hpc).1
  set s' := ({ s with wsem := update s.wsem y ⟨(s.wsem y).value + 1, []⟩ }.goto t p).goto y
    (.woken r) with hs'
  have hq : ∀ r', s'.queue r' = s.queue r' := by
    rw [hs']
    rintro (_ | _) <;> rfl
  refine ⟨fun r' => hq r' ▸ h.nodup r', fun u => ?_⟩
  refine Slot.congr (q := (u ∈ s.queue ·))
    (T := Targeted (update (update s.pc t p) y (.woken r)) u) ?_ (fun r' => by rw [hq])
    (fun m => Iff.rfl)
  show Slot _ _ u (update s.wsem y _ u) (update (update s.pc t p) y (.woken r) u)
  by_cases huy : u = y
  · subst huy
    rw [Function.update_self, Function.update_self]
    have hne : (s.wsem u).value + 1 ≠ 0 := by
      rw [hzero]
      decide
    exact Slot.of_raised ⟨rfl, hne⟩ hne hnq (htarget u)
  · rw [Function.update_of_ne huy, Function.update_of_ne huy]
    have hslot : Slot (u ∈ s.queue ·) (Targeted (update (update s.pc t p) y (.woken r)) u) u
        (s.wsem u) (s.pc u) :=
      (h.slot u).congr (fun _ => Iff.rfl)
        (fun m => ⟨fun hT => absurd hT (htarget u m), fun hT => absurd hT (holdT u huy m)⟩)
    by_cases hut : u = t
    · subst hut
      rw [Function.update_self]
      exact hslot.move (apart_of_guarded ht) hp
    · rwa [Function.update_of_ne hut]

/-- Every step keeps the queues and the semaphores in order. Most steps touch neither; the
others are the lemmas above. -/
theorem step (h : QueueInv s) (hg : GuardInv s) {a : RwAct Tid} (he : Effect s a s') :
    QueueInv s' := by
  have pass : ∀ {t : Tid} {p : RwPc Tid} {s₁ : RwSys Tid}, (s₁.pc = s.pc) → s₁.wsem = s.wsem →
      (∀ r, s₁.queue r = s.queue r) → (s.pc t).raising = false → p.raising = false →
      (s.pc t).apart = true → p.apart = true → QueueInv (s₁.goto t p) := by
    intro t p s₁ hpc hw hq hold hnew hap hap'
    exact (h.congr hpc hw hq).pass (by rwa [hpc]) hnew (by rwa [hpc]) hap'
  cases he with
  | acquire hpc => exact h.pass (by rw [hpc]; rfl) rfl (by rw [hpc]; rfl) rfl
  | release hpc _ | acquired hpc _ | released hpc _ =>
      exact pass rfl rfl (fun r => by cases r <;> rfl) (by rw [hpc]; rfl) rfl (by rw [hpc]; rfl) rfl
  | guardLock _ _ _ | guardUnlock _ _ _ => exact h.congr rfl rfl (fun r => by cases r <;> rfl)
  | @locked t hpc _ =>
      refine h.pass ?_ ?_ ?_ ?_ <;> revert hpc <;> cases s.pc t <;>
        simp [locking, afterLock, raising, apart]
  | @unlockedWait t r hpc _ =>
      refine h.goto (by rw [hpc]; rfl) rfl ((h.slot t).walk (fun r' => by rw [hpc]; rfl) rfl ?_)
      have := (h.slot t).sem
      rwa [hpc] at this
  | testWait hpc _ | testGo hpc _ | toSignal hpc _ | toBroadcast hpc _ _ | skipReader hpc _
  | skipWriter hpc _ _ | signalEmpty hpc _ | broadcastEmpty hpc _ =>
      exact h.pass (by rw [hpc]; rfl) rfl (by rw [hpc]; rfl) rfl
  | incWait hpc | decWait hpc | incActive hpc | decActive hpc =>
      exact pass (by simp) (by simp) (fun r => by simp) (by rw [hpc]; rfl) rfl (by rw [hpc]; rfl) rfl
  | push hpc _ => exact h.push hpc
  | block hpc hzero => exact h.block hpc hzero
  | take hpc hv => exact h.take hpc hv
  | signalPop hpc hcons => exact h.pop hg (by rw [hpc]; rfl) (by rw [hpc]; rfl) hcons
  | broadcastPop hpc hcons => exact h.pop hg (by rw [hpc]; rfl) (by rw [hpc]; rfl) hcons
  | upEmpty hpc hnil =>
      exact h.upEmpty hg hpc (by split <;> rfl) (by split <;> rfl) hnil
  | upWake hpc hcons hy =>
      exact h.upWake hg hpc (by split <;> rfl) (by split <;> rfl) hcons hy

end QueueInv

/-! ### The wake-ups -/

/-- While readers wait, a writer is active or waits, or somebody is about to
bring one of these about or to wake them. While writers wait, the lock is held,
or one of them has been signalled, or somebody is about to bring one of these
about. -/
structure WakeInv [Fintype Tid] (s : RwSys Tid) : Prop where
  read : s.read ≠ [] → 0 < s.AW + s.WW ∨ 0 < count servesRead s.pc
  write : s.write ≠ [] → 0 < s.AR + s.AW ∨ s.write.length < count (pushed false) s.pc ∨
    0 < count servesWrite s.pc

section Lengths

variable [Fintype Tid] [DecidableEq Tid]

/-- A queue is no longer than the number of threads waiting on it. -/
theorem queue_length_le {s : RwSys Tid} (hq : QueueInv s) (r : Bool) :
    (s.queue r).length ≤ count (pushed r) s.pc :=
  length_le_count (hq.nodup r) fun t ht => by
    have := ((hq.slot t).queued r ht).1
    cases hp : s.pc t <;> simp_all [parked, pushed]

theorem queue_eq_nil {s : RwSys Tid} (hq : QueueInv s) (hc : CountInv s) {r : Bool}
    (h : s.waitingCnt r ≤ 0) : s.queue r = [] := by
  have hlen := queue_length_le hq r
  have hle : count (pushed r) s.pc ≤ count (waiting r) s.pc :=
    count_mono fun p hp => by cases p <;> simp_all [pushed, waiting]
  have hw := hc.waiting r
  refine List.eq_nil_of_length_eq_zero ?_
  omega

end Lengths

namespace WakeInv

variable [Fintype Tid] {s s' : RwSys Tid}

theorem init : WakeInv (init : RwSys Tid) := ⟨fun h => absurd rfl h, fun h => absurd rfl h⟩

/-- A step that only changes the guard. -/
theorem congr (h : WakeInv s) {guard : LockSys Tid} : WakeInv { s with guard } :=
  ⟨h.read, h.write⟩

variable [DecidableEq Tid]

/-- Thread `t` moves to `p`. Either the reasons why a nonempty queue will be
served are kept, or the step supplies a new one. -/
theorem move (h : WakeInv s) {t : Tid} {p : RwPc Tid} (hpc : s'.pc = update s.pc t p)
    (hread : s'.read ≠ [] →
      (s.read ≠ [] ∧ s.AW + s.WW ≤ s'.AW + s'.WW ∧
        ((s.pc t).servesRead = true → p.servesRead = true)) ∨
      0 < s'.AW + s'.WW ∨ p.servesRead = true)
    (hwrite : s'.write ≠ [] →
      (s.write ≠ [] ∧ s.AR + s.AW ≤ s'.AR + s'.AW ∧ s'.write.length ≤ s.write.length ∧
        ((s.pc t).pushed false = true → p.pushed false = true) ∧
        ((s.pc t).servesWrite = true → p.servesWrite = true)) ∨
      0 < s'.AR + s'.AW ∨ s'.write.length < count (pushed false) s'.pc ∨
      p.servesWrite = true) : WakeInv s' := by
  constructor
  · intro hne
    rcases hread hne with ⟨hold, hle, hserves⟩ | hpos | hserves
    · refine (h.read hold).imp (fun hpos => lt_of_lt_of_le hpos hle) fun hpos => ?_
      rw [hpc]
      exact lt_of_lt_of_le hpos (count_le_update hserves)
    · exact Or.inl hpos
    · right
      rw [hpc]
      exact count_pos (i := t) (by rwa [Function.update_self])
  · intro hne
    rcases hwrite hne with ⟨hold, hle, hlen, hpushed, hserves⟩ | hpos | hlen | hserves
    · rcases h.write hold with hpos | hlt | hpos
      · exact Or.inl (lt_of_lt_of_le hpos hle)
      · right; left
        rw [hpc]
        exact lt_of_le_of_lt hlen (lt_of_lt_of_le hlt (count_le_update hpushed))
      · right; right
        rw [hpc]
        exact lt_of_lt_of_le hpos (count_le_update hserves)
    · exact Or.inl hpos
    · exact Or.inr (Or.inl hlen)
    · right; right
      rw [hpc]
      exact count_pos (i := t) (by rwa [Function.update_self])

/-- The common case of `move`: queues and counters stay, and `t` gives up no
role. -/
theorem goto (h : WakeInv s) {t : Tid} {p : RwPc Tid} (hpc : s'.pc = update s.pc t p)
    (hq : s'.read = s.read ∧ s'.write = s.write)
    (hcnt : s'.AR = s.AR ∧ s'.AW = s.AW ∧ s'.WW = s.WW)
    (hroles : ((s.pc t).servesRead = true → p.servesRead = true) ∧
      ((s.pc t).pushed false = true → p.pushed false = true) ∧
      ((s.pc t).servesWrite = true → p.servesWrite = true)) : WakeInv s' := by
  obtain ⟨hr, hw⟩ := hq
  obtain ⟨hAR, hAW, hWW⟩ := hcnt
  refine h.move hpc (fun hne => Or.inl ⟨hr ▸ hne, ?_, hroles.1⟩)
    (fun hne => Or.inl ⟨hw ▸ hne, ?_, ?_, hroles.2⟩)
  · rw [hAW, hWW]
  · rw [hAR, hAW]
  · rw [hw]

omit [Fintype Tid] [DecidableEq Tid] in
/-- A queue of readers that `t` does not serve, where the writers' counters stay. -/
theorem keepRead {t : Tid} {p p' : RwPc Tid} (hpc : s.pc t = p) (hp : p.servesRead = false)
    (hne : s.read ≠ []) : s.read ≠ [] ∧ s.AW + s.WW ≤ s.AW + s.WW ∧
      ((s.pc t).servesRead = true → p'.servesRead = true) := by
  refine ⟨hne, le_refl _, fun hserves => ?_⟩
  rw [hpc, hp] at hserves
  cases hserves

omit [Fintype Tid] [DecidableEq Tid] in
/-- A queue of writers that `t` neither waits on nor serves, where the active
counters stay. -/
theorem keepWrite {t : Tid} {p p' : RwPc Tid} (hpc : s.pc t = p) (hp : p.pushed false = false)
    (hserves : p.servesWrite = false) (hne : s.write ≠ []) :
    s.write ≠ [] ∧ s.AR + s.AW ≤ s.AR + s.AW ∧ s.write.length ≤ s.write.length ∧
      ((s.pc t).pushed false = true → p'.pushed false = true) ∧
      ((s.pc t).servesWrite = true → p'.servesWrite = true) := by
  refine ⟨hne, le_refl _, le_refl _, fun h => ?_, fun h => ?_⟩
  · rw [hpc, hp] at h
    cases h
  · rw [hpc, hserves] at h
    cases h

/-- A writer that has to wait found the lock held. -/
theorem testWait (h : WakeInv s) {t : Tid} {r : Bool} (hpc : s.pc t = .test r)
    (hbusy : 0 < s.busy r) : WakeInv (s.goto t (.incWait r)) := by
  cases r with
  | true =>
      refine h.goto rfl ⟨rfl, rfl⟩ ⟨rfl, rfl, rfl⟩ ?_
      rw [hpc]
      simp [servesRead, pushed, servesWrite]
  | false => exact h.move rfl (fun _ => Or.inr (Or.inr rfl)) (fun _ => Or.inr (Or.inl hbusy))

/-- `WR++` and `WW++`. -/
theorem incWait (h : WakeInv s) (hc : CountInv s) {t : Tid} {r : Bool} (hpc : s.pc t = .incWait r) :
    WakeInv ((s.addWaiting 1 r).goto t (.push r)) := by
  have hnn := hc.nonneg
  cases r with
  | true =>
      refine h.goto rfl ⟨rfl, rfl⟩ ⟨rfl, rfl, rfl⟩ ?_
      rw [hpc]
      simp [servesRead, pushed, servesWrite]
  | false =>
      refine h.move (t := t) (p := .push false) rfl (fun _ => Or.inr (Or.inl ?_))
        (fun hne => Or.inl (keepWrite hpc rfl rfl hne))
      show 0 < s.AW + (s.WW + 1)
      omega

/-- `list_push_back`: the thread found the lock held, and it still is. -/
theorem push (h : WakeInv s) (hc : CountInv s) {t : Tid} {r : Bool} (hpc : s.pc t = .push r) :
    WakeInv (({ s with wsem := update s.wsem t (semaInit 0) }.setQueue (s.queue r ++ [t]) r).goto t
      (.unlockWait r)) := by
  have hbusy : 0 < s.busy r := by
    have := hc.tested t
    rwa [hpc] at this
  cases r with
  | true =>
      exact h.move (t := t) (p := .unlockWait true) rfl (fun _ => Or.inr (Or.inl hbusy))
        (fun hne => Or.inl (keepWrite hpc rfl rfl hne))
  | false =>
      exact h.move (t := t) (p := .unlockWait false) rfl
        (fun hne => Or.inl (keepRead hpc rfl hne)) (fun _ => Or.inr (Or.inl hbusy))

/-- `WR--` and `WW--`. -/
theorem decWait (h : WakeInv s) {t : Tid} {r : Bool} (hpc : s.pc t = .decWait r) :
    WakeInv ((s.addWaiting (-1) r).goto t (.test r)) := by
  cases r with
  | true =>
      refine h.goto rfl ⟨rfl, rfl⟩ ⟨rfl, rfl, rfl⟩ ?_
      rw [hpc]
      simp [servesRead, pushed, servesWrite]
  | false =>
      exact h.move (t := t) (p := .test false) rfl (fun _ => Or.inr (Or.inr rfl))
        (fun _ => Or.inr (Or.inr (Or.inr rfl)))

/-- `AR++` and `AW++`. -/
theorem incActive (h : WakeInv s) (hc : CountInv s) {t : Tid} {r : Bool}
    (hpc : s.pc t = .incActive r) : WakeInv ((s.addActive 1 r).goto t (.unlockAcquire r)) := by
  have hnn := hc.nonneg
  cases r with
  | true =>
      refine h.move (t := t) (p := .unlockAcquire true) rfl
        (fun hne => Or.inl (keepRead hpc rfl hne)) (fun _ => Or.inr (Or.inl ?_))
      show 0 < s.AR + 1 + s.AW
      omega
  | false =>
      refine h.move (t := t) (p := .unlockAcquire false) rfl (fun _ => Or.inr (Or.inl ?_))
        (fun _ => Or.inr (Or.inl ?_))
      · show 0 < s.AW + 1 + s.WW
        omega
      · show 0 < s.AR + (s.AW + 1)
        omega

/-- `AR--` and `AW--`. -/
theorem decActive (h : WakeInv s) {t : Tid} {r : Bool} (hpc : s.pc t = .decActive r) :
    WakeInv ((s.addActive (-1) r).goto t (.signalTest r)) := by
  cases r with
  | true =>
      exact h.move (t := t) (p := .signalTest true) rfl (fun hne => Or.inl (keepRead hpc rfl hne))
        (fun _ => Or.inr (Or.inr (Or.inr rfl)))
  | false =>
      exact h.move (t := t) (p := .signalTest false) rfl (fun _ => Or.inr (Or.inr rfl))
        (fun _ => Or.inr (Or.inr (Or.inr rfl)))

/-- `cond_signal` pops a writer, which still counts as pushed. -/
theorem signalPop (h : WakeInv s) (hq : QueueInv s) {t x : Tid} {rest : List Tid}
    (hpc : s.pc t = .signal) (hcons : s.write = x :: rest) :
    WakeInv ((s.setQueue rest false).goto t (.up x false)) := by
  refine h.move (t := t) (p := .up x false) rfl (fun hne => Or.inl (keepRead hpc rfl hne))
    (fun _ => Or.inr (Or.inr (Or.inl ?_)))
  have hlen := queue_length_le hq false
  rw [show s.queue false = x :: rest from hcons, List.length_cons] at hlen
  show rest.length < count (pushed false) (update s.pc t (.up x false))
  rw [count_update_of_eq (by rw [hpc]; rfl)]
  omega

/-- The end of `sema_up`, as far as the thread that runs it goes. -/
theorem upDone (h : WakeInv s) {t x : Tid} {more : Bool} (hpc : s.pc t = .up x more) :
    WakeInv (s.goto t (if more then .broadcast else .unlockRelease)) := by
  refine h.goto (t := t) rfl ⟨rfl, rfl⟩ ⟨rfl, rfl, rfl⟩ ?_
  rw [hpc]
  cases more <;> simp [servesRead, pushed, servesWrite]

/-- A step that ends one reason for a queue to wait leaves another: the counters go down in
the hands of the holder of the guard, which is then on its way to the queues, and a queue gets
shorter only by a signal to the thread that leaves it. -/
theorem step (h : WakeInv s) (hc : CountInv s) (hq : QueueInv s) {a : RwAct Tid}
    (he : Effect s a s') : WakeInv s' := by
  have hnn := hc.nonneg
  have hread : s.WR ≤ 0 → s.read = [] := fun hle => queue_eq_nil (r := true) hq hc hle
  have hwrite : s.WW ≤ 0 → s.write = [] := fun hle => queue_eq_nil (r := false) hq hc hle
  cases he with
  | acquire hpc | release hpc _ | unlockedWait hpc _ | acquired hpc _ | released hpc _ =>
      refine h.goto rfl ⟨rfl, rfl⟩ ⟨rfl, rfl, rfl⟩ ?_
      rw [hpc]
      simp [servesRead, pushed, servesWrite]
  | guardLock _ _ _ | guardUnlock _ _ _ => exact h.congr
  | @locked t hpc _ =>
      refine h.goto rfl ⟨rfl, rfl⟩ ⟨rfl, rfl, rfl⟩ ?_
      revert hpc
      cases s.pc t <;> simp [locking, afterLock, servesRead, pushed, servesWrite]
  | testWait hpc hbusy => exact h.testWait hpc hbusy
  | @testGo t r hpc _ =>
      refine h.goto rfl ⟨rfl, rfl⟩ ⟨rfl, rfl, rfl⟩ ?_
      rw [hpc]
      cases r <;> simp [servesRead, pushed, servesWrite]
  | incWait hpc => exact h.incWait hc hpc
  | push hpc _ => exact h.push hc hpc
  | @block t r hpc _ =>
      refine h.goto (t := t) (p := .blocked r) rfl ⟨rfl, rfl⟩ ⟨rfl, rfl, rfl⟩ ?_
      rcases hpc with hpc | hpc <;> simp [hpc, servesRead, pushed, servesWrite]
  | @take t r v hpc _ =>
      refine h.goto (t := t) (p := .relock r) rfl ⟨rfl, rfl⟩ ⟨rfl, rfl, rfl⟩ ?_
      rcases hpc with hpc | hpc <;> simp [hpc, servesRead, pushed, servesWrite]
  | decWait hpc => exact h.decWait hpc
  | incActive hpc => exact h.incActive hc hpc
  | decActive hpc => exact h.decActive hpc
  | @toSignal t r hpc hWW =>
      refine h.move (t := t) (p := .signal) rfl (fun _ => Or.inr (Or.inl ?_))
        (fun _ => Or.inr (Or.inr (Or.inr rfl)))
      show 0 < s.AW + s.WW
      omega
  | @toBroadcast t hpc hWW _ =>
      exact h.move (t := t) (p := .broadcast) rfl (fun _ => Or.inr (Or.inr rfl))
        (fun hne => absurd (hwrite hWW) hne)
  | @skipReader t hpc hskip =>
      refine h.move (t := t) (p := .unlockRelease) rfl
        (fun hne => Or.inl (keepRead hpc rfl hne)) (fun hne => ?_)
      rcases hskip with hAR | hWW
      · right; left
        show 0 < s.AR + s.AW
        omega
      · exact absurd (hwrite hWW) hne
  | @skipWriter t hpc hWW hWR =>
      exact h.move (t := t) (p := .unlockRelease) rfl (fun hne => absurd (hread hWR) hne)
        (fun hne => absurd (hwrite hWW) hne)
  | @signalEmpty t hpc hnil =>
      exact h.move (t := t) (p := .unlockRelease) rfl (fun hne => Or.inl (keepRead hpc rfl hne))
        (fun hne => absurd hnil hne)
  | signalPop hpc hcons => exact h.signalPop hq hpc hcons
  | @broadcastEmpty t hpc hnil =>
      exact h.move (t := t) (p := .unlockRelease) rfl (fun hne => absurd hnil hne)
        (fun hne => Or.inl (keepWrite hpc rfl rfl hne))
  | @broadcastPop t x rest hpc _ =>
      exact h.move (t := t) (p := .up x true) rfl (fun _ => Or.inr (Or.inr rfl))
        (fun hne => Or.inl (keepWrite hpc rfl rfl hne))
  | upEmpty hpc _ => exact ⟨(h.upDone hpc).read, (h.upDone hpc).write⟩
  | @upWake t x y more r rest hpc _ hy =>
      have hyt : y ≠ t := by
        rintro rfl
        rw [hpc] at hy
        exact absurd hy (by simp)
      refine (h.upDone hpc).goto (t := y) (p := .woken r) rfl ⟨rfl, rfl⟩ ⟨rfl, rfl, rfl⟩ ?_
      rw [goto_pc, Function.update_of_ne hyt, hy]
      simp [servesRead, pushed, servesWrite]

end WakeInv

/-! ### The whole invariant -/

/-- The invariant of the readers-writers lock. -/
structure RwInv [Fintype Tid] (s : RwSys Tid) : Prop where
  guards : GuardInv s
  counts : CountInv s
  queues : QueueInv s
  wakes : WakeInv s

variable [Fintype Tid] [DecidableEq Tid]

omit [DecidableEq Tid] in
theorem init_inv : RwInv (init : RwSys Tid) :=
  ⟨GuardInv.init, CountInv.init, QueueInv.init, WakeInv.init⟩

theorem step_inv {s s' : RwSys Tid} {a : RwAct Tid} (h : RwInv s) (hs : s.Step a s') :
    RwInv s' := by
  have he := step_effect hs
  exact ⟨h.guards.step he, h.counts.step h.guards he, h.queues.step h.guards he,
    h.wakes.step h.counts h.queues he⟩

end RwSys

end OsTools.Threads

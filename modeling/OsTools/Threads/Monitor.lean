import OsTools.Lib.Run
import OsTools.Threads.Lock
/-!
# OsTools.Threads.Monitor

Code that works on shared data behind a lock of `synch.c`. Any number of threads make requests:
they acquire the lock, go through the code a step at a time, and release the lock. Other events,
such as interrupts, happen on the data at any time.

`Monitor.Rule` is the rule of lock invariants: what holds of the data while nobody has the lock,
what holds of it inside the code, and that each step keeps it. Then it holds in all runs
(`Rule.step`), every request is served once and in its thread's order, and there is no deadlock
(`Inv.progress`).

Nothing here mentions what the data are.

## Proof shape

A thread that waits for the lock, is inside the code or is about to release it owns its
request (`pending`) until the request takes effect. `Inv` has the invariant of the lock, the
quiet data while nobody owns it, and a list of what has taken effect, in which each thread's
requests stand in the thread's order. There is one lemma for each kind of step, and only
`Inv.run` uses the rule's hypothesis about the code; events are its `quietEvent` and
`insideEvent`.

For progress, somebody owns the unit of the lock or it is free. In the first case it is the
owner that goes on (`Inv.owner_progress`), in the second one any thread that has a request.
-/

namespace OsTools.Threads

open Function (update)

/-- Requests `ρ`, states `κ` of the code, shared data `σ` and events `ε`. -/
structure Monitor (Tid ρ κ σ ε : Type*) where
  start : ρ → κ
  /-- One step of the code; nothing while it waits, and where it would fail. -/
  body : Tid → κ → σ → Option (κ × σ)
  /-- The lock is released next. -/
  finished : κ → Bool
  event : ε → σ → Option σ
  /-- Whether the request has taken effect. -/
  served : κ → Bool
  /-- The requests of a thread that have taken effect. -/
  servedBy : σ → Tid → List ρ

/-- `call` are the requests that threads are at; `begun` records the requests made so far. -/
structure MonitorSys (Tid ρ κ σ : Type*) where
  lock : LockSys Tid
  call : Tid → Option (ρ × κ)
  shared : σ
  begun : Tid → List ρ

inductive MonitorAct (Tid ρ ε : Type*)
  | begin (t : Tid) (r : ρ)
  | lock (t : Tid) (a : LockAct)
  | run (t : Tid)
  | event (e : ε)

/-- The act goes on with what has begun. -/
def MonitorAct.continues {Tid ρ ε : Type*} : MonitorAct Tid ρ ε → Bool
  | .begin _ _ => false
  | _ => true

namespace Monitor

variable {Tid ρ κ σ ε : Type*} [DecidableEq Tid] {M : Monitor Tid ρ κ σ ε}
  {s s' : MonitorSys Tid ρ κ σ} {t u : Tid} {Quiet : σ → Prop} {Inside : Tid → ρ → κ → σ → Prop}

def boot (d : σ) : MonitorSys Tid ρ κ σ := ⟨LockSys.init, fun _ => none, d, fun _ => []⟩

def step (M : Monitor Tid ρ κ σ ε) (s : MonitorSys Tid ρ κ σ) :
    MonitorAct Tid ρ ε → Option (MonitorSys Tid ρ κ σ)
  | .begin t r =>
      if (s.call t).isNone then
        some { s with
          call := update s.call t (some (r, M.start r))
          begun := update s.begun t (s.begun t ++ [r]) }
      else none
  | .lock t a =>
      match a, s.call t with
      | .acquire, some _ => (s.lock.step t .acquire).map fun lock => { s with lock }
      | .setHolder, some _ => (s.lock.step t .setHolder).map fun lock => { s with lock }
      | .release, some (_, k) =>
          if M.finished k then (s.lock.step t .release).map fun lock => { s with lock } else none
      | .up, some _ =>
          (s.lock.step t .up).map fun lock => { s with lock, call := update s.call t none }
      | _, _ => none
  | .run t =>
      match s.call t with
      | some (r, k) =>
          if s.lock.pc t = .held then
            (M.body t k s.shared).map fun (k, d) =>
              { s with call := update s.call t (some (r, k)), shared := d }
          else none
      | none => none
  | .event e => (M.event e s.shared).map fun d => { s with shared := d }

def Step (M : Monitor Tid ρ κ σ ε) (s : MonitorSys Tid ρ κ σ) (a : MonitorAct Tid ρ ε)
    (s' : MonitorSys Tid ρ κ σ) : Prop := M.step s a = some s'

/-- **The rule.** `Quiet` holds of the data while nobody has the lock, `Inside` while a thread is
at a state of the code. -/
structure Rule (M : Monitor Tid ρ κ σ ε) (Quiet : σ → Prop)
    (Inside : Tid → ρ → κ → σ → Prop) : Prop where
  enter : ∀ t r d, Quiet d → Inside t r (M.start r) d
  body : ∀ t r k d k' d', Inside t r k d → M.body t k d = some (k', d') → Inside t r k' d'
  leave : ∀ t r k d, Inside t r k d → M.finished k = true → Quiet d ∧ M.served k = true
  quietEvent : ∀ e d d', Quiet d → M.event e d = some d' → Quiet d'
  insideEvent : ∀ t r k e d d', Inside t r k d → M.event e d = some d' → Inside t r k d'
  served : ∀ t r k d k' d', Inside t r k d → M.body t k d = some (k', d') →
    M.served k' = M.served k ∧ M.servedBy d' = M.servedBy d ∨
      M.served k = false ∧ M.served k' = true ∧
        M.servedBy d' = update (M.servedBy d) t (M.servedBy d t ++ [r])
  start : ∀ r, M.served (M.start r) = false
  eventServed : ∀ e d d', M.event e d = some d' → M.servedBy d' = M.servedBy d

/-- The request of a thread that has not taken effect. -/
def pending (M : Monitor Tid ρ κ σ ε) : Option (ρ × κ) → List ρ
  | none => []
  | some (r, k) => if M.served k then [] else [r]

variable [Fintype Tid]

/-- The invariant that the rule gives: `waiting`, `inside` and `releasing` are the three parts of
a request. -/
structure Inv (M : Monitor Tid ρ κ σ ε) (Quiet : σ → Prop) (Inside : Tid → ρ → κ → σ → Prop)
    (s : MonitorSys Tid ρ κ σ) : Prop where
  lock : s.lock.Inv
  idle : ∀ t, s.call t = none → s.lock.pc t = .out
  waiting : ∀ t r k, s.call t = some (r, k) → s.lock.pc t ≠ .held → s.lock.pc t ≠ .releasing →
    k = M.start r
  inside : ∀ t r k, s.call t = some (r, k) → s.lock.pc t = .held → Inside t r k s.shared
  releasing : ∀ t r k, s.call t = some (r, k) → s.lock.pc t = .releasing → M.served k = true
  quiet : (∀ t, s.lock.pc t ≠ .held) → Quiet s.shared
  order : ∀ t, s.begun t = M.servedBy s.shared t ++ M.pending (s.call t)

omit [DecidableEq Tid] in
theorem boot_inv {d : σ} (hquiet : Quiet d) (hserved : ∀ t, M.servedBy d t = []) :
    Inv M Quiet Inside (boot d) where
  lock := LockSys.init_inv
  idle _ _ := rfl
  waiting _ _ _ h := absurd h (by simp [boot])
  inside _ _ _ h := absurd h (by simp [boot])
  releasing _ _ _ h := absurd h (by simp [boot])
  quiet _ := hquiet
  order t := by
    show [] = M.servedBy d t ++ []
    rw [hserved, List.append_nil]

omit [DecidableEq Tid] in
/-- While `t` has the unit of the lock, nobody else holds it. -/
theorem Inv.alone (h : Inv M Quiet Inside s) (ht : (s.lock.pc t).owns = true) (hu : u ≠ t) :
    s.lock.pc u ≠ .held := fun hheld =>
  hu (h.lock.owner_unique (by rw [hheld]; rfl) ht)

omit [DecidableEq Tid] in
theorem Inv.quiet_of (h : Inv M Quiet Inside s) (ht : (s.lock.pc t).owns = true)
    (hnot : s.lock.pc t ≠ .held) : Quiet s.shared := by
  refine h.quiet fun u => ?_
  rcases Classical.em (u = t) with rfl | hu
  · exact hnot
  · exact h.alone ht hu

/-- A thread makes a request: it is outside of the lock, and the data are not touched. -/
theorem Inv.begin {r : ρ} (rule : Rule M Quiet Inside) (h : Inv M Quiet Inside s)
    (hcall : s.call t = none) :
    Inv M Quiet Inside { s with
      call := update s.call t (some (r, M.start r))
      begun := update s.begun t (s.begun t ++ [r]) } := by
  have hpc : s.lock.pc t = .out := h.idle t hcall
  have hself : update s.call t (some (r, M.start r)) t = some (r, M.start r) :=
    Function.update_self ..
  have hother : ∀ u, u ≠ t → update s.call t (some (r, M.start r)) u = s.call u :=
    fun u hu => Function.update_of_ne hu _ _
  refine ⟨h.lock, fun u hu => ?_, fun u r' k hu hne hne' => ?_, fun u r' k hu hheld => ?_,
    fun u r' k hu hrel => ?_, h.quiet, fun u => ?_⟩
  · by_cases hut : u = t
    · exact hut ▸ hpc
    · exact h.idle u ((hother u hut).symm.trans hu)
  · by_cases hut : u = t
    · subst hut
      obtain ⟨rfl, rfl⟩ := Prod.mk.inj (Option.some.inj (hself.symm.trans hu))
      rfl
    · exact h.waiting u r' k ((hother u hut).symm.trans hu) hne hne'
  · by_cases hut : u = t
    · subst hut
      exact absurd (hpc.symm.trans hheld) (by decide)
    · exact h.inside u r' k ((hother u hut).symm.trans hu) hheld
  · by_cases hut : u = t
    · subst hut
      exact absurd (hpc.symm.trans hrel) (by decide)
    · exact h.releasing u r' k ((hother u hut).symm.trans hu) hrel
  · show update s.begun t (s.begun t ++ [r]) u = _ ++ M.pending (update s.call t _ u)
    by_cases hut : u = t
    · subst hut
      have hold := h.order u
      rw [hcall] at hold
      rw [Function.update_self, Function.update_self, hold]
      simp [pending, rule.start]
    · rw [Function.update_of_ne hut, hother u hut]
      exact h.order u

/-- The lock is asked for, and perhaps taken. -/
theorem Inv.acquire {l : LockSys Tid} (h : Inv M Quiet Inside s)
    (hl : s.lock.step t .acquire = some l) (hcall : s.call t ≠ none) :
    Inv M Quiet Inside { s with lock := l } := by
  obtain ⟨hpc, p, hp, hl'⟩ := LockSys.step_pc hl
  have hself : l.pc t = p := by rw [hl', Function.update_self]
  have hother : ∀ u, u ≠ t → l.pc u = s.lock.pc u := fun u hu => by
    rw [hl', Function.update_of_ne hu]
  refine ⟨LockSys.step_inv h.lock hl, fun u hu => ?_, fun u r k hu hne hne' => ?_,
    fun u r k hu hheld => ?_, fun u r k hu hrel => ?_, fun hnone => h.quiet fun u hu => ?_,
    h.order⟩
  · have hut : u ≠ t := fun hut => hcall (hut ▸ hu)
    exact (hother u hut).trans (h.idle u hu)
  · by_cases hut : u = t
    · subst hut
      refine h.waiting u r k hu (fun hheld => ?_) (fun hrel => ?_)
      · rw [hheld] at hpc
        exact absurd hpc (by simp)
      · rw [hrel] at hpc
        exact absurd hpc (by simp)
    · exact h.waiting u r k hu (hother u hut ▸ hne) (hother u hut ▸ hne')
  · by_cases hut : u = t
    · subst hut
      rw [hself] at hheld
      rw [hheld] at hp
      exact absurd hp (by simp)
    · exact h.inside u r k hu ((hother u hut).symm.trans hheld)
  · by_cases hut : u = t
    · subst hut
      rw [hself] at hrel
      rw [hrel] at hp
      exact absurd hp (by simp)
    · exact h.releasing u r k hu ((hother u hut).symm.trans hrel)
  · by_cases hut : u = t
    · subst hut
      rw [hu] at hpc
      exact absurd hpc (by simp)
    · exact hnone u ((hother u hut).trans hu)

/-- The code is entered. -/
theorem Inv.setHolder {l : LockSys Tid} (rule : Rule M Quiet Inside) (h : Inv M Quiet Inside s)
    (hl : s.lock.step t .setHolder = some l) (hcall : s.call t ≠ none) :
    Inv M Quiet Inside { s with lock := l } := by
  obtain ⟨hpc, hl'⟩ := LockSys.step_pc hl
  have howns : (s.lock.pc t).owns = true := by rw [hpc]; rfl
  have hquiet : Quiet s.shared := h.quiet_of howns (by rw [hpc]; decide)
  have hself : l.pc t = .held := by rw [hl', Function.update_self]
  have hother : ∀ u, u ≠ t → l.pc u = s.lock.pc u := fun u hu => by
    rw [hl', Function.update_of_ne hu]
  refine ⟨LockSys.step_inv h.lock hl, fun u hu => ?_, fun u r k hu hne hne' => ?_,
    fun u r k hu hheld => ?_, fun u r k hu hrel => ?_, fun hnone => absurd hself (hnone t),
    h.order⟩
  · have hut : u ≠ t := fun hut => hcall (hut ▸ hu)
    exact (hother u hut).trans (h.idle u hu)
  · by_cases hut : u = t
    · exact absurd hself (hut ▸ hne)
    · exact h.waiting u r k hu (hother u hut ▸ hne) (hother u hut ▸ hne')
  · by_cases hut : u = t
    · subst hut
      obtain rfl := h.waiting u r k hu (by rw [hpc]; decide) (by rw [hpc]; decide)
      exact rule.enter u r s.shared hquiet
    · exact absurd ((hother u hut).symm.trans hheld) (h.alone howns hut)
  · by_cases hut : u = t
    · subst hut
      exact absurd (hself.symm.trans hrel) (by decide)
    · exact h.releasing u r k hu ((hother u hut).symm.trans hrel)

/-- The code is left. -/
theorem Inv.release {l : LockSys Tid} (rule : Rule M Quiet Inside) (h : Inv M Quiet Inside s)
    (hl : s.lock.step t .release = some l) {r : ρ} {k : κ} (hcall : s.call t = some (r, k))
    (hfinished : M.finished k = true) : Inv M Quiet Inside { s with lock := l } := by
  obtain ⟨hpc, hl'⟩ := LockSys.step_pc hl
  have howns : (s.lock.pc t).owns = true := by rw [hpc]; rfl
  obtain ⟨hquiet, hserved⟩ := rule.leave t r k s.shared (h.inside t r k hcall hpc) hfinished
  have hself : l.pc t = .releasing := by rw [hl', Function.update_self]
  have hother : ∀ u, u ≠ t → l.pc u = s.lock.pc u := fun u hu => by
    rw [hl', Function.update_of_ne hu]
  refine ⟨LockSys.step_inv h.lock hl, fun u hu => ?_, fun u r' k' hu hne hne' => ?_,
    fun u r' k' hu hheld => ?_, fun u r' k' hu hrel => ?_, fun _ => hquiet, h.order⟩
  · have hut : u ≠ t := fun hut => absurd (hcall.symm.trans (hut ▸ hu)) (by simp)
    exact (hother u hut).trans (h.idle u hu)
  · by_cases hut : u = t
    · exact absurd hself (hut ▸ hne')
    · exact h.waiting u r' k' hu (hother u hut ▸ hne) (hother u hut ▸ hne')
  · by_cases hut : u = t
    · subst hut
      exact absurd (hself.symm.trans hheld) (by decide)
    · exact absurd ((hother u hut).symm.trans hheld) (h.alone howns hut)
  · by_cases hut : u = t
    · subst hut
      obtain ⟨-, rfl⟩ := Prod.mk.inj (Option.some.inj (hcall.symm.trans hu))
      exact hserved
    · exact h.releasing u r' k' hu ((hother u hut).symm.trans hrel)

/-- The request returns. The thread gives the unit back, so that it owns the lock no longer
and the shared data are quiet; a thread that this wakes up was waiting, and is not inside
yet. -/
theorem Inv.up {l : LockSys Tid} (h : Inv M Quiet Inside s) (hl : s.lock.step t .up = some l)
    {r : ρ} {k : κ} (hcall : s.call t = some (r, k)) :
    Inv M Quiet Inside { s with lock := l, call := update s.call t none } := by
  obtain ⟨hpc, hself, hother⟩ := LockSys.step_pc hl
  have howns : (s.lock.pc t).owns = true := by rw [hpc]; rfl
  have hquiet : Quiet s.shared := h.quiet_of howns (by rw [hpc]; decide)
  have hserved := h.releasing t r k hcall hpc
  have hkept : ∀ u, u ≠ t → update s.call t none u = s.call u :=
    fun u hu => Function.update_of_ne hu _ _
  have hsome : ∀ u, update s.call t none u ≠ none → u ≠ t := by
    rintro u hu rfl
    exact hu (Function.update_self ..)
  -- a thread that is woken up was waiting
  have hback : ∀ u p, u ≠ t → l.pc u = p → p ≠ .woken → s.lock.pc u = p := by
    intro u p hu hp hne
    rcases hother u hu with hsame | ⟨-, hw⟩
    · exact hsame.symm.trans hp
    · exact absurd (hp.symm.trans hw) hne
  refine ⟨LockSys.step_inv h.lock hl, fun u hu => ?_, fun u r' k' hu hne hne' => ?_,
    fun u r' k' hu hheld => ?_, fun u r' k' hu hrel => ?_, fun _ => hquiet, fun u => ?_⟩
  · by_cases hut : u = t
    · exact hut ▸ hself
    · have hout := h.idle u ((hkept u hut).symm.trans hu)
      rcases hother u hut with hsame | ⟨hb, -⟩
      · exact hsame.trans hout
      · exact absurd (hb.symm.trans hout) (by decide)
  · have hut : u ≠ t := hsome u (ne_of_eq_of_ne hu (Option.some_ne_none _))
    refine h.waiting u r' k' ((hkept u hut).symm.trans hu) (fun hheld => ?_) (fun hrel => ?_)
    · exact h.alone howns hut hheld
    · rcases hother u hut with hsame | ⟨hb, -⟩
      · exact hne' (hsame.trans hrel)
      · exact absurd (hb.symm.trans hrel) (by decide)
  · have hut : u ≠ t := hsome u (ne_of_eq_of_ne hu (Option.some_ne_none _))
    exact absurd (hback u _ hut hheld (by decide)) (h.alone howns hut)
  · have hut : u ≠ t := hsome u (ne_of_eq_of_ne hu (Option.some_ne_none _))
    exact h.releasing u r' k' ((hkept u hut).symm.trans hu) (hback u _ hut hrel (by decide))
  · show s.begun u = M.servedBy s.shared u ++ M.pending (update s.call t none u)
    by_cases hut : u = t
    · subst hut
      have hold := h.order u
      rw [hcall] at hold
      rw [Function.update_self, hold]
      simp [pending, hserved]
    · rw [hkept u hut]
      exact h.order u

/-- A step of the code. The thread is inside alone, so that what is said of the data concerns
it only. -/
theorem Inv.run (rule : Rule M Quiet Inside) (h : Inv M Quiet Inside s) {r : ρ} {k k' : κ} {d : σ}
    (hcall : s.call t = some (r, k)) (hpc : s.lock.pc t = .held)
    (hbody : M.body t k s.shared = some (k', d)) :
    Inv M Quiet Inside { s with call := update s.call t (some (r, k')), shared := d } := by
  have hin := h.inside t r k hcall hpc
  have howns : (s.lock.pc t).owns = true := by rw [hpc]; rfl
  have hself : update s.call t (some (r, k')) t = some (r, k') := Function.update_self ..
  have hother : ∀ u, u ≠ t → update s.call t (some (r, k')) u = s.call u :=
    fun u hu => Function.update_of_ne hu _ _
  refine ⟨h.lock, fun u hu => ?_, fun u r' k'' hu hne hne' => ?_, fun u r' k'' hu hheld => ?_,
    fun u r' k'' hu hrel => ?_, fun hnone => absurd hpc (hnone t), fun u => ?_⟩
  · have hut : u ≠ t := by
      rintro rfl
      exact absurd (hself.symm.trans hu) (by simp)
    exact h.idle u ((hother u hut).symm.trans hu)
  · by_cases hut : u = t
    · exact absurd hpc (hut ▸ hne)
    · exact h.waiting u r' k'' ((hother u hut).symm.trans hu) hne hne'
  · by_cases hut : u = t
    · subst hut
      obtain ⟨rfl, rfl⟩ := Prod.mk.inj (Option.some.inj (hself.symm.trans hu))
      exact rule.body u _ k s.shared _ d hin hbody
    · exact absurd hheld (h.alone howns hut)
  · by_cases hut : u = t
    · subst hut
      exact absurd (hpc.symm.trans hrel) (by decide)
    · exact h.releasing u r' k'' ((hother u hut).symm.trans hu) hrel
  · show s.begun u = M.servedBy d u ++ M.pending (update s.call t (some (r, k')) u)
    have hold := h.order u
    rcases rule.served t r k s.shared k' d hin hbody with ⟨hk, hd⟩ | ⟨hk, hk', hd⟩
    · rw [hd, hold]
      by_cases hut : u = t
      · subst hut
        rw [Function.update_self, hcall]
        simp only [pending, hk]
      · rw [hother u hut]
    · rw [hd, hold]
      by_cases hut : u = t
      · subst hut
        rw [Function.update_self, Function.update_self, hcall]
        simp [pending, hk, hk']
      · rw [Function.update_of_ne hut, hother u hut]

theorem Inv.event (rule : Rule M Quiet Inside) (h : Inv M Quiet Inside s) {e : ε} {d : σ}
    (he : M.event e s.shared = some d) : Inv M Quiet Inside { s with shared := d } where
  lock := h.lock
  idle := h.idle
  waiting := h.waiting
  inside t r k hcall hpc := rule.insideEvent t r k e s.shared d (h.inside t r k hcall hpc) he
  releasing := h.releasing
  quiet hnone := rule.quietEvent e s.shared d (h.quiet hnone) he
  order t := by
    show s.begun t = M.servedBy d t ++ _
    rw [rule.eventServed e s.shared d he]
    exact h.order t

/-- **Every step** keeps the invariant: a step of the lock, one of the code inside, or one of
the environment. -/
theorem Rule.step (rule : Rule M Quiet Inside) {a : MonitorAct Tid ρ ε}
    (h : Inv M Quiet Inside s) (hstep : Step M s a s') : Inv M Quiet Inside s' := by
  unfold Step Monitor.step at hstep
  cases a with
  | begin t r =>
      simp only at hstep
      split at hstep
      · rename_i hnone
        obtain rfl := Option.some.inj hstep
        exact h.begin rule (Option.isNone_iff_eq_none.mp hnone)
      · exact absurd hstep (by simp)
  | lock t a =>
      simp only at hstep
      split at hstep
      · rename_i hcall
        obtain ⟨l, hl, rfl⟩ := Option.map_eq_some_iff.mp hstep
        exact h.acquire hl (by rw [hcall]; exact Option.some_ne_none _)
      · rename_i hcall
        obtain ⟨l, hl, rfl⟩ := Option.map_eq_some_iff.mp hstep
        exact h.setHolder rule hl (by rw [hcall]; exact Option.some_ne_none _)
      · rename_i r k hcall
        split at hstep
        · rename_i hfinished
          obtain ⟨l, hl, rfl⟩ := Option.map_eq_some_iff.mp hstep
          exact h.release rule hl hcall hfinished
        · exact absurd hstep (by simp)
      · rename_i r hcall
        obtain ⟨l, hl, rfl⟩ := Option.map_eq_some_iff.mp hstep
        exact h.up hl hcall
      · exact absurd hstep (by simp)
  | run t =>
      simp only at hstep
      split at hstep
      · rename_i r k hcall
        split at hstep
        · rename_i hpc
          obtain ⟨⟨k', d⟩, hbody, rfl⟩ := Option.map_eq_some_iff.mp hstep
          exact h.run rule hcall hpc hbody
        · exact absurd hstep (by simp)
      · exact absurd hstep (by simp)
  | event e =>
      obtain ⟨d, he, rfl⟩ := Option.map_eq_some_iff.mp hstep
      exact h.event rule he

/-! ### Progress -/

/-- Inside, the code can take a step, or it waits for an event that can happen. -/
def Live (M : Monitor Tid ρ κ σ ε) (Inside : Tid → ρ → κ → σ → Prop) : Prop :=
  ∀ t r k d, Inside t r k d →
    M.finished k = true ∨ (M.body t k d).isSome ∨ ∃ e, (M.event e d).isSome

/-- The owner of the lock is not stuck. -/
theorem Inv.owner_progress (hlive : Live M Inside) (h : Inv M Quiet Inside s)
    (howns : (s.lock.pc t).owns = true) :
    ∃ a : MonitorAct Tid ρ ε, a.continues = true ∧ (M.step s a).isSome := by
  obtain ⟨⟨r, k⟩, hcall⟩ : ∃ rk, s.call t = some rk := by
    refine Option.ne_none_iff_exists'.mp fun hnone => ?_
    rw [h.idle t hnone] at howns
    exact absurd howns (by decide)
  cases hpc : s.lock.pc t with
  | taken =>
      refine ⟨.lock t .setHolder, rfl, ?_⟩
      simp only [Monitor.step, hcall, Option.isSome_map]
      exact LockSys.step_isSome h.lock hpc
  | held =>
      rcases hlive t r k s.shared (h.inside t r k hcall hpc) with hfin | hbody | ⟨e, he⟩
      · refine ⟨.lock t .release, rfl, ?_⟩
        simp only [Monitor.step, hcall, hfin, if_true, Option.isSome_map]
        exact LockSys.step_isSome h.lock hpc
      · refine ⟨.run t, rfl, ?_⟩
        simp only [Monitor.step, hcall, hpc, if_true, Option.isSome_map]
        exact hbody
      · refine ⟨.event e, rfl, ?_⟩
        simp only [Monitor.step, Option.isSome_map]
        exact he
  | releasing =>
      refine ⟨.lock t .up, rfl, ?_⟩
      simp only [Monitor.step, hcall, Option.isSome_map]
      exact LockSys.step_isSome h.lock hpc
  | _ =>
      rw [hpc] at howns
      exact absurd howns (by decide)

/-- **No deadlock.** While there is a request, some thread or event can go on. -/
theorem Inv.progress (hlive : Live M Inside) (h : Inv M Quiet Inside s) (hcall : s.call t ≠ none) :
    ∃ a : MonitorAct Tid ρ ε, a.continues = true ∧ (M.step s a).isSome := by
  have hacquire : ∀ u, s.call u ≠ none → s.lock.pc u = .out ∨ s.lock.pc u = .woken →
      ∃ a : MonitorAct Tid ρ ε, a.continues = true ∧ (M.step s a).isSome := by
    intro u hu hpc
    obtain ⟨rk, hrk⟩ := Option.ne_none_iff_exists'.mp hu
    refine ⟨.lock u .acquire, rfl, ?_⟩
    simp only [Monitor.step, hrk, Option.isSome_map]
    exact LockSys.step_isSome h.lock hpc
  by_cases howner : ∃ u, (s.lock.pc u).owns = true
  · obtain ⟨u, hu⟩ := howner
    exact h.owner_progress hlive hu
  · have hnone : ∀ u, (s.lock.pc u).owns = false := fun u =>
      Bool.of_not_eq_true fun hu => howner ⟨u, hu⟩
    -- the unit is there; a thread that waits for it has been woken up, or its queue is empty
    have hunit := h.lock.unit
    rw [count_eq_zero hnone] at hunit
    cases hpc : s.lock.pc t with
    | out => exact hacquire t hcall (.inl hpc)
    | woken => exact hacquire t hcall (.inr hpc)
    | blocked =>
        have hqueue : s.lock.sema.waiters ≠ [] := by
          have hmem := (h.lock.queue.mem_waiters t).mpr (by rw [hpc]; rfl)
          exact List.ne_nil_of_mem hmem
        have hwoken := h.lock.queue.wake.resolve_left hqueue
        obtain ⟨u, hu⟩ := exists_of_count_pos (p := LockPc.isWoken) (f := s.lock.pc) (by omega)
        have hupc : s.lock.pc u = .woken := by
          revert hu
          cases s.lock.pc u <;> simp [LockPc.isWoken]
        refine hacquire u (fun hidle => ?_) (.inr hupc)
        exact absurd ((h.idle u hidle).symm.trans hupc) (by decide)
    | taken => exact absurd (hnone t) (by rw [hpc]; decide)
    | held => exact absurd (hnone t) (by rw [hpc]; decide)
    | releasing => exact absurd (hnone t) (by rw [hpc]; decide)

end Monitor

end OsTools.Threads

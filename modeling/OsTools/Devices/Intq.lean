import OsTools.Lib.Except
import OsTools.Lib.Ring
import OsTools.Threads.Lock
/-!
# OsTools.Devices.Intq

The interrupt queue of `devices/intq.c`: `intq_getc` and `intq_putc`, shared by
kernel threads and interrupt handlers.

All of it runs with interrupts off, so a thread can lose the processor only
where it blocks: on `q->lock`, or in `wait`. The model runs a thread from one
such point to the next as one step, and an interrupt handler, which never
blocks, as one step of its own. `intq_getc` and `intq_putc` are the same loop
on opposite conditions, written once as `intqCall`.

Every `ASSERT` on the way is an explicit `Assertion` error. The ghost fields
`inserted` and `removed` record the bytes that went through the queue.

## Proof shape

The state has the queue and the lock of `OsTools.Threads.Lock`, and the invariant ties them
together: a thread is named in `not_full` or `not_empty` exactly if it has gone to sleep
there, and it holds the lock while it does. So at most one thread sleeps in `wait`, and the
assertions of `wait` and `signal` come down to one question, whether the condition can have
changed between the test of the loop and the sleep.

It can in one place: a thread that blocked on the lock tests the condition before it blocks
and sleeps after it got the lock. `Steady` is the condition that the queue is still as it
was then, and `resume_spec` and `resume_error` say what happens with it and without it.
Every other step is unconditional. The equivalence for runs is the exact-condition rule of
`OsTools.Lib.Run` with these.

The bytes are the invariant of the ring buffer: what was inserted is what was removed
followed by the contents.
-/

namespace OsTools.Devices

open Function (update)
open OsTools.Threads

/-- Queue buffer size, in bytes. -/
def INTQ_BUFSIZE : Nat := 64

/-- The two conditions a thread can wait for: the members `not_full` and
`not_empty` of the queue. -/
inductive Cond
  | notFull
  | notEmpty
  deriving DecidableEq

/-- A call of `intq_getc` or `intq_putc`. -/
inductive IntqOp
  | getc
  | putc (byte : UInt8)
  deriving DecidableEq

namespace IntqOp

/-- The condition the call needs, and whose member it waits on. -/
def needs : IntqOp → Cond
  | .getc => .notEmpty
  | .putc _ => .notFull

/-- The condition the call makes true, and whose waiter it signals. -/
def grants : IntqOp → Cond
  | .getc => .notFull
  | .putc _ => .notEmpty

end IntqOp

/-- Where a thread stands with respect to the queue. -/
inductive IntqPc
  /-- Outside `intq_getc` and `intq_putc`. -/
  | out
  /-- In `lock_acquire (&q->lock)`: blocked, or unblocked and not run yet. -/
  | acquiring (op : IntqOp)
  /-- Blocked in `wait`, recorded in the queue's member. -/
  | waiting (op : IntqOp)
  /-- Unblocked by `signal`, not run yet. -/
  | signalled (op : IntqOp)
  deriving DecidableEq

/-- The assertions that intq.c reaches. -/
inductive Assertion
  /-- `ASSERT (!intr_context ())` in the loops. -/
  | intrContext
  /-- The assertion of `wait` on the queue's state. -/
  | wait
  /-- The assertion of `signal` on the queue's state. -/
  | signal
  /-- `thread_unblock`: the thread is blocked. -/
  | unblock
  /-- Those of `lock_acquire`. -/
  | lockAcquire
  /-- Those of `lock_release`. -/
  | lockRelease
  deriving DecidableEq

/-- The members of `struct intq` that are the queue itself, and the ghost logs. -/
structure IntqBuffer where
  buf : Nat → UInt8
  head : Nat
  tail : Nat
  inserted : List UInt8
  removed : List UInt8

namespace IntqBuffer

/-- The position after `pos` within the buffer. -/
def next (pos : Nat) : Nat := (pos + 1) % INTQ_BUFSIZE

/-- `intq_empty`. -/
def empty (b : IntqBuffer) : Bool := b.head = b.tail

/-- `intq_full`. -/
def full (b : IntqBuffer) : Bool := next b.head = b.tail

/-- The condition holds: not full, or not empty. -/
def met (b : IntqBuffer) : Cond → Bool
  | .notFull => !b.full
  | .notEmpty => !b.empty

/-- The buffer access after the loop: the byte it moves and the new buffer. -/
def access (b : IntqBuffer) : IntqOp → UInt8 × IntqBuffer
  | .getc =>
      (b.buf b.tail,
        { b with tail := next b.tail, removed := b.removed ++ [b.buf b.tail] })
  | .putc byte =>
      (byte,
        { b with
          buf := update b.buf b.head byte
          head := next b.head
          inserted := b.inserted ++ [byte] })

/-- The bytes in the queue, the oldest first. -/
def contents (b : IntqBuffer) : List UInt8 := Ring.contents INTQ_BUFSIZE b.buf b.head b.tail

end IntqBuffer

/-- `struct intq` and the threads that use it. The lock's own model tells which
threads hold it or are queued on it. -/
structure Intq (Tid : Type*) extends IntqBuffer where
  lock : LockSys Tid
  /-- The members `not_full` and `not_empty`. -/
  waiter : Cond → Option Tid
  pc : Tid → IntqPc

namespace Intq

variable {Tid : Type*}

/-- `intq_init`. The buffer's contents are whatever the memory held. -/
def init (buf : Nat → UInt8) : Intq Tid where
  buf := buf
  head := 0
  tail := 0
  inserted := []
  removed := []
  lock := LockSys.init
  waiter := fun _ => none
  pc := fun _ => .out

variable [DecidableEq Tid]

/-- `wait`, up to the `thread_block` in it. -/
def wait (q : Intq Tid) (t : Tid) (op : IntqOp) : Except Assertion (Intq Tid) :=
  if q.met op.needs then .error .wait
  else .ok { q with
    waiter := update q.waiter op.needs (some t)
    pc := update q.pc t (.waiting op) }

/-- `signal`. -/
def signal (q : Intq Tid) (c : Cond) : Except Assertion (Intq Tid) :=
  if q.met c then
    match q.waiter c with
    | none => .ok q
    | some x =>
        match q.pc x with
        | .waiting op => .ok { q with
            waiter := update q.waiter c none
            pc := update q.pc x (.signalled op) }
        | _ => .error .unblock
  else .error .signal

/-- `lock_acquire (&q->lock)` and `wait`, up to where the thread blocks. -/
def acquire (q : Intq Tid) (t : Tid) (op : IntqOp) : Except Assertion (Intq Tid) :=
  match q.lock.step t .acquire with
  | none => .error .lockAcquire
  | some lock =>
      if lock.pc t = .taken then
        match lock.step t .setHolder with
        | none => .error .lockAcquire
        | some lock => wait { q with lock } t op
      else .ok { q with lock, pc := update q.pc t (.acquiring op) }

/-- `lock_release (&q->lock)` after `wait` returns. -/
def release (q : Intq Tid) (t : Tid) : Except Assertion (Intq Tid) :=
  match q.lock.step t .release with
  | none => .error .lockRelease
  | some lock =>
      match lock.step t .up with
      | none => .error .lockRelease
      | some lock => .ok { q with lock, pc := update q.pc t .out }

/-- `intq_getc` or `intq_putc` from the test of its loop on, by a thread or
(`none`) by an interrupt handler, up to where it returns or blocks. The byte is
there if it returns. -/
def intqCall (q : Intq Tid) (ctx : Option Tid) (op : IntqOp) :
    Except Assertion (Intq Tid × Option UInt8) :=
  if q.met op.needs then
    let (byte, b) := q.access op
    (signal { q with toIntqBuffer := b } op.grants).map fun q => (q, some byte)
  else
    match ctx with
    | none => .error .intrContext
    | some t => (q.acquire t op).map fun q => (q, none)

/-- `intq_getc`. -/
def intqGetc (q : Intq Tid) (ctx : Option Tid) : Except Assertion (Intq Tid × Option UInt8) :=
  q.intqCall ctx .getc

/-- `intq_putc`. -/
def intqPutc (q : Intq Tid) (ctx : Option Tid) (byte : UInt8) :
    Except Assertion (Intq Tid × Option UInt8) :=
  q.intqCall ctx (.putc byte)

/-- The thread has been unblocked and can run on inside the queue's code. -/
def runnable (q : Intq Tid) (t : Tid) : Bool :=
  match q.pc t with
  | .acquiring _ => q.lock.pc t = .woken
  | .signalled _ => true
  | _ => false

/-- An unblocked thread runs on: from inside `lock_acquire`, or from the end
of `wait` back to the test of its loop. -/
def resume (q : Intq Tid) (t : Tid) : Except Assertion (Intq Tid × Option UInt8) :=
  match q.pc t with
  | .acquiring op => (q.acquire t op).map fun q => (q, none)
  | .signalled op => (q.release t).bind fun q => q.intqCall (some t) op
  | _ => .ok (q, none)

end Intq

/-- The steps of the system: a thread calls, an unblocked thread runs on, an
interrupt handler calls. -/
inductive IntqAct (Tid : Type*)
  | call (t : Tid) (op : IntqOp)
  | resume (t : Tid)
  | handler (op : IntqOp)
  deriving DecidableEq

namespace Intq

variable {Tid : Type*} [DecidableEq Tid]

/-- One step. A step is missing (`none`) where the thread is not at that point
of its code and where a handler may not call; a failed assertion is an error. -/
def step (q : Intq Tid) : IntqAct Tid → Option (Except Assertion (Intq Tid))
  | .call t op =>
      if q.pc t = .out then some ((q.intqCall (some t) op).map Prod.fst) else none
  | .resume t => if q.runnable t then some ((q.resume t).map Prod.fst) else none
  | .handler op =>
      -- "must not be empty" / "must not be full"
      if q.met op.needs then some ((q.intqCall none op).map Prod.fst) else none

/-- A failed assertion stops the system. -/
def advance (s : Except Assertion (Intq Tid)) (a : IntqAct Tid) :
    Option (Except Assertion (Intq Tid)) :=
  match s with
  | .ok q => q.step a
  | .error _ => none

/-- The steps of the system as a relation. -/
def Step (s : Except Assertion (Intq Tid)) (a : IntqAct Tid)
    (s' : Except Assertion (Intq Tid)) : Prop :=
  advance s a = some s'

end Intq

/-! ### The invariant -/

/-- The indices are positions, and what was inserted is what was removed
followed by the contents. -/
structure IntqBuffer.Inv (b : IntqBuffer) : Prop where
  head_lt : b.head < INTQ_BUFSIZE
  tail_lt : b.tail < INTQ_BUFSIZE
  log : b.inserted = b.removed ++ b.contents

/-- The call a thread is in. -/
def IntqPc.op : IntqPc → Option IntqOp
  | .out => none
  | .acquiring op | .waiting op | .signalled op => some op

/-- The positions of a thread in the queue's code and in the lock's agree. -/
def IntqPc.agrees : IntqPc → LockPc → Bool
  | .out, .out => true
  | .acquiring _, .blocked => true
  | .acquiring _, .woken => true
  | .waiting _, .held => true
  | .signalled _, .held => true
  | _, _ => false

namespace IntqBuffer

variable {b : IntqBuffer}

theorem Inv.contents_length_le (hinv : b.Inv) : b.contents.length ≤ INTQ_BUFSIZE - 1 := by
  rw [contents, Ring.length_contents]
  exact Ring.count_le hinv.head_lt hinv.tail_lt

theorem empty_iff (hinv : b.Inv) : b.empty = true ↔ b.contents = [] := by
  rw [← List.length_eq_zero_iff, contents, Ring.length_contents, Ring.count_eq_zero hinv.tail_lt]
  exact decide_eq_true_iff

/-- `intq_getc` removes the oldest byte and returns it. -/
theorem contents_getc (hinv : b.Inv) (hmet : b.met .notEmpty = true) :
    b.contents = (b.access .getc).1 :: (b.access .getc).2.contents := by
  have hne : b.head ≠ b.tail := by
    simpa [met, empty] using hmet
  exact Ring.contents_pop hinv.head_lt hinv.tail_lt hne b.buf

/-- `intq_putc` appends its byte. -/
theorem contents_putc (hinv : b.Inv) {byte : UInt8} (hmet : b.met .notFull = true) :
    (b.access (.putc byte)).2.contents = b.contents ++ [byte] := by
  have hne : next b.head ≠ b.tail := by
    simpa [met, full] using hmet
  exact Ring.contents_push hinv.head_lt hinv.tail_lt hne b.buf byte

/-- The access keeps the logs right. -/
theorem access_inv (hinv : b.Inv) {op : IntqOp} (hmet : b.met op.needs = true) :
    (b.access op).2.Inv := by
  cases op with
  | getc =>
      refine ⟨hinv.head_lt, Ring.next_lt hinv.tail_lt, ?_⟩
      have hlog := hinv.log
      rw [contents_getc hinv hmet] at hlog
      show b.inserted = (b.removed ++ [b.buf b.tail]) ++ (b.access .getc).2.contents
      rw [hlog, List.append_assoc]
      rfl
  | putc byte =>
      refine ⟨Ring.next_lt hinv.head_lt, hinv.tail_lt, ?_⟩
      rw [contents_putc hinv hmet, ← List.append_assoc]
      show b.inserted ++ [byte] = b.removed ++ b.contents ++ [byte]
      rw [hinv.log]

/-- The access makes the other condition true. -/
theorem access_grants (hinv : b.Inv) {op : IntqOp} (hmet : b.met op.needs = true) :
    (b.access op).2.met op.grants = true := by
  have hinv' := access_inv hinv hmet
  cases op with
  | getc =>
      have hlen := congrArg List.length (contents_getc hinv hmet)
      have hle := hinv.contents_length_le
      rw [List.length_cons] at hlen
      have hne : Ring.count INTQ_BUFSIZE b.head (next b.tail) ≠ INTQ_BUFSIZE - 1 := by
        rw [← Ring.length_contents INTQ_BUFSIZE b.buf]
        show (b.access .getc).2.contents.length ≠ _
        omega
      have hfull : next b.head ≠ next b.tail := fun h =>
        hne ((Ring.count_eq_full hinv.head_lt hinv'.tail_lt).mpr h)
      show (!decide (next b.head = next b.tail)) = true
      simp [hfull]
  | putc byte =>
      have hempty : (b.access (.putc byte)).2.empty ≠ true := by
        rw [Ne, empty_iff hinv', contents_putc hinv hmet]
        simp
      show (!(b.access (.putc byte)).2.empty) = true
      simpa using hempty

end IntqBuffer

namespace Intq

variable {Tid : Type*} [Fintype Tid]

/-- The invariant of the queue: a thread waits only while it holds the lock, the
members name exactly the waiting threads. -/
structure Inv (q : Intq Tid) : Prop where
  buffer : q.toIntqBuffer.Inv
  lock : q.lock.Inv
  agrees : ∀ t, (q.pc t).agrees (q.lock.pc t) = true
  waiter : ∀ c t, q.waiter c = some t ↔ ∃ op, q.pc t = .waiting op ∧ op.needs = c

theorem init_inv (buf : Nat → UInt8) : Inv (init buf : Intq Tid) where
  buffer := ⟨Nat.zero_lt_succ 63, Nat.zero_lt_succ 63, by
    show [] = [] ++ Ring.contents INTQ_BUFSIZE buf 0 0
    rw [Ring.contents_empty]
    rfl⟩
  lock := LockSys.init_inv
  agrees := fun _ => rfl
  waiter := fun c t => by simp [init]

namespace Inv

variable {q : Intq Tid}

/-- A thread at `wait` or just past it holds the lock. -/
theorem held_of_waiting (hinv : Inv q) {t : Tid} {op : IntqOp} (h : q.pc t = .waiting op) :
    q.lock.pc t = .held := by
  have hagrees := hinv.agrees t
  rw [h] at hagrees
  revert hagrees
  cases q.lock.pc t <;> simp [IntqPc.agrees]

theorem held_of_signalled (hinv : Inv q) {t : Tid} {op : IntqOp} (h : q.pc t = .signalled op) :
    q.lock.pc t = .held := by
  have hagrees := hinv.agrees t
  rw [h] at hagrees
  revert hagrees
  cases q.lock.pc t <;> simp [IntqPc.agrees]

theorem lock_out (hinv : Inv q) {t : Tid} (h : q.pc t = .out) : q.lock.pc t = .out := by
  have hagrees := hinv.agrees t
  rw [h] at hagrees
  revert hagrees
  cases q.lock.pc t <;> simp [IntqPc.agrees]

theorem acquiring_of_blocked (hinv : Inv q) {t : Tid} (h : q.lock.pc t = .blocked) :
    ∃ op, q.pc t = .acquiring op := by
  have hagrees := hinv.agrees t
  rw [h] at hagrees
  revert hagrees
  cases q.pc t <;> simp [IntqPc.agrees]

end Inv

/-! ### The lock with interrupts off -/

variable [DecidableEq Tid]

/-- A pass of `lock_acquire`'s `sema_down`: the thread blocks or has the unit. -/
theorem lock_acquire_spec {l : LockSys Tid} (hinv : l.Inv) {t : Tid}
    (hat : l.pc t = .out ∨ l.pc t = .woken) :
    ∃ l', l.step t .acquire = some l' ∧ l'.Inv ∧
      (l.sema.value = 0 ∧ l'.pc = update l.pc t .blocked ∨
        l.sema.value ≠ 0 ∧ l'.pc = update l.pc t .taken) := by
  obtain ⟨l', hl⟩ := Option.isSome_iff_exists.mp (LockSys.step_isSome (a := .acquire) hinv hat)
  refine ⟨l', hl, LockSys.step_inv hinv hl, ?_⟩
  obtain ⟨-, -, hz, rfl⟩ | ⟨v, -, -, hv, rfl⟩ | ⟨ha, -⟩ | ⟨ha, -⟩ | ⟨ha, -⟩ | ⟨ha, -⟩ |
    ⟨_, _, ha, -⟩ := LockSys.step_cases hl
  · exact Or.inl ⟨hz, rfl⟩
  · refine Or.inr ⟨fun hz => ?_, rfl⟩
    rw [hz] at hv
    exact absurd hv (Nat.succ_ne_zero _)
  all_goals cases ha

/-- The rest of `lock_acquire`. -/
theorem lock_setHolder_spec {l : LockSys Tid} (hinv : l.Inv) {t : Tid} (hat : l.pc t = .taken) :
    ∃ l', l.step t .setHolder = some l' ∧ l'.Inv ∧ l'.pc = update l.pc t .held := by
  have hl : l.step t .setHolder = some { l with holder := some t, pc := update l.pc t .held } := by
    simp [LockSys.step, hat]
  exact ⟨_, hl, LockSys.step_inv hinv hl, rfl⟩

/-- `lock_release`: the thread is out, and at most the first waiter is woken. -/
theorem lock_release_spec {l : LockSys Tid} (hinv : l.Inv) {t : Tid} (hat : l.pc t = .held) :
    ∃ l₁ l₂, l.step t .release = some l₁ ∧ l₁.step t .up = some l₂ ∧ l₂.Inv ∧
      l₂.pc t = .out ∧
      ∀ u, u ≠ t → l₂.pc u = l.pc u ∨ l.pc u = .blocked ∧ l₂.pc u = .woken := by
  have hl : l.step t .release =
      some { l with holder := none, pc := update l.pc t .releasing } := by
    simp [LockSys.step, hat, (hinv.holder t).mpr hat]
  have hinv₁ := LockSys.step_inv hinv hl
  obtain ⟨l₂, hup⟩ := Option.isSome_iff_exists.mp
    (LockSys.step_isSome (t := t) (a := .up) hinv₁ (Function.update_self t _ l.pc))
  refine ⟨_, l₂, hl, hup, LockSys.step_inv hinv₁ hup, ?_⟩
  obtain ⟨ha, -⟩ | ⟨_, ha, -⟩ | ⟨ha, -⟩ | ⟨ha, -⟩ | ⟨ha, -⟩ | ⟨-, -, -, rfl⟩ |
    ⟨x, rest, -, hpc, -, hx, rfl⟩ := LockSys.step_cases hup
  · cases ha
  · rcases ha with ha | ha <;> cases ha
  · cases ha
  · cases ha
  · cases ha
  · refine ⟨Function.update_self t _ _, fun u hu => Or.inl ?_⟩
    show update (update l.pc t .releasing) t .out u = l.pc u
    rw [Function.update_of_ne hu, Function.update_of_ne hu]
  · have hxt : x ≠ t := fun h => by
      rw [h] at hx
      exact absurd (hx.symm.trans hpc) (by decide)
    refine ⟨?_, fun u hu => ?_⟩
    · show update (update (update l.pc t .releasing) t .out) x .woken t = .out
      rw [Function.update_of_ne hxt.symm, Function.update_self]
    · show update (update (update l.pc t .releasing) t .out) x .woken u = l.pc u ∨ _ ∧
        update (update (update l.pc t .releasing) t .out) x .woken u = .woken
      by_cases hux : u = x
      · subst hux
        have hblocked : update l.pc t .releasing u = .blocked := hx
        rw [Function.update_of_ne hu] at hblocked
        exact Or.inr ⟨hblocked, Function.update_self u _ _⟩
      · left
        rw [Function.update_of_ne hux, Function.update_of_ne hu, Function.update_of_ne hu]

/-! ### One specification for each function -/

/-- A change of the position and of the lock of `t` alone, where `t` is not
waiting before or after. -/
theorem Inv.move {q : Intq Tid} (hinv : Inv q) {t : Tid} {p : IntqPc} {lock : LockSys Tid}
    (hlock : lock.Inv) (hold : ∀ op, q.pc t ≠ .waiting op) (hnew : ∀ op, p ≠ .waiting op)
    (hagrees : p.agrees (lock.pc t) = true)
    (hother : ∀ u, u ≠ t →
      lock.pc u = q.lock.pc u ∨ q.lock.pc u = .blocked ∧ lock.pc u = .woken) :
    Inv { q with lock, pc := update q.pc t p } where
  buffer := hinv.buffer
  lock := hlock
  agrees := fun u => by
    show (update q.pc t p u).agrees (lock.pc u) = true
    by_cases hu : u = t
    · rw [hu, Function.update_self]
      exact hagrees
    · rw [Function.update_of_ne hu]
      rcases hother u hu with h | ⟨hblocked, hwoken⟩
      · rw [h]
        exact hinv.agrees u
      · obtain ⟨op, hop⟩ := hinv.acquiring_of_blocked hblocked
        rw [hwoken, hop]
        rfl
  waiter := fun c u => by
    show q.waiter c = some u ↔ ∃ op, update q.pc t p u = .waiting op ∧ op.needs = c
    rw [hinv.waiter]
    by_cases hu : u = t
    · rw [hu, Function.update_self]
      exact ⟨fun ⟨op, h, _⟩ => absurd h (hold op), fun ⟨op, h, _⟩ => absurd h (hnew op)⟩
    · rw [Function.update_of_ne hu]

/-- `wait`, called by a thread that holds the lock: the assertion is the only
thing that can go wrong. -/
theorem wait_inv {q : Intq Tid} (hinv : Inv q) {t : Tid} {op : IntqOp} {lock : LockSys Tid}
    (hlock : lock.Inv) (hpc : lock.pc = update q.lock.pc t .held)
    (hfree : (q.lock.pc t).owns = false) :
    Inv { q with
      lock
      waiter := update q.waiter op.needs (some t)
      pc := update q.pc t (.waiting op) } where
  buffer := hinv.buffer
  lock := hlock
  agrees := fun u => by
    show (update q.pc t (.waiting op) u).agrees (lock.pc u) = true
    rw [hpc]
    by_cases hu : u = t
    · rw [hu, Function.update_self, Function.update_self]
      rfl
    · rw [Function.update_of_ne hu, Function.update_of_ne hu]
      exact hinv.agrees u
  waiter := fun c u => by
    show update q.waiter op.needs (some t) c = some u ↔
      ∃ op', update q.pc t (.waiting op) u = .waiting op' ∧ op'.needs = c
    have hheld : lock.pc t = .held := by rw [hpc, Function.update_self]
    -- `t` holds the lock, so no other thread is waiting
    have hnone : u ≠ t → ∀ op', q.pc u ≠ .waiting op' := fun hu op' h => by
      have huheld : lock.pc u = .held := by
        rw [hpc, Function.update_of_ne hu]
        exact hinv.held_of_waiting h
      exact hu (hlock.owner_unique (by rw [huheld]; rfl) (by rw [hheld]; rfl))
    have hself : ∀ op', q.pc t ≠ .waiting op' := fun op' h => by
      rw [hinv.held_of_waiting h] at hfree
      exact absurd hfree (by decide)
    by_cases hu : u = t
    · rw [hu, Function.update_self]
      by_cases hc : c = op.needs
      · rw [hc, Function.update_self]
        exact ⟨fun _ => ⟨op, rfl, rfl⟩, fun _ => rfl⟩
      · rw [Function.update_of_ne hc, hinv.waiter]
        constructor
        · intro ⟨op', h, _⟩
          exact absurd h (hself op')
        · intro ⟨op', h, hneeds⟩
          cases h
          exact absurd hneeds.symm hc
    · rw [Function.update_of_ne hu]
      constructor
      · intro h
        by_cases hc : c = op.needs
        · rw [hc, Function.update_self] at h
          exact absurd (Option.some.inj h).symm hu
        · rw [Function.update_of_ne hc] at h
          exact (hinv.waiter c u).mp h
      · intro ⟨op', h, _⟩
        exact absurd h (hnone hu op')

/-- The part of a step on the queue that other threads see: which call they are
in does not change. -/
def Keeps (q q' : Intq Tid) (t : Tid) : Prop := ∀ u, u ≠ t → (q'.pc u).op = (q.pc u).op

/-- Going to sleep: on the lock when it is taken, else in `wait`, whose assertion
needs the condition to be false. -/
theorem acquire_spec {q : Intq Tid} (hinv : Inv q) {t : Tid} {op : IntqOp}
    (hat : q.lock.pc t = .out ∨ q.lock.pc t = .woken)
    (hmet : q.lock.sema.value ≠ 0 → q.met op.needs = false) :
    ∃ q', q.acquire t op = .ok q' ∧ Inv q' ∧ q'.toIntqBuffer = q.toIntqBuffer ∧
      (q'.pc t).op = some op ∧ Keeps q q' t := by
  have hold : ∀ op', q.pc t ≠ .waiting op' := fun op' h => by
    rw [hinv.held_of_waiting h] at hat
    rcases hat with hat | hat <;> cases hat
  have hfree : (q.lock.pc t).owns = false := by
    rcases hat with hat | hat <;> rw [hat] <;> rfl
  obtain ⟨l, hl, hlinv, ⟨-, hpc⟩ | ⟨hvalue, hpc⟩⟩ := lock_acquire_spec hinv.lock hat
  · have hblocked : l.pc t = .blocked := by rw [hpc, Function.update_self]
    refine ⟨{ q with lock := l, pc := update q.pc t (.acquiring op) }, ?_, ?_, rfl, ?_, ?_⟩
    · unfold acquire
      rw [hl]
      dsimp only
      rw [hblocked, if_neg (by decide)]
    · refine hinv.move hlinv hold (fun _ => by simp) (by rw [hblocked]; rfl) fun u hu => ?_
      rw [hpc, Function.update_of_ne hu]
      exact Or.inl rfl
    · show (update q.pc t (.acquiring op) t).op = some op
      rw [Function.update_self]
      rfl
    · intro u hu
      show (update q.pc t (.acquiring op) u).op = (q.pc u).op
      rw [Function.update_of_ne hu]
  · have htaken : l.pc t = .taken := by rw [hpc, Function.update_self]
    obtain ⟨l', hl', hlinv', hpc'⟩ := lock_setHolder_spec hlinv htaken
    have hheld : l'.pc = update q.lock.pc t .held := by rw [hpc', hpc, Function.update_idem]
    refine ⟨{ q with
      lock := l'
      waiter := update q.waiter op.needs (some t)
      pc := update q.pc t (.waiting op) }, ?_, wait_inv hinv hlinv' hheld hfree, rfl, ?_, ?_⟩
    · unfold acquire
      rw [hl]
      dsimp only
      rw [if_pos htaken, hl']
      dsimp only
      unfold wait
      rw [if_neg (by simp [hmet hvalue])]
    · show (update q.pc t (.waiting op) t).op = some op
      rw [Function.update_self]
      rfl
    · intro u hu
      show (update q.pc t (.waiting op) u).op = (q.pc u).op
      rw [Function.update_of_ne hu]

/-- The assertion of `wait` fails when the lock is obtained in a queue whose
condition holds. -/
theorem acquire_error {q : Intq Tid} (hinv : Inv q) {t : Tid} {op : IntqOp}
    (hat : q.lock.pc t = .out ∨ q.lock.pc t = .woken) (hvalue : q.lock.sema.value ≠ 0)
    (hmet : q.met op.needs = true) : q.acquire t op = .error .wait := by
  obtain ⟨l, hl, hlinv, ⟨hz, -⟩ | ⟨-, hpc⟩⟩ := lock_acquire_spec hinv.lock hat
  · exact absurd hz hvalue
  · have htaken : l.pc t = .taken := by rw [hpc, Function.update_self]
    obtain ⟨l', hl', -, -⟩ := lock_setHolder_spec hlinv htaken
    unfold acquire
    rw [hl]
    dsimp only
    rw [if_pos htaken, hl']
    dsimp only
    unfold wait
    rw [if_pos hmet]

/-- `lock_release` after `wait`. -/
theorem release_spec {q : Intq Tid} (hinv : Inv q) {t : Tid} {op : IntqOp}
    (hpc : q.pc t = .signalled op) :
    ∃ q', q.release t = .ok q' ∧ Inv q' ∧ q'.toIntqBuffer = q.toIntqBuffer ∧
      q'.pc t = .out ∧ Keeps q q' t := by
  obtain ⟨l₁, l₂, hl₁, hl₂, hlinv, hout, hother⟩ :=
    lock_release_spec hinv.lock (hinv.held_of_signalled hpc)
  refine ⟨{ q with lock := l₂, pc := update q.pc t .out }, ?_, ?_, rfl, ?_, ?_⟩
  · unfold release
    rw [hl₁]
    dsimp only
    rw [hl₂]
  · exact hinv.move hlinv (fun _ => by simp [hpc]) (fun _ => by simp) (by rw [hout]; rfl) hother
  · exact Function.update_self t _ _
  · intro u hu
    show (update q.pc t .out u).op = (q.pc u).op
    rw [Function.update_of_ne hu]

/-- `signal` unblocks a thread that is waiting, and changes nothing else. The member of the
queue names that thread, and the assertion about interrupts holds; where the member is null
there is nothing to do. -/
theorem signal_spec {q : Intq Tid} (hinv : Inv q) {c : Cond} (hmet : q.met c = true) :
    ∃ q', q.signal c = .ok q' ∧ Inv q' ∧ q'.toIntqBuffer = q.toIntqBuffer ∧
      ∀ u, (q'.pc u).op = (q.pc u).op := by
  unfold signal
  rw [if_pos hmet]
  cases hw : q.waiter c with
  | none => exact ⟨q, rfl, hinv, rfl, fun _ => rfl⟩
  | some x =>
      obtain ⟨op, hx, hneeds⟩ := (hinv.waiter c x).mp hw
      dsimp only
      rw [hx]
      refine ⟨_, rfl, ⟨hinv.buffer, hinv.lock, ?_, ?_⟩, rfl, ?_⟩
      · intro u
        show (update q.pc x (.signalled op) u).agrees (q.lock.pc u) = true
        by_cases hu : u = x
        · rw [hu, Function.update_self, hinv.held_of_waiting hx]
          rfl
        · rw [Function.update_of_ne hu]
          exact hinv.agrees u
      · intro c' u
        show update q.waiter c none c' = some u ↔
          ∃ op', update q.pc x (.signalled op) u = .waiting op' ∧ op'.needs = c'
        by_cases hu : u = x
        · rw [hu, Function.update_self]
          constructor
          · intro h
            by_cases hc : c' = c
            · rw [hc, Function.update_self] at h
              cases h
            · rw [Function.update_of_ne hc] at h
              -- a thread waits for one condition only
              obtain ⟨op', hx', hneeds'⟩ := (hinv.waiter c' x).mp h
              rw [hx] at hx'
              cases hx'
              exact absurd (hneeds'.symm.trans hneeds) hc
          · intro ⟨op', h, _⟩
            cases h
        · rw [Function.update_of_ne hu, ← hinv.waiter]
          by_cases hc : c' = c
          · rw [hc, Function.update_self, hw]
            constructor
            · intro h
              cases h
            · intro h
              exact absurd (Option.some.inj h).symm hu
          · rw [Function.update_of_ne hc]
      · intro u
        show (update q.pc x (.signalled op) u).op = (q.pc u).op
        by_cases hu : u = x
        · rw [hu, Function.update_self, hx]
          rfl
        · rw [Function.update_of_ne hu]

/-- A call whose condition holds moves its byte and returns. -/
theorem intqCall_returns {q : Intq Tid} (hinv : Inv q) (ctx : Option Tid) {op : IntqOp}
    (hmet : q.met op.needs = true) :
    ∃ q', q.intqCall ctx op = .ok (q', some (q.access op).1) ∧ Inv q' ∧
      q'.toIntqBuffer = (q.access op).2 ∧ ∀ u, (q'.pc u).op = (q.pc u).op := by
  have hinv' : Inv { q with toIntqBuffer := (q.access op).2 } :=
    ⟨IntqBuffer.access_inv hinv.buffer hmet, hinv.lock, hinv.agrees, hinv.waiter⟩
  obtain ⟨q', hsignal, hq', hbuffer, hops⟩ :=
    signal_spec hinv' (c := op.grants) (IntqBuffer.access_grants hinv.buffer hmet)
  refine ⟨q', ?_, hq', hbuffer, hops⟩
  unfold intqCall
  rw [if_pos hmet]
  dsimp only
  rw [hsignal]
  rfl

/-- A call whose condition does not hold goes to sleep: the assertion of `wait`
sees the state that was just tested, unless the lock is taken. -/
theorem intqCall_sleeps {q : Intq Tid} (hinv : Inv q) {t : Tid} {op : IntqOp}
    (hpc : q.pc t = .out) (hmet : q.met op.needs = false) :
    ∃ q', q.intqCall (some t) op = .ok (q', none) ∧ Inv q' ∧
      q'.toIntqBuffer = q.toIntqBuffer ∧ (q'.pc t).op = some op ∧ Keeps q q' t := by
  obtain ⟨q', hacquire, hq', hbuffer, hop, hkeeps⟩ :=
    acquire_spec hinv (Or.inl (hinv.lock_out hpc)) (fun _ => hmet)
  refine ⟨q', ?_, hq', hbuffer, hop, hkeeps⟩
  unfold intqCall
  rw [if_neg (by simp [hmet])]
  dsimp only
  rw [hacquire]
  rfl

/-- What a call by a thread, or what is left of one, comes to: it returns with
the byte it moved, or sleeps on a queue it left alone. -/
def Comes (q q' : Intq Tid) (t : Tid) (op : IntqOp) (r : Option UInt8) : Prop :=
  (q.met op.needs = true ∧ r = some (q.access op).1 ∧
    q'.toIntqBuffer = (q.access op).2 ∧ q'.pc t = .out) ∨
  (r = none ∧ q'.toIntqBuffer = q.toIntqBuffer ∧ (q'.pc t).op = some op)

/-- A thread that is out has no call. -/
theorem pc_eq_out {p : IntqPc} (h : p.op = none) : p = .out := by
  cases p <;> simp_all [IntqPc.op]

/-- A call by a thread outside the queue's code fails no assertion. -/
theorem intqCall_spec {q : Intq Tid} (hinv : Inv q) {t : Tid} (op : IntqOp)
    (hpc : q.pc t = .out) :
    ∃ q' r, q.intqCall (some t) op = .ok (q', r) ∧ Inv q' ∧ Comes q q' t op r ∧ Keeps q q' t := by
  cases hmet : q.met op.needs with
  | true =>
      obtain ⟨q', hcall, hq', hbuffer, hops⟩ := intqCall_returns hinv (some t) hmet
      have hout : q'.pc t = .out := pc_eq_out ((hops t).trans (by rw [hpc]; rfl))
      exact ⟨q', _, hcall, hq', Or.inl ⟨hmet, rfl, hbuffer, hout⟩, fun u _ => hops u⟩
  | false =>
      obtain ⟨q', hcall, hq', hbuffer, hop, hkeeps⟩ := intqCall_sleeps hinv hpc hmet
      exact ⟨q', _, hcall, hq', Or.inr ⟨rfl, hbuffer, hop⟩, hkeeps⟩

/-- When the lock is free for `t`, which blocked on it, the queue's state is
still the one `t` tested. -/
def Unchanged (q : Intq Tid) (t : Tid) : Prop :=
  ∀ op, q.pc t = .acquiring op → q.lock.sema.value ≠ 0 → q.met op.needs = false

omit [Fintype Tid] [DecidableEq Tid] in
theorem woken_of_runnable {q : Intq Tid} {t : Tid} {op : IntqOp} (hrun : q.runnable t = true)
    (hpc : q.pc t = .acquiring op) : q.lock.pc t = .woken := by
  unfold runnable at hrun
  rw [hpc] at hrun
  exact of_decide_eq_true hrun

/-- A thread that runs on fails no assertion if the queue is unchanged. -/
theorem resume_spec {q : Intq Tid} (hinv : Inv q) {t : Tid} (hrun : q.runnable t = true)
    (hsame : q.Unchanged t) :
    ∃ q' r op, q.resume t = .ok (q', r) ∧ Inv q' ∧ (q.pc t).op = some op ∧
      Comes q q' t op r ∧ Keeps q q' t := by
  unfold resume
  cases hpc : q.pc t with
  | out => simp [runnable, hpc] at hrun
  | waiting op => simp [runnable, hpc] at hrun
  | acquiring op =>
      obtain ⟨q', hacquire, hq', hbuffer, hop, hkeeps⟩ :=
        acquire_spec hinv (Or.inr (woken_of_runnable hrun hpc)) (hsame op hpc)
      dsimp only
      rw [hacquire]
      exact ⟨q', none, op, rfl, hq', rfl, Or.inr ⟨rfl, hbuffer, hop⟩, hkeeps⟩
  | signalled op =>
      obtain ⟨q₁, hrelease, hq₁, hbuffer, hout, hkeeps⟩ := release_spec hinv hpc
      obtain ⟨q', r, hcall, hq', hcomes, hkeeps'⟩ := intqCall_spec hq₁ op hout
      dsimp only
      rw [hrelease]
      refine ⟨q', r, op, hcall, hq', rfl, ?_, fun u hu => (hkeeps' u hu).trans (hkeeps u hu)⟩
      unfold Comes at hcomes ⊢
      rw [hbuffer] at hcomes
      exact hcomes

/-- Otherwise the assertion of `wait` fails. -/
theorem resume_error {q : Intq Tid} (hinv : Inv q) {t : Tid} (hrun : q.runnable t = true)
    (hsame : ¬ q.Unchanged t) : q.resume t = .error .wait := by
  unfold Unchanged at hsame
  push Not at hsame
  obtain ⟨op, hpc, hvalue, hmet⟩ := hsame
  have hwoken : q.lock.pc t = .woken := woken_of_runnable hrun hpc
  unfold resume
  rw [hpc]
  dsimp only
  rw [acquire_error hinv (Or.inr hwoken) hvalue (by simpa using hmet)]
  rfl

/-- The effect on the queue of a call, or of the rest of one, that failed no
assertion: a byte moved, or the queue was left alone; and no thread came into
the queue's code but in this call. -/
structure Moves (q q' : Intq Tid) (op : IntqOp) (r : Option UInt8) : Prop where
  buffer : (q.met op.needs = true ∧ r = some (q.access op).1 ∧
      q'.toIntqBuffer = (q.access op).2) ∨ (r = none ∧ q'.toIntqBuffer = q.toIntqBuffer)
  ops : ∀ u op', (q'.pc u).op = some op' → (q.pc u).op = some op' ∨ op' = op

omit [Fintype Tid] [DecidableEq Tid] in
/-- A call by a thread moves a byte or sleeps. -/
theorem Comes.moves {q q' : Intq Tid} {t : Tid} {op : IntqOp} {r : Option UInt8}
    (hcomes : Comes q q' t op r) (hkeeps : Keeps q q' t) : Moves q q' op r := by
  obtain ⟨hmet, hr, hbuffer, hout⟩ | ⟨hr, hbuffer, hop⟩ := hcomes
  · refine ⟨Or.inl ⟨hmet, hr, hbuffer⟩, fun u op' hu => ?_⟩
    by_cases hut : u = t
    · rw [hut, hout] at hu
      cases hu
    · exact Or.inl ((hkeeps u hut).symm.trans hu)
  · refine ⟨Or.inr ⟨hr, hbuffer⟩, fun u op' hu => ?_⟩
    by_cases hut : u = t
    · rw [hut, hop] at hu
      exact Or.inr (Option.some.inj hu).symm
    · exact Or.inl ((hkeeps u hut).symm.trans hu)

/-- A call that fails no assertion, by a thread or by a handler. -/
theorem intqCall_ok {q q' : Intq Tid} (hinv : Inv q) {ctx : Option Tid} {op : IntqOp}
    {r : Option UInt8} (hctx : ∀ t, ctx = some t → q.pc t = .out)
    (h : q.intqCall ctx op = .ok (q', r)) : Inv q' ∧ Moves q q' op r := by
  cases ctx with
  | some t =>
      obtain ⟨q₁, r₁, hcall, hq₁, hcomes, hkeeps⟩ := intqCall_spec hinv op (hctx t rfl)
      cases hcall.symm.trans h
      exact ⟨hq₁, hcomes.moves hkeeps⟩
  | none =>
      cases hmet : q.met op.needs with
      | true =>
          obtain ⟨q₁, hcall, hq₁, hbuffer, hops⟩ := intqCall_returns hinv none hmet
          cases hcall.symm.trans h
          exact ⟨hq₁, Or.inl ⟨hmet, rfl, hbuffer⟩, fun u op' hu => Or.inl ((hops u).symm.trans hu)⟩
      | false =>
          unfold intqCall at h
          rw [if_neg (by simp [hmet])] at h
          cases h

/-- The rest of a call that fails no assertion. -/
theorem resume_ok {q q' : Intq Tid} (hinv : Inv q) {t : Tid} {r : Option UInt8}
    (hrun : q.runnable t = true) (h : q.resume t = .ok (q', r)) :
    Inv q' ∧ ∃ op, (q.pc t).op = some op ∧ Moves q q' op r := by
  by_cases hsame : q.Unchanged t
  · obtain ⟨q₁, r₁, op, hresume, hq₁, hop, hcomes, hkeeps⟩ := resume_spec hinv hrun hsame
    cases hresume.symm.trans h
    exact ⟨hq₁, op, hop, hcomes.moves hkeeps⟩
  · cases (resume_error hinv hrun hsame).symm.trans h

/-! ### Runs -/

/-- What a state must satisfy: no assertion failed, the bytes removed and those
still there are the bytes inserted in their order, and one position is unused. -/
def Sound (s : Except Assertion (Intq Tid)) : Prop :=
  ∃ q, s = .ok q ∧ q.inserted = q.removed ++ q.contents ∧
    q.contents.length ≤ INTQ_BUFSIZE - 1

/-- The condition on a step: a thread that obtains the lock it blocked on finds
the queue still empty (`intq_getc`) or full (`intq_putc`). -/
def Steady (s : Except Assertion (Intq Tid)) : IntqAct Tid → Prop
  | .resume t => ∀ q, s = .ok q → q.Unchanged t
  | _ => True

/-- The states the invariant speaks about. -/
def Holds (s : Except Assertion (Intq Tid)) : Prop := ∀ q, s = .ok q → Inv q

omit [DecidableEq Tid] in
theorem Inv.sound {q : Intq Tid} (hinv : Inv q) : Sound (.ok q) :=
  ⟨q, rfl, hinv.buffer.log, hinv.buffer.contents_length_le⟩

/-- A steady step fails no assertion and keeps the invariant. -/
theorem step_spec {q : Intq Tid} (hinv : Inv q) {a : IntqAct Tid}
    {s' : Except Assertion (Intq Tid)} (hstep : q.step a = some s') (hok : Steady (.ok q) a) :
    ∃ q', s' = .ok q' ∧ Inv q' := by
  cases a with
  | call t op =>
      simp only [step] at hstep
      split at hstep
      · rename_i hpc
        obtain ⟨q', r, hcall, hq', -, -⟩ := intqCall_spec hinv op hpc
        rw [hcall] at hstep
        exact ⟨q', (Option.some.inj hstep).symm, hq'⟩
      · cases hstep
  | resume t =>
      simp only [step] at hstep
      split at hstep
      · rename_i hrun
        obtain ⟨q', r, op, hresume, hq', -⟩ := resume_spec hinv hrun (hok q rfl)
        rw [hresume] at hstep
        exact ⟨q', (Option.some.inj hstep).symm, hq'⟩
      · cases hstep
  | handler op =>
      simp only [step] at hstep
      split at hstep
      · rename_i hmet
        obtain ⟨q', hcall, hq', -, -⟩ := intqCall_returns hinv none hmet
        rw [hcall] at hstep
        exact ⟨q', (Option.some.inj hstep).symm, hq'⟩
      · cases hstep

/-- A step that is not steady fails the assertion of `wait`. -/
theorem step_error {q : Intq Tid} (hinv : Inv q) {a : IntqAct Tid}
    {s' : Except Assertion (Intq Tid)} (hstep : q.step a = some s') (hbad : ¬ Steady (.ok q) a) :
    s' = .error .wait := by
  cases a with
  | call t op => exact absurd trivial hbad
  | handler op => exact absurd trivial hbad
  | resume t =>
      simp only [step] at hstep
      split at hstep
      · rename_i hrun
        have hsame : ¬ q.Unchanged t := by
          intro h
          refine hbad fun q' hq => ?_
          cases hq
          exact h
        rw [resume_error hinv hrun hsame] at hstep
        exact (Option.some.inj hstep).symm
      · cases hstep

/-- **The interrupt queue, exactly.** In every run of any number of threads and
of interrupt handlers on a queue, all states are sound if and only if all steps
are steady; and whatever the run, a state reached without a failed assertion is
sound. -/
theorem intq_run_sound_iff (buf : Nat → UInt8)
    {ts : List (Transition (Except Assertion (Intq Tid)) (IntqAct Tid))}
    (hrun : Run Step (.ok (init buf)) ts) :
    ((∀ τ ∈ ts, Sound τ.post) ↔ ∀ τ ∈ ts, Steady τ.pre τ.label) ∧
    ∀ τ ∈ ts, ∀ q, τ.post = .ok q → Sound τ.post := by
  have hinit : Holds (.ok (init buf : Intq Tid)) := fun q hq => by
    cases hq
    exact init_inv buf
  have hkeep : ∀ (s : Except Assertion (Intq Tid)) a s',
      Holds s → Steady s a → Step s a s' → Holds s' := by
    intro s a s' hs hok hstep
    cases s with
    | error e => cases hstep
    | ok q =>
        obtain ⟨q', rfl, hq'⟩ := step_spec (hs q rfl) hstep hok
        intro q₁ hq₁
        cases hq₁
        exact hq'
  constructor
  · refine hrun.forall_iff (I := Holds) (P := fun τ => Sound τ.post) ?_ hkeep hinit
    intro s a s' hs hstep
    cases s with
    | error e => cases hstep
    | ok q =>
        constructor
        · intro ⟨q', hq', _⟩
          by_contra hbad
          have herror := step_error (hs q rfl) hstep hbad
          cases hq'.symm.trans herror
        · intro hok
          obtain ⟨q', rfl, hq'⟩ := step_spec (hs q rfl) hstep hok
          exact hq'.sound
  · intro τ hτ q hq
    -- an error has no next step, so a step that is not steady ends the run in one
    have hall := hrun.invariant (I := Holds) (fun s a s' hs hstep => by
      by_cases hok : Steady s a
      · exact hkeep s a s' hs hok hstep
      · cases s with
        | error e => cases hstep
        | ok q =>
            rw [step_error (hs q rfl) hstep hok]
            intro q' hq'
            cases hq') hinit τ hτ
    rw [hq]
    exact (hall.2 q hq).sound

/-- Two threads call `intq_getc` on an empty queue, and two bytes arrive before
either runs again: the second finds a byte when it obtains the lock. -/
def twoReaders : List (IntqAct Bool) :=
  [.call true .getc, .call false .getc, .handler (.putc 1), .handler (.putc 2),
    .resume true, .resume false]

theorem intq_run_sound_iff_twoReaders :
    ((∀ τ ∈ Run.trace advance (.ok (init fun _ => 0)) twoReaders, Sound τ.post) ↔
      ∀ τ ∈ Run.trace advance (.ok (init fun _ => 0)) twoReaders, Steady τ.pre τ.label) ∧
    ∀ τ ∈ Run.trace advance (.ok (init fun _ => 0)) twoReaders, ∀ q, τ.post = .ok q →
      Sound τ.post :=
  intq_run_sound_iff (fun _ => 0) (Run.of_trace advance (.ok (init fun _ => 0)) twoReaders)

/-- The state is a failed assertion of `wait`. -/
def failsWait : Except Assertion (Intq Tid) → Bool
  | .error e => e = .wait
  | .ok _ => false

/-- The assertion of `wait` fails in that run. -/
theorem twoReaders_fails :
    ¬ ∀ ts : List (Transition (Except Assertion (Intq Bool)) (IntqAct Bool)),
      Run Step (.ok (init fun _ => 0)) ts → ∀ τ ∈ ts, Sound τ.post := by
  intro h
  have hrun := Run.of_trace advance (.ok (init fun _ => 0)) twoReaders
  have hfail : ((Run.trace advance (.ok (init fun _ => 0)) twoReaders).any
      fun τ => failsWait τ.post) = true := by decide
  obtain ⟨τ, hτ, hpost⟩ := List.any_eq_true.mp hfail
  obtain ⟨q, hq, -⟩ := h _ hrun τ hτ
  rw [hq] at hpost
  cases hpost

end Intq

end OsTools.Devices

import Mathlib.Logic.Function.Basic
import Mathlib.Logic.Relation
import OsTools.Threads.Palloc
/-!
# OsTools.Threads.PallocSteps

The page allocator with any number of threads at once. A thread can be interrupted before
each bit that `bitmap_scan_and_flip`, `bitmap_all` and `bitmap_set_multiple` test or set; one
bit is tested or set atomically. Pages are taken under the lock of the pool, and given back
without it.

A thread that runs into an assertion is stopped. `PAL_ASSERT`, `PAL_ZERO` and the contents of
pages are left out. Each thread remembers the map that it found when it got the lock, which
nothing reads.

The program counters are those points between two accesses to the shared map at which a
thread can be interrupted. What it does between them is in `advance`, one access a step.
-/

namespace OsTools.Threads

open Kernel Vm

namespace Palloc

/-- Where a thread is. Which pool it is about is `user`. -/
inductive Pc
  /-- Outside of the allocator. -/
  | idle
  /-- At `lock_acquire`. -/
  | acquire (user : Bool) (cnt : Nat)
  /-- In `bitmap_scan`, before the test of the bit `k` of the group at `i`. -/
  | scan (user : Bool) (cnt i k : Nat)
  /-- In `bitmap_set_multiple`, before the bit `k` of it is set. -/
  | mark (user : Bool) (cnt i k : Nat)
  /-- At `lock_release`, with what `bitmap_scan_and_flip` returned. -/
  | release (user : Bool) (cnt : Nat) (idx : Option Nat)
  /-- Before `palloc_get_multiple` returns a null pointer. -/
  | null (user : Bool) (cnt : Nat)
  /-- In `bitmap_all`, before the test of the bit `k`. -/
  | check (user : Bool) (cnt i k : Nat)
  /-- In `bitmap_set_multiple`, before the bit `k` is cleared. -/
  | clear (user : Bool) (cnt i k : Nat)
  /-- At an assertion that failed. -/
  | stopped
  deriving DecidableEq

/-- The pools with their locks, and the threads with the addresses of the pages that they
own. -/
structure State (ι : Type) where
  pool : Bool → Pool
  lock : Bool → Option ι
  pc : ι → Pc
  owned : ι → Nat → Prop
  atLock : ι → Nat → Bool

section Model

variable {ι : Type} [DecidableEq ι]

namespace State

def map (s : State ι) (user : Bool) : Bitmap := (s.pool user).usedMap

def goto (s : State ι) (t : ι) (pc : Pc) : State ι := { s with pc := Function.update s.pc t pc }

def setMap (s : State ι) (user : Bool) (usedMap : Bitmap) : State ι :=
  { s with pool := Function.update s.pool user { s.pool user with usedMap } }

/-- `pool->base + PGSIZE * page_idx`. -/
def page (s : State ι) (user : Bool) (idx : Nat) : Nat := (s.pool user).base + PGSIZE * idx

end State

/-- Where `bitmap_scan` goes on behind the test of a bit. -/
def scanNext (bitCnt : Nat) (user : Bool) (cnt i k : Nat) (used : Bool) : Pc :=
  if used then
    if i + 1 ≤ bitCnt - cnt then .scan user cnt (i + 1) 0 else .release user cnt none
  else if k + 1 < cnt then .scan user cnt i (k + 1)
  else .mark user cnt i 0

/-- The assertions of `bitmap_contains` and `bitmap_set_multiple`, ahead of their loops. -/
def enter (b : Bitmap) (i cnt k : Nat) : Except Stop Unit :=
  if k = 0 ∧ ¬ b.inRange i cnt then .error .assertion else .ok ()

/-- What the thread `t` does next within the allocator. -/
def advance (s : State ι) (t : ι) : Except Stop (State ι) :=
  match s.pc t with
  | .scan user cnt i k => do
      enter (s.map user) i cnt k
      let used ← (s.map user).test (i + k)
      .ok (s.goto t (scanNext (s.map user).bitCnt user cnt i k used))
  | .mark user cnt i k => do
      enter (s.map user) i cnt k
      let b ← (s.map user).set (i + k) true
      .ok ((s.setMap user b).goto t
        (if k + 1 < cnt then .mark user cnt i (k + 1) else .release user cnt (some i)))
  | .release user cnt (some idx) =>
      .ok { s.goto t .idle with
        lock := Function.update s.lock user none
        owned := Function.update s.owned t fun page =>
          s.owned t page ∨ ∃ k < cnt, page = s.page user (idx + k) }
  | .release user cnt none =>
      .ok { s.goto t (.null user cnt) with lock := Function.update s.lock user none }
  | .null _ _ => .ok (s.goto t .idle)
  | .check user cnt i k => do
      enter (s.map user) i cnt k
      let used ← (s.map user).test (i + k)
      if used then
        .ok (s.goto t (if k + 1 < cnt then .check user cnt i (k + 1) else .clear user cnt i 0))
      else .error .assertion
  | .clear user cnt i k => do
      enter (s.map user) i cnt k
      let b ← (s.map user).set (i + k) false
      .ok ((s.setMap user b).goto t (if k + 1 < cnt then .clear user cnt i (k + 1) else .idle))
  | _ => .ok s

/-- The pool that a page is from. -/
def poolOf (s : State ι) (page : Nat) : Except Stop Bool :=
  if (s.pool false).pageFromPool page then .ok false
  else if (s.pool true).pageFromPool page then .ok true
  else .error .panic

/-- `palloc_free_multiple`, up to `bitmap_all`. The pages are not the thread's any more. -/
def freeCall (s : State ι) (t : ι) (pages cnt : Nat) : Except Stop (State ι) :=
  if pgOfs pages ≠ 0 then .error .assertion
  else if pages = 0 ∨ cnt = 0 then .ok s
  else do
    let user ← poolOf s pages
    let idx := pgNo pages - pgNo (s.pool user).base
    .ok { s.goto t (.check user cnt idx 0) with
      owned := Function.update s.owned t fun page =>
        s.owned t page ∧ ∀ k < cnt, page ≠ pages + PGSIZE * k }

/-- What a thread may free: whole pages, each of them its own. A null pointer can be freed. -/
def Frees (s : State ι) (t : ι) (pages cnt : Nat) : Prop :=
  pgOfs pages = 0 ∧ (pages = 0 ∨ ∀ k < cnt, s.owned t (pages + PGSIZE * k))

/-- The steps of the thread `t`. -/
inductive Step (s : State ι) (t : ι) : State ι → Prop
  | get (user : Bool) (cnt : Nat) (hpc : s.pc t = .idle) :
      Step s t (s.goto t (if cnt = 0 then .null user cnt else .acquire user cnt))
  | acquire {user : Bool} {cnt : Nat} (hpc : s.pc t = .acquire user cnt)
      (hlock : s.lock user = none) :
      Step s t { s.goto t (if cnt ≤ (s.map user).bitCnt then .scan user cnt 0 0
          else .release user cnt none) with
        lock := Function.update s.lock user (some t)
        atLock := Function.update s.atLock t (s.map user).bit }
  | free {pages cnt : Nat} {s' : State ι} (hpc : s.pc t = .idle) (hfrees : Frees s t pages cnt)
      (hcall : freeCall s t pages cnt = .ok s') : Step s t s'
  | freeStop {pages cnt : Nat} {e : Stop} (hpc : s.pc t = .idle) (hfrees : Frees s t pages cnt)
      (hcall : freeCall s t pages cnt = .error e) : Step s t (s.goto t .stopped)
  | advance {s' : State ι} (hnext : advance s t = .ok s') : Step s t s'
  | stop {e : Stop} (hnext : advance s t = .error e) : Step s t (s.goto t .stopped)

/-- Where a thread gets within the allocator. -/
def next (s : State ι) (t : ι) : State ι :=
  match advance s t with
  | .ok s' => s'
  | .error _ => s.goto t .stopped

theorem step_next (s : State ι) (t : ι) : Step s t (next s t) := by
  unfold next
  split
  · exact .advance ‹_›
  · exact .stop ‹_›

/-- Where a thread gets that gives pages back. -/
def freed (s : State ι) (t : ι) (pages cnt : Nat) : State ι :=
  match freeCall s t pages cnt with
  | .ok s' => s'
  | .error _ => s.goto t .stopped

theorem step_freed {s : State ι} {t : ι} {pages cnt : Nat} (hpc : s.pc t = .idle)
    (hfrees : Frees s t pages cnt) : Step s t (freed s t pages cnt) := by
  unfold freed
  split
  · exact .free hpc hfrees ‹_›
  · exact .freeStop hpc hfrees ‹_›

/-- Behind `palloc_init`. -/
def start (ι : Type) (r : Ram) : State ι where
  pool user := if user then r.userPool else r.kernelPool
  lock _ := none
  pc _ := .idle
  owned _ _ := False
  atLock _ _ := false

/-- The states that are reached in some order of steps. -/
def Reachable (r : Ram) (s : State ι) : Prop :=
  Relation.ReflTransGen (fun s s' => ∃ t, Step s t s') (start ι r) s

theorem Reachable.next {r : Ram} {s : State ι} (h : Reachable r s) (t : ι) (n : Nat) :
    Reachable r ((fun s => Palloc.next s t)^[n] s) := by
  induction n generalizing s with
  | zero => exact h
  | succ n ih => exact ih (.tail h ⟨t, step_next s t⟩)

end Model

end Palloc

end OsTools.Threads

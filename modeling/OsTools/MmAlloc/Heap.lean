import Mathlib.Algebra.Group.Int.Defs
import OsTools.Lib.Bytes
import OsTools.Lib.Run
/-!
# OsTools.MmAlloc.Heap

The allocator of `mm_alloc/mm_alloc.c` on a 64-bit machine.

Block headers and user bytes live in one byte memory, as in the source: a
`Block *` is an address, its fields are little-endian numbers at their offsets,
and `size_t` arithmetic is modulo `2 ^ 64`. The heap region is what `sbrk` has
handed out, from `lo` up to the break. An access outside it has no result
(`Stuck.segv`), and a walk along `next` that visits more blocks than the region
has addresses is a walk around a cycle (`Stuck.loop`).

`sbrk` may fail at any call; where it succeeds it returns the old break. A
program is a sequence of `Call`s, with the caller writing any byte of its live
allocations in between.

Everything that can go wrong in an allocator with its headers among the user's bytes can go
wrong here too: a program may ask for memory when `end` is stale, and then a header is
written into somebody's payload. The results say under which conditions this does not
happen, and each of them has a run for the other case.
-/

namespace OsTools.MmAlloc

/-- Why a call does not return. -/
inductive Stuck
  | segv
  | loop
  deriving DecidableEq

def NULL : Nat := 0

/-- `sizeof(Block)`, which is also `offsetof(Block, ptr)`. -/
def sizeofBlock : Nat := 32

/-- `(Block *) -1`. -/
def sbrkFailed : Nat := 2 ^ 64 - 1

def add64 (a b : Nat) : Nat := (a + b) % 2 ^ 64

def sub64 (a b : Nat) : Nat := (a + (2 ^ 64 - b)) % 2 ^ 64

/-- `&b->ptr`. -/
def payload (b : Nat) : Nat := add64 b sizeofBlock

/-- The globals of `mm_alloc.c` (`end_` is `end`) and the memory. -/
structure Heap where
  mem : Mem
  lo : Nat
  brk : Nat
  first : Bool
  base : Nat
  end_ : Nat

namespace Heap

/-! ### Memory accesses -/

/-- All `n` bytes from `a` on belong to the region. -/
def accessible (h : Heap) (a n : Nat) : Prop := n = 0 ∨ h.lo ≤ a ∧ a + n ≤ h.brk

instance (h : Heap) (a n : Nat) : Decidable (h.accessible a n) :=
  inferInstanceAs (Decidable (_ ∨ _))

def read (h : Heap) (a n : Nat) : Except Stuck Nat :=
  if h.accessible a n then .ok (h.mem.load a n) else .error .segv

def write (h : Heap) (a n v : Nat) : Except Stuck Heap :=
  if h.accessible a n then .ok { h with mem := h.mem.store a n v } else .error .segv

/-- `memset (a, 0, n)`. -/
def memset (h : Heap) (a n : Nat) : Except Stuck Heap :=
  if h.accessible a n then .ok { h with mem := h.mem.fill a n 0 } else .error .segv

/-- `memcpy (a, buffer, n)` from a buffer outside the heap. -/
def memcpy (h : Heap) (a n : Nat) (buffer : Nat → UInt8) : Except Stuck Heap :=
  if h.accessible a n then .ok { h with mem := h.mem.blit a n buffer } else .error .segv

/-- `memcpy (buffer, a, n)`. -/
def readBytes (h : Heap) (a n : Nat) : Except Stuck (Nat → UInt8) :=
  if h.accessible a n then .ok fun i => h.mem (a + i) else .error .segv

def getSize (h : Heap) (b : Nat) : Except Stuck Nat := h.read b 8
def getFree (h : Heap) (b : Nat) : Except Stuck Nat := h.read (b + 8) 4
def getNext (h : Heap) (b : Nat) : Except Stuck Nat := h.read (b + 16) 8
def getPrev (h : Heap) (b : Nat) : Except Stuck Nat := h.read (b + 24) 8
def setSize (h : Heap) (b v : Nat) : Except Stuck Heap := h.write b 8 v
def setFree (h : Heap) (b v : Nat) : Except Stuck Heap := h.write (b + 8) 4 v
def setNext (h : Heap) (b v : Nat) : Except Stuck Heap := h.write (b + 16) 8 v
def setPrev (h : Heap) (b v : Nat) : Except Stuck Heap := h.write (b + 24) 8 v

/-- `if (q != NULL) q->prev = v;` -/
def setPrevIf (h : Heap) (q v : Nat) : Except Stuck Heap :=
  if q = NULL then .ok h else h.setPrev q v

/-- `sbrk ((intptr_t) n)`; `ok` is the system's decision. -/
def sbrk (h : Heap) (n : Nat) (ok : Bool) : Option (Nat × Heap) :=
  let increment : Int := if n < 2 ^ 63 then n else n - 2 ^ 64
  let brk : Int := h.brk + increment
  if ok ∧ 0 ≤ brk ∧ brk < 2 ^ 64 then some (h.brk, { h with brk := brk.toNat }) else none

/-! ### `mm_malloc` -/

/-- The first call: the region's first block. -/
def startHeap (h : Heap) (size : Nat) (ok : Bool) : Except Stuck (Nat × Heap) :=
  let h := { h with first := false }
  match h.sbrk (add64 size sizeofBlock) ok with
  | none => .ok (NULL, { h with base := sbrkFailed })
  | some (base, h) => do
      let h := { h with base }
      let h ← h.setFree base 0
      let h ← h.setPrev base NULL
      let h ← h.setNext base NULL
      let h ← h.setSize base size
      let h := { h with end_ := base }
      let h ← h.memset (payload base) (← h.getSize base)
      .ok (payload base, h)

/-- The `while` loop: the first free block that is large enough. -/
def firstFit (h : Heap) (size : Nat) : Nat → Nat → Except Stuck (Option Nat)
  | 0, _ => .error .loop
  | fuel + 1, b =>
      if b = NULL then .ok none
      else do
        if (← h.getFree b) = 1 then
          if size ≤ (← h.getSize b) then .ok (some b)
          else firstFit h size fuel (← h.getNext b)
        else firstFit h size fuel (← h.getNext b)

/-- Make the rest of `b` from `new` on a free block, linked behind `b`. -/
def cutRest (h : Heap) (b new size : Nat) : Except Stuck Heap := do
  let h ← h.setFree new 1
  let h ← h.setSize new (sub64 (sub64 (← h.getSize b) sizeofBlock) size)
  let h ← h.setPrev new b
  let h ← h.setNext new (← h.getNext b)
  let next ← h.getNext b
  let h ← h.setPrevIf next new
  let h ← h.setNext b new
  if (← h.getNext new) = NULL then .ok { h with end_ := new } else .ok h

/-- Use the first `size` bytes of the free block `b`. -/
def split (h : Heap) (b size : Nat) : Except Stuck (Nat × Heap) := do
  let new := add64 (payload b) size
  let h ← h.cutRest b new size
  let h ← h.memset (payload new) (← h.getSize new)
  let h ← h.setSize b size
  let h ← h.setFree b 0
  let h ← h.memset (payload b) (← h.getSize b)
  .ok (payload b, h)

/-- Use the free block `b` whole. -/
def takeWhole (h : Heap) (b : Nat) : Except Stuck (Nat × Heap) := do
  let h ← h.setFree b 0
  let h ← h.memset (payload b) (← h.getSize b)
  .ok (payload b, h)

/-- What the loop does with the block it has found. -/
def place (h : Heap) (b size : Nat) : Except Stuck (Nat × Heap) := do
  if sizeofBlock ≤ sub64 (← h.getSize b) size then h.split b size else h.takeWhole b

/-- A new block at the break. -/
def extend (h : Heap) (size : Nat) (ok : Bool) : Except Stuck (Nat × Heap) :=
  match h.sbrk (add64 size sizeofBlock) ok with
  | none => .ok (NULL, h)
  | some (new, h) => do
      let h ← h.setFree new 0
      let h ← h.setPrev new h.end_
      let h ← h.setNext h.end_ new
      let h ← h.setNext new NULL
      let h ← h.setSize new size
      let h := { h with end_ := new }
      let h ← h.memset (payload new) (← h.getSize new)
      .ok (payload new, h)

def mmMalloc (h : Heap) (size : Nat) (ok : Bool) : Except Stuck (Nat × Heap) :=
  if size = 0 then .ok (NULL, h)
  else if h.first then h.startHeap size ok
  else do
    match ← h.firstFit size (h.brk - h.lo + 1) h.base with
    | some b => h.place b size
    | none => h.extend size ok

/-! ### `mm_free` -/

/-- Merge `b` into a free predecessor. -/
def mergePrev (h : Heap) (b : Nat) : Except Stuck (Nat × Heap) := do
  let p ← h.getPrev b
  if p = NULL then .ok (b, h)
  else if (← h.getFree p) = 1 then
    let h ← h.setSize p (add64 (add64 (← h.getSize p) sizeofBlock) (← h.getSize b))
    let h ← h.setNext p (← h.getNext b)
    let next ← h.getNext b
    let h ← h.setPrevIf next p
    .ok (p, h)
  else .ok (b, h)

/-- Merge a free successor into `b`. -/
def mergeNext (h : Heap) (b : Nat) : Except Stuck Heap := do
  let n ← h.getNext b
  if n = NULL then .ok h
  else if (← h.getFree n) = 1 then
    let h ← h.setSize b (add64 (add64 (← h.getSize b) sizeofBlock) (← h.getSize n))
    let h ← h.setNext b (← h.getNext n)
    let next ← h.getNext n
    let h ← h.setPrevIf next b
    if (← h.getNext n) = NULL then .ok { h with end_ := b } else .ok h
  else .ok h

def mmFree (h : Heap) (ptr : Nat) : Except Stuck Heap :=
  if ptr = NULL then .ok h
  else do
    let b := sub64 ptr sizeofBlock
    let h ← h.setFree b 1
    let (b, h) ← h.mergePrev b
    h.mergeNext b

/-! ### `mm_realloc` -/

/-- `if (q != NULL && q->free == 1) if_we_free += q->size + sizeof(Block);` -/
def addIfFree (h : Heap) (ifWeFree q : Nat) : Except Stuck Nat :=
  if q = NULL then .ok ifWeFree
  else do
    if (← h.getFree q) = 1 then
      .ok (add64 ifWeFree (add64 (← h.getSize q) sizeofBlock))
    else .ok ifWeFree

/-- What a read of more than the `n` bytes of a buffer sees. -/
def pastEnd (n : Nat) (buffer stack : Nat → UInt8) (i : Nat) : UInt8 :=
  if i < n then buffer i else stack i

/-- `if_we_free >= size`: the block merged with its free neighbours is large
enough. -/
def freeThenMalloc (h : Heap) (ptr size copySize : Nat) (ok : Bool) (buffer : Nat → UInt8) :
    Except Stuck (Nat × Heap) := do
  let h ← h.mmFree ptr
  let (nptr, h) ← h.mmMalloc size ok
  let h ← h.memcpy nptr copySize buffer
  .ok (nptr, h)

/-- The other branch. The size is read again, after the block was freed. -/
def mallocThenFree (h : Heap) (ptr size : Nat) (ok : Bool) (buffer : Nat → UInt8) :
    Except Stuck (Nat × Heap) := do
  let (nptr, h) ← h.mmMalloc size ok
  if nptr = NULL then .ok (NULL, h)
  else
    let h ← h.mmFree ptr
    let bsize ← h.getSize (sub64 ptr sizeofBlock)
    let h ← h.memcpy nptr bsize buffer
    .ok (nptr, h)

/-- `stack` is what lies on the stack behind `buffer`, which the last `memcpy`
may read. -/
def mmRealloc (h : Heap) (ptr size : Nat) (ok : Bool) (stack : Nat → UInt8) :
    Except Stuck (Nat × Heap) :=
  if size = 0 then do
    let h ← h.mmFree ptr
    .ok (NULL, h)
  else if ptr = NULL then h.mmMalloc size ok
  else do
    let b := sub64 ptr sizeofBlock
    let bsize ← h.getSize b
    let copySize := if size < bsize then size else bsize
    let buffer ← h.readBytes ptr copySize
    let ifWeFree ← h.addIfFree bsize (← h.getPrev b)
    let ifWeFree ← h.addIfFree ifWeFree (← h.getNext b)
    if size ≤ ifWeFree then h.freeThenMalloc ptr size copySize ok buffer
    else h.mallocThenFree ptr size ok (pastEnd copySize buffer stack)

end Heap

/-! ### Programs -/

/-- What a program does with the allocator. -/
inductive Call
  | malloc (size : Nat) (ok : Bool)
  | realloc (ptr size : Nat) (ok : Bool) (stack : Nat → UInt8)
  | free (ptr : Nat)
  /-- The caller stores a byte. -/
  | write (addr : Nat) (byte : UInt8)

/-- The heap and the live allocations: pointer and requested size. -/
structure World where
  heap : Heap
  live : List (Nat × Nat)

namespace World

/-- Before the first call, with arbitrary bytes in memory. -/
def init (mem : Mem) (lo : Nat) : World :=
  ⟨⟨mem, lo, lo, true, NULL, NULL⟩, []⟩

/-- `p` may be passed to `mm_free` and `mm_realloc`. -/
def passable (w : World) (p : Nat) : Prop := p = NULL ∨ p ∈ w.live.map Prod.fst

instance (w : World) (p : Nat) : Decidable (w.passable p) := inferInstanceAs (Decidable (_ ∨ _))

/-- The byte at `a` was requested by a live allocation. -/
def owned (w : World) (a : Nat) : Prop := ∃ r ∈ w.live, r.1 ≤ a ∧ a < r.1 + r.2

instance (w : World) (a : Nat) : Decidable (w.owned a) := inferInstanceAs (Decidable (∃ r ∈ _, _))

def drop (w : World) (p : Nat) : List (Nat × Nat) := w.live.filter fun r => r.1 ≠ p

/-- One step of a program that passes live pointers and writes to its own
bytes only; there is no next state where the call does not return. -/
def step (w : World) : Call → Option World
  | .malloc size ok =>
      if size < 2 ^ 64 then
        match w.heap.mmMalloc size ok with
        | .ok (p, heap) => some ⟨heap, if p = NULL then w.live else (p, size) :: w.live⟩
        | .error _ => none
      else none
  | .realloc ptr size ok stack =>
      if size < 2 ^ 64 ∧ w.passable ptr then
        match w.heap.mmRealloc ptr size ok stack with
        | .ok (p, heap) =>
            some ⟨heap, if size = 0 then w.drop ptr
              else if p = NULL then w.live
              else (p, size) :: w.drop ptr⟩
        | .error _ => none
      else none
  | .free ptr =>
      if w.passable ptr then
        match w.heap.mmFree ptr with
        | .ok heap => some ⟨heap, w.drop ptr⟩
        | .error _ => none
      else none
  | .write addr byte =>
      if w.owned addr then
        some { w with heap := { w.heap with mem := w.heap.mem.blit addr 1 fun _ => byte } }
      else none

def Step (w : World) (c : Call) (w' : World) : Prop := w.step c = some w'

end World

end OsTools.MmAlloc

import OsTools.Kernel.List
import OsTools.Threads.Palloc
/-!
# OsTools.Threads.Malloc

The kernel's `malloc` of `threads/malloc.c`. Descriptors, arena headers and the
links of free blocks all lie in byte memory, at the offsets of the C structures; a
pointer is an address and null is 0. Calls are taken one at a time, so that the lock
of a descriptor is left out.

`groups` is kept for the proofs and read by no function: the groups of pages that
were obtained from the page allocator and not given back, each with its address and
its number of pages.

The functions are those of the source with their loops as recursions on a counter. What
holds of them is in `MallocSteps` (the changes of the books), `MallocSound` (the functions)
and `MallocRun` (all runs).
-/

namespace OsTools.Threads

open Kernel Vm

/-! ### `struct desc` -/

/-- `sizeof (struct desc)`. -/
def DESC_SIZE : Nat := 48

/-- `sizeof descs / sizeof *descs`. -/
def DESC_MAX : Nat := 10

/-- `&descs[k]`. -/
def descPtr (descs k : Nat) : Nat := descs + DESC_SIZE * k

/-- `d->block_size`. -/
def descBlockSize (m : Mem) (d : Nat) : Nat := m.load d 4

/-- `d->blocks_per_arena`. -/
def descBlocksPerArena (m : Mem) (d : Nat) : Nat := m.load (d + 4) 4

/-- `&d->free_list`. -/
def descFreeList (d : Nat) : Nat := d + 8

/-! ### `struct arena` -/

/-- `sizeof (struct arena)`. -/
def ARENA_SIZE : Nat := 12

def ARENA_MAGIC : Nat := 0x9a548eed

/-- `a->magic`. -/
def arenaMagic (m : Mem) (a : Nat) : Nat := m.load a 4

/-- `a->desc`. -/
def arenaDesc (m : Mem) (a : Nat) : Nat := m.load (a + 4) 4

/-- `a->free_cnt`. -/
def arenaFreeCnt (m : Mem) (a : Nat) : Nat := m.load (a + 8) 4

/-- `a->free_cnt = n`. -/
def setArenaFreeCnt (m : Mem) (a n : Nat) : Mem := m.store (a + 8) 4 n

/-- The three assignments that set up the arena `a`. -/
def setArena (m : Mem) (a desc freeCnt : Nat) : Mem :=
  let m := m.store a 4 ARENA_MAGIC
  let m := m.store (a + 4) 4 desc
  setArenaFreeCnt m a freeCnt

/-- `block_to_arena`. -/
def blockToArena (m : Mem) (b : Nat) : Except Stop Nat :=
  let a := pgRoundDown b
  if a = 0 then .error .assertion
  else if arenaMagic m a ≠ ARENA_MAGIC then .error .assertion
  else if ¬ (arenaDesc m a = 0 ∨
      sub32 (pgOfs b) ARENA_SIZE % descBlockSize m (arenaDesc m a) = 0) then .error .assertion
  else if ¬ (arenaDesc m a ≠ 0 ∨ pgOfs b = ARENA_SIZE) then .error .assertion
  else .ok a

/-- `arena_to_block`. -/
def arenaToBlock (m : Mem) (a idx : Nat) : Except Stop Nat :=
  if a = 0 then .error .assertion
  else if arenaMagic m a ≠ ARENA_MAGIC then .error .assertion
  else if idx < descBlocksPerArena m (arenaDesc m a) then
    .ok (a + ARENA_SIZE + idx * descBlockSize m (arenaDesc m a))
  else .error .assertion

/-- The loop that adds the blocks of a new arena to the free list of `d`, over `n`
blocks from number `i` on. -/
def pushBlocks (d a : Nat) : Nat → Nat → Mem → Except Stop Mem
  | 0, _, m => .ok m
  | n + 1, i, m => do
      let b ← arenaToBlock m a i
      let m ← listPushBack m (descFreeList d) b
      pushBlocks d a n (i + 1) m

/-- The loop that takes the blocks of an arena off their free list. -/
def removeBlocks (a : Nat) : Nat → Nat → Mem → Except Stop Mem
  | 0, _, m => .ok m
  | n + 1, i, m => do
      let b ← arenaToBlock m a i
      let (m, _) ← listRemove m b
      removeBlocks a n (i + 1) m

/-! ### The functions -/

/-- Memory and the static variables of `malloc.c`: `descs` is the address of the array. -/
structure Heap where
  ram : Ram
  descs : Nat
  descCnt : Nat
  groups : List (Nat × Nat)

namespace Heap

def mem (h : Heap) : Mem := h.ram.mem

def setMem (h : Heap) (m : Mem) : Heap := { h with ram := { h.ram with mem := m } }

/-- `palloc_get_multiple (0, page_cnt)`. -/
def pallocGetMultiple (h : Heap) (pageCnt : Nat) : Except Stop (Heap × Nat) := do
  let (ram, pages) ← h.ram.pallocGetMultiple {} pageCnt
  let groups := if pages = 0 then h.groups else (pages, pageCnt) :: h.groups
  .ok ({ h with ram, groups }, pages)

/-- `palloc_free_multiple`. -/
def pallocFreeMultiple (h : Heap) (pages pageCnt : Nat) : Except Stop Heap := do
  let ram ← h.ram.pallocFreeMultiple pages pageCnt
  .ok { h with ram, groups := h.groups.erase (pages, pageCnt) }

/-- The loop of `malloc_init`. -/
def mallocInitLoop (h : Heap) (blockSize : Nat) : Except Stop Heap :=
  if 0 < blockSize ∧ blockSize < PGSIZE / 2 then do
    let d := descPtr h.descs h.descCnt
    let h := { h with descCnt := h.descCnt + 1 }
    if h.descCnt ≤ DESC_MAX then
      let m := h.mem.store d 4 blockSize
      let m := m.store (d + 4) 4 ((PGSIZE - ARENA_SIZE) / blockSize)
      let m ← listInit m (descFreeList d)
      mallocInitLoop (h.setMem m) (blockSize * 2)
    else .error .assertion
  else .ok h
termination_by PGSIZE / 2 - blockSize

/-- `malloc_init`. -/
def mallocInit (h : Heap) : Except Stop Heap := h.mallocInitLoop 16

/-- The loop of `malloc` over the descriptors, with `n` of them left from `d` on. -/
def findDesc (m : Mem) (size : Nat) : Nat → Nat → Nat
  | 0, d => d
  | n + 1, d => if descBlockSize m d ≥ size then d else findDesc m size n (d + DESC_SIZE)

/-- What `malloc` does when the free list of `d` is empty; whether there is a block then. -/
def refill (h : Heap) (d : Nat) : Except Stop (Heap × Bool) := do
  if ← listEmpty h.mem (descFreeList d) then
    let (h, a) ← h.pallocGetMultiple 1
    if a = 0 then .ok (h, false)
    else
      let m := setArena h.mem a d (descBlocksPerArena h.mem d)
      let m ← pushBlocks d a (descBlocksPerArena m d) 0 m
      .ok (h.setMem m, true)
  else .ok (h, true)

/-- `malloc`, of a block for which there is no descriptor. -/
def mallocBig (h : Heap) (size : Nat) : Except Stop (Heap × Nat) := do
  let pageCnt := divRoundUp ((size + ARENA_SIZE) % 2 ^ 32) PGSIZE
  let (h, a) ← h.pallocGetMultiple pageCnt
  if a = 0 then .ok (h, 0) else .ok (h.setMem (setArena h.mem a 0 pageCnt), a + ARENA_SIZE)

/-- `malloc`, of a block of the descriptor `d`. -/
def mallocSmall (h : Heap) (d : Nat) : Except Stop (Heap × Nat) := do
  let (h, found) ← h.refill d
  if found then
    let (m, b) ← listPopFront h.mem (descFreeList d)
    let a ← blockToArena m b
    .ok (h.setMem (setArenaFreeCnt m a (sub32 (arenaFreeCnt m a) 1)), b)
  else .ok (h, 0)

/-- `malloc`. -/
def malloc (h : Heap) (size : Nat) : Except Stop (Heap × Nat) :=
  if size = 0 then .ok (h, 0)
  else
    let d := findDesc h.mem size h.descCnt h.descs
    if d = descPtr h.descs h.descCnt then h.mallocBig size else h.mallocSmall d

/-- `calloc`. -/
def calloc (h : Heap) (a b : Nat) : Except Stop (Heap × Nat) := do
  let size := a * b % 2 ^ 32
  if size < a ∨ size < b then .ok (h, 0)
  else
    let (h, p) ← h.malloc size
    if p ≠ 0 then .ok (h.setMem (h.mem.fill p size 0), p) else .ok (h, p)

/-- `block_size`. -/
def blockSize (h : Heap) (block : Nat) : Except Stop Nat := do
  let a ← blockToArena h.mem block
  let d := arenaDesc h.mem a
  if d ≠ 0 then .ok (descBlockSize h.mem d)
  else .ok (sub32 (PGSIZE * arenaFreeCnt h.mem a % 2 ^ 32) (pgOfs block))

/-- `free`, of a block of the descriptor `d` in the arena `a`. -/
def freeSmall (h : Heap) (p a d : Nat) : Except Stop Heap := do
  let m := h.mem.fill p (descBlockSize h.mem d) 0xcc
  let m ← listPushFront m (descFreeList d) p
  let m := setArenaFreeCnt m a ((arenaFreeCnt m a + 1) % 2 ^ 32)
  if arenaFreeCnt m a ≥ descBlocksPerArena m d then
    if arenaFreeCnt m a = descBlocksPerArena m d then
      let m ← removeBlocks a (descBlocksPerArena m d) 0 m
      (h.setMem m).pallocFreeMultiple a 1
    else .error .assertion
  else .ok (h.setMem m)

/-- `free`. -/
def free (h : Heap) (p : Nat) : Except Stop Heap := do
  if p = 0 then .ok h
  else
    let a ← blockToArena h.mem p
    let d := arenaDesc h.mem a
    if d ≠ 0 then h.freeSmall p a d else h.pallocFreeMultiple a (arenaFreeCnt h.mem a)

/-- `realloc`. -/
def realloc (h : Heap) (oldBlock newSize : Nat) : Except Stop (Heap × Nat) := do
  if newSize = 0 then
    let h ← h.free oldBlock
    .ok (h, 0)
  else
    let (h, newBlock) ← h.malloc newSize
    if oldBlock ≠ 0 ∧ newBlock ≠ 0 then
      let oldSize ← h.blockSize oldBlock
      let minSize := if newSize < oldSize then newSize else oldSize
      let h := h.setMem (h.mem.blit newBlock minSize fun i => h.mem (oldBlock + i))
      let h ← h.free oldBlock
      .ok (h, newBlock)
    else .ok (h, newBlock)

end Heap

end OsTools.Threads

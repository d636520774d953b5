import OsTools.Kernel.ListOps
/-!
# OsTools.Kernel.Hash

The hash table of `lib/kernel/hash.c`: an array of lists, the buckets, in which the elements
are linked up. `hash` and `less` are what the functions of the table return for the elements at
these addresses. `malloc` is what a call of `malloc` returns for a size, if not a null pointer.

The loops over a list have the bound `maxCells` on their rounds, as in `OsTools.Kernel.ListOps`,
and so has the loop that removes the bits of a number. Elements and buckets are addresses; a null
pointer to an element is `none`.

The functions are those of the source, with the loops as recursions. Their specifications
are in `HashTable` (one bucket), `Rehash`, `HashWalk` (the whole table) and `HashSet`
(runs).
-/

namespace OsTools.Kernel

open Mem

/-- `struct hash`. -/
structure Hash where
  elemCnt : Nat
  bucketCnt : Nat
  buckets : Nat

/-- `&buckets[i]`, where a bucket is a `struct list`. -/
def bucketAt (buckets i : Nat) : Nat := buckets + 16 * i

/-- `turn_off_least_1bit`. -/
def turnOffLeast1bit (x : Nat) : Nat := x &&& (x - 1)

/-- `is_power_of_2`. -/
def isPowerOf2 (x : Nat) : Bool := x ≠ 0 ∧ turnOffLeast1bit x = 0

/-- The loop of `rehash` to the number of buckets. -/
def powerLoop : Nat → Nat → Except Stop Nat
  | 0, _ => .error .fault
  | rounds + 1, x => if isPowerOf2 x then .ok x else powerLoop rounds (turnOffLeast1bit x)

def BEST_ELEMS_PER_BUCKET : Nat := 2

namespace Hash

/-- The number of buckets that `rehash` goes for. -/
def newBucketCnt (h : Hash) : Except Stop Nat :=
  let cnt := h.elemCnt / BEST_ELEMS_PER_BUCKET
  powerLoop maxCells (if cnt < 4 then 4 else cnt)

/-- The loop over new buckets with `list_init`, from the bucket `i` on. -/
def initLoop (buckets : Nat) : Nat → Nat → Mem → Except Stop Mem
  | 0, _, m => .ok m
  | cnt + 1, i, m => do
      let m ← listInit m (bucketAt buckets i)
      initLoop buckets cnt (i + 1) m

section Model

variable (hash : Nat → UInt32) (less : Nat → Nat → Bool)

/-- The index of the bucket that `e` belongs in. -/
def bucketIdx (h : Hash) (e : Nat) : Nat := (hash e).toNat &&& (h.bucketCnt - 1)

/-- `find_bucket`. -/
def findBucket (h : Hash) (e : Nat) : Nat := bucketAt h.buckets (h.bucketIdx hash e)

/-- The loop of `find_elem`. -/
def findLoop (m : Mem) (bucket e : Nat) : Nat → Nat → Except Stop (Option Nat)
  | 0, _ => .error .fault
  | rounds + 1, i => do
      let last ← listEnd bucket
      if i = last then .ok none
      else if !less i e && !less e i then .ok (some i)
      else
        let next ← listNext m i
        findLoop m bucket e rounds next

/-- `find_elem`. -/
def findElem (m : Mem) (bucket e : Nat) : Except Stop (Option Nat) := do
  let first ← listBegin m bucket
  findLoop less m bucket e maxCells first

/-- `insert_elem`. -/
def insertElem (h : Hash) (m : Mem) (bucket e : Nat) : Except Stop (Hash × Mem) := do
  let m ← listPushFront m bucket e
  .ok ({ h with elemCnt := (h.elemCnt + 1) % 2 ^ 32 }, m)

/-- `remove_elem`. -/
def removeElem (h : Hash) (m : Mem) (e : Nat) : Except Stop (Hash × Mem) := do
  let (m, _) ← listRemove m e
  .ok ({ h with elemCnt := (h.elemCnt + (2 ^ 32 - 1)) % 2 ^ 32 }, m)

/-- The loop of `rehash` over the elements of an old bucket. -/
def moveLoop (h : Hash) (oldBucket : Nat) : Nat → Mem → Nat → Except Stop Mem
  | 0, _, _ => .error .fault
  | rounds + 1, m, elem => do
      let last ← listEnd oldBucket
      if elem = last then .ok m
      else
        let newBucket := h.findBucket hash elem
        let next ← listNext m elem
        let (m, _) ← listRemove m elem
        let m ← listPushFront m newBucket elem
        moveLoop h oldBucket rounds m next

/-- The loop of `rehash` over the old buckets, from the bucket `i` on. -/
def moveBuckets (h : Hash) (oldBuckets : Nat) : Nat → Nat → Mem → Except Stop Mem
  | 0, _, m => .ok m
  | cnt + 1, i, m => do
      let first ← listBegin m (bucketAt oldBuckets i)
      let m ← moveLoop hash h (bucketAt oldBuckets i) maxCells m first
      moveBuckets h oldBuckets cnt (i + 1) m

/-- `rehash`. -/
def rehash (malloc : Nat → Option Nat) (h : Hash) (m : Mem) : Except Stop (Hash × Mem) := do
  let newBucketCnt ← h.newBucketCnt
  if newBucketCnt = h.bucketCnt then .ok (h, m)
  else
    match malloc (16 * newBucketCnt % 2 ^ 32) with
    | none => .ok (h, m)
    | some newBuckets => do
        let m ← initLoop newBuckets newBucketCnt 0 m
        let h' := { h with buckets := newBuckets, bucketCnt := newBucketCnt }
        let m ← moveBuckets hash h' h.buckets h.bucketCnt 0 m
        .ok (h', m)

/-- `hash_insert`. -/
def insert (malloc : Nat → Option Nat) (h : Hash) (m : Mem) (new : Nat) :
    Except Stop (Hash × Mem × Option Nat) := do
  let bucket := h.findBucket hash new
  let old ← findElem less m bucket new
  let (h, m) ← match old with
    | none => h.insertElem m bucket new
    | some _ => .ok (h, m)
  let (h, m) ← rehash hash malloc h m
  .ok (h, m, old)

/-- `hash_replace`. -/
def replace (malloc : Nat → Option Nat) (h : Hash) (m : Mem) (new : Nat) :
    Except Stop (Hash × Mem × Option Nat) := do
  let bucket := h.findBucket hash new
  let old ← findElem less m bucket new
  let (h, m) ← match old with
    | some old => h.removeElem m old
    | none => .ok (h, m)
  let (h, m) ← h.insertElem m bucket new
  let (h, m) ← rehash hash malloc h m
  .ok (h, m, old)

/-- `hash_find`. -/
def find (h : Hash) (m : Mem) (e : Nat) : Except Stop (Option Nat) :=
  findElem less m (h.findBucket hash e) e

/-- `hash_delete`. -/
def delete (malloc : Nat → Option Nat) (h : Hash) (m : Mem) (e : Nat) :
    Except Stop (Hash × Mem × Option Nat) := do
  let found ← findElem less m (h.findBucket hash e) e
  match found with
  | none => .ok (h, m, none)
  | some found => do
      let (h, m) ← h.removeElem m found
      let (h, m) ← rehash hash malloc h m
      .ok (h, m, some found)

end Model

/-- The loop of `hash_clear` that pops the elements of a bucket, and the elements for which the
destructor is called. The destructor may write to memory. -/
def popLoop (destructor : Mem → Nat → Mem) (bucket : Nat) :
    Nat → Mem → Except Stop (Mem × List Nat)
  | 0, _ => .error .fault
  | rounds + 1, m => do
      if ← listEmpty m bucket then .ok (m, [])
      else
        let (m, elem) ← listPopFront m bucket
        let (m, elems) ← popLoop destructor bucket rounds (destructor m elem)
        .ok (m, elem :: elems)

/-- `if (destructor != NULL)`, in the loop of `hash_clear`. -/
def popAll (destructor : Option (Mem → Nat → Mem)) (bucket : Nat) (m : Mem) :
    Except Stop (Mem × List Nat) :=
  match destructor with
  | some destructor => popLoop destructor bucket maxCells m
  | none => .ok (m, [])

/-- The loop of `hash_clear` over the buckets, from the bucket `i` on. -/
def clearLoop (destructor : Option (Mem → Nat → Mem)) (buckets : Nat) :
    Nat → Nat → Mem → Except Stop (Mem × List Nat)
  | 0, _, m => .ok (m, [])
  | cnt + 1, i, m => do
      let bucket := bucketAt buckets i
      let (m, popped) ← popAll destructor bucket m
      let m ← listInit m bucket
      let (m, elems) ← clearLoop destructor buckets cnt (i + 1) m
      .ok (m, popped ++ elems)

/-- `hash_clear`, with the elements that the destructor is called for. -/
def clear (destructor : Option (Mem → Nat → Mem)) (h : Hash) (m : Mem) :
    Except Stop (Hash × Mem × List Nat) := do
  let (m, elems) ← clearLoop destructor h.buckets h.bucketCnt 0 m
  .ok ({ h with elemCnt := 0 }, m, elems)

/-- `hash_init`. There is no table if memory is short. -/
def init (malloc : Nat → Option Nat) (m : Mem) : Except Stop (Option (Hash × Mem)) :=
  match malloc (16 * 4) with
  | none => .ok none
  | some buckets => do
      let (h, m, _) ← clear none ⟨0, 4, buckets⟩ m
      .ok (some (h, m))

/-! ### Iteration -/

/-- The loop of `hash_apply` over a bucket, and the elements that the action is called for. -/
def applyLoop (action : Mem → Nat → Mem) (bucket : Nat) :
    Nat → Mem → Nat → Except Stop (Mem × List Nat)
  | 0, _, _ => .error .fault
  | rounds + 1, m, elem => do
      let last ← listEnd bucket
      if elem = last then .ok (m, [])
      else
        let next ← listNext m elem
        let (m, elems) ← applyLoop action bucket rounds (action m elem) next
        .ok (m, elem :: elems)

/-- The loop of `hash_apply` over the buckets, from the bucket `i` on. -/
def applyBuckets (action : Mem → Nat → Mem) (buckets : Nat) :
    Nat → Nat → Mem → Except Stop (Mem × List Nat)
  | 0, _, m => .ok (m, [])
  | cnt + 1, i, m => do
      let first ← listBegin m (bucketAt buckets i)
      let (m, elems) ← applyLoop action (bucketAt buckets i) maxCells m first
      let (m, rest) ← applyBuckets action buckets cnt (i + 1) m
      .ok (m, elems ++ rest)

/-- `hash_apply`. -/
def apply (action : Mem → Nat → Mem) (h : Hash) (m : Mem) : Except Stop (Mem × List Nat) :=
  applyBuckets action h.buckets h.bucketCnt 0 m

/-- `struct hash_iterator`. -/
structure Iterator where
  hash : Hash
  bucket : Nat
  elem : Option Nat

/-- `hash_first`. -/
def first (h : Hash) : Except Stop Iterator :=
  if h.buckets = 0 then .error .assertion else .ok ⟨h, h.buckets, some h.buckets⟩

/-- The loop of `hash_next`, with `i->elem` as `elem`. Each round goes on to another bucket. -/
def nextLoop (m : Mem) (h : Hash) : Nat → Nat → Nat → Except Stop Iterator
  | 0, _, _ => .error .fault
  | rounds + 1, bucket, elem => do
      let last ← listEnd bucket
      if elem = last then
        let bucket := bucketAt bucket 1 % 2 ^ 32
        if bucket ≥ bucketAt h.buckets h.bucketCnt % 2 ^ 32 then .ok ⟨h, bucket, none⟩
        else
          let elem ← listBegin m bucket
          nextLoop m h rounds bucket elem
      else .ok ⟨h, bucket, some elem⟩

/-- `hash_next`. The element that it returns is the current one of the iterator. -/
def next (m : Mem) (i : Iterator) : Except Stop Iterator :=
  match i.elem with
  | none => .error .fault
  | some elem => do
      let elem ← listNext m elem
      nextLoop m i.hash (i.hash.bucketCnt + 1) i.bucket elem

/-- `while (hash_next (&i)) hash_cur (&i)`: the elements that the loop comes by. -/
def iterLoop (m : Mem) : Nat → Iterator → Except Stop (List Nat)
  | 0, _ => .error .fault
  | rounds + 1, i => do
      let i ← next m i
      match i.elem with
      | none => .ok []
      | some elem => do
          let elems ← iterLoop m rounds i
          .ok (elem :: elems)

/-- `hash_first`, and `hash_next` as long as there is an element. -/
def iterate (h : Hash) (m : Mem) : Except Stop (List Nat) := do
  let i ← first h
  iterLoop m maxCells i

end Hash

end OsTools.Kernel

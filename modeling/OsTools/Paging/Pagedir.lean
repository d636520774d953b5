import Mathlib.Logic.Function.Basic
import OsTools.Paging.Pte
/-!
# OsTools.Paging.Pagedir

Page directories as they are in memory (`userprog/pagedir.c`): the directory is a page of
entries for page tables, and a page table one of entries for frames. All the directories
share the page tables of the kernel with `init_page_dir`.

Memory is the words of each page. What `palloc_get_page` returns is open, and so given with
the operation that calls it. It never is a page that is in use. The translation lookaside
buffer, and with it `invalidate_pagedir`, is left out.

Nothing is assumed of the words in memory by the functions here: an entry that is not
present, one that leads to a page table or a frame, and one that is garbage are all read as
the code reads them. The directories that the code really builds are described in
`OsTools.Paging.Repr`.
-/

namespace OsTools.Paging

/-- What `pagedir.c` uses of the kernel. -/
structure Kernel where
  initPageDir : Word
  initRamPages : Nat
  /-- The pages of the user pool. All others that `palloc.c` hands out are of the kernel's. -/
  userPool : Word → Bool

/-- The words of each page, the pages of the kernel pool that are in use, the latest one
first, and the pages that were freed. -/
structure State where
  mem : Word → Nat → Word
  taken : List Word
  freed : List Word

namespace State

/-- The page is `page` from now on. -/
def setPage (s : State) (page : Word) (words : Nat → Word) : State :=
  { s with mem := Function.update s.mem page words }

/-- The word `i` of it is `w`. -/
def write (s : State) (page : Word) (i : Nat) (w : Word) : State :=
  s.setPage page (Function.update (s.mem page) i w)

/-- `palloc_get_page (PAL_ZERO)`, which returns `page`. -/
def takeZeroed (s : State) (page : Word) : State :=
  { s.setPage page fun _ => 0 with taken := page :: s.taken }

/-- `palloc_free_page`, which overwrites the page. -/
def pallocFreePage (s : State) (page : Word) : State :=
  { s.setPage page fun _ => 0xcccccccc#32 with freed := s.freed ++ [page] }

end State

section Operations

variable (k : Kernel) (pd : Word)

/-- `pagedir_create`, where `palloc_get_page` returns `outcome`. -/
def pagedirCreate (outcome : Option Word) (s : State) : Option Word × State :=
  match outcome with
  | none => (none, s)
  | some pd =>
      (some pd, { s.setPage pd (s.mem k.initPageDir) with taken := pd :: s.taken })

/-- `lookup_page`: the entry as a word of a page. -/
def lookupPage (vaddr : Word) (create : Bool) (outcome : Option Word) (s : State) :
    Except Panic (Option (Word × Nat) × State) :=
  if pd = 0 then .error .null
  else if create && !isUserVaddr vaddr then .error .notUser
  else if s.mem pd (pdNo vaddr) = 0 then
    if create then
      match outcome with
      | none => .ok (none, s)
      | some pt => do
          let pde ← pdeCreate pt
          let s := (s.takeZeroed pt).write pd (pdNo vaddr) pde
          let pt ← pdeGetPt (s.mem pd (pdNo vaddr))
          .ok (some (pt, ptNo vaddr), s)
    else .ok (none, s)
  else do
    let pt ← pdeGetPt (s.mem pd (pdNo vaddr))
    .ok (some (pt, ptNo vaddr), s)

/-- `pagedir_set_page`. -/
def pagedirSetPage (upage kpage : Word) (writable : Bool) (outcome : Option Word) (s : State) :
    Except Panic (Bool × State) := do
  if pgOfs upage ≠ 0 ∨ pgOfs kpage ≠ 0 then .error .unaligned
  else if !isUserVaddr upage then .error .notUser
  else
    let paddr ← vtop kpage
    if ¬ (paddr >>> 12).toNat < k.initRamPages then .error .notRam
    else if pd = k.initPageDir then .error .initPageDir
    else
      let (pte, s) ← lookupPage pd upage true outcome s
      match pte with
      | none => .ok (false, s)
      | some (pt, i) =>
          if s.mem pt i &&& PTE_P ≠ 0 then .error .present
          else
            let w ← pteCreateUser kpage writable
            .ok (true, s.write pt i w)

/-- `pagedir_get_page`. -/
def pagedirGetPage (uaddr : Word) (s : State) : Except Panic (Option Word) :=
  if !isUserVaddr uaddr then .error .notUser
  else do
    let (pte, s) ← lookupPage pd uaddr false none s
    match pte with
    | none => .ok none
    | some (pt, i) =>
        if s.mem pt i &&& PTE_P ≠ 0 then
          let page ← pteGetPage (s.mem pt i)
          .ok (some (page + pgOfs uaddr))
        else .ok none

/-- `pagedir_clear_page`. -/
def pagedirClearPage (upage : Word) (s : State) : Except Panic State :=
  if pgOfs upage ≠ 0 then .error .unaligned
  else if !isUserVaddr upage then .error .notUser
  else do
    let (pte, s) ← lookupPage pd upage false none s
    match pte with
    | none => .ok s
    | some (pt, i) =>
        if s.mem pt i &&& PTE_P ≠ 0 then .ok (s.write pt i (s.mem pt i &&& ~~~PTE_P)) else .ok s

/-- `pagedir_is_dirty` and `pagedir_is_accessed`, with their bit. -/
def pagedirIs (bit : Word) (vpage : Word) (s : State) : Except Panic Bool := do
  let (pte, s) ← lookupPage pd vpage false none s
  match pte with
  | none => .ok false
  | some (pt, i) => .ok (decide (s.mem pt i &&& bit ≠ 0))

/-- `pagedir_set_dirty` and `pagedir_set_accessed`. -/
def pagedirSet (bit : Word) (vpage : Word) (value : Bool) (s : State) : Except Panic State := do
  let (pte, s) ← lookupPage pd vpage false none s
  match pte with
  | none => .ok s
  | some (pt, i) =>
      .ok (s.write pt i (if value then s.mem pt i ||| bit else s.mem pt i &&& ~~~bit))

/-- `pagedir_is_dirty`. -/
def pagedirIsDirty (vpage : Word) (s : State) : Except Panic Bool := pagedirIs pd PTE_D vpage s

/-- `pagedir_is_accessed`. -/
def pagedirIsAccessed (vpage : Word) (s : State) : Except Panic Bool := pagedirIs pd PTE_A vpage s

/-- `pagedir_set_dirty`. -/
def pagedirSetDirty (vpage : Word) (dirty : Bool) (s : State) : Except Panic State :=
  pagedirSet pd PTE_D vpage dirty s

/-- `pagedir_set_accessed`. -/
def pagedirSetAccessed (vpage : Word) (accessed : Bool) (s : State) : Except Panic State :=
  pagedirSet pd PTE_A vpage accessed s

/-- The inner loop of `pagedir_destroy` at the entry `i` of a page table. -/
def freeFrame (pt : Word) (s : State) (i : Nat) : Except Panic State :=
  if s.mem pt i &&& PTE_P ≠ 0 then do
    let page ← pteGetPage (s.mem pt i)
    .ok (s.pallocFreePage page)
  else .ok s

/-- The outer loop at the entry `d` of the directory. -/
def freeTable (s : State) (d : Nat) : Except Panic State :=
  if s.mem pd d &&& PTE_P ≠ 0 then do
    let pt ← pdeGetPt (s.mem pd d)
    let s ← (List.range 1024).foldlM (freeFrame pt) s
    .ok (s.pallocFreePage pt)
  else .ok s

/-- `pagedir_destroy`. -/
def pagedirDestroy (s : State) : Except Panic State :=
  if pd = 0 then .ok s
  else if pd = k.initPageDir then .error .initPageDir
  else do
    let s ← (List.range (pdNo PHYS_BASE)).foldlM (freeTable pd) s
    .ok (s.pallocFreePage pd)

end Operations

end OsTools.Paging

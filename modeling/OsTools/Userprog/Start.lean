import Mathlib.Data.Multiset.AddSub
import OsTools.Userprog.Load
/-!
# OsTools.Userprog.Start

What the start of a process takes and gives back: `process_execute`,
`thread_create` and `start_process` around `load`, with the memory that each of
them gets. That is pages of the kernel pool (`KernelPage`), blocks of the heap
(`Block`), page tables and frames of the user pool (`Mm`).

Which requests are granted is the environment's choice (`Env`). An inode is
shared by all who have it open, so `inode_open` takes a block only where the
inode is not open yet. It is taken that nobody else opens or closes one of the
two inodes while the process starts; the file system has no locks that would
allow it. The bounce buffer of `inode_read_at` is freed before the read returns.

## Proof shape

What is held at any time is a value (`Taken`), and each function is described by how it
changes this value: what it keeps if it succeeds and that it gives everything back if it
does not. `openBlock_cases`, `dirOpenRoot_cases` and `filesysOpen_cases` do this for the
file system, `load_pagedir` for `load` and `processExecute_cases` for the whole call. The
environment decides at each request, so that every failure point of the code is a case.

The frames need an invariant (`Owned`): the frames in use are those of the mapped pages. It
holds wherever `load` stops, because a frame that could not be installed is freed at once.
So what is left of a start that fails is known exactly: it is the page directory and what is
mapped in it, or nothing.
-/

namespace OsTools.Userprog

open OsTools.Vm
open Function (update)

/-- The kernel pages that are taken one by one. -/
inductive KernelPage
  /-- The copy of the file name. -/
  | fnCopy
  /-- `struct thread` and the kernel stack. -/
  | thread
  | pagedir
  deriving DecidableEq

inductive Block
  | pcb
  | dir
  | file
  /-- The inode at a sector. -/
  | inode (sector : Nat)
  deriving DecidableEq

/-- Which requests are granted, and what there is to load: the directory entry
of the executable, if it is found, is a sector and the file there. `openCnt`
says how often an inode is open. -/
structure Env where
  fnCopy : Bool
  thread : Bool
  pcb : Bool
  pagedir : Bool
  rootInode : Bool
  dir : Bool
  inode : Bool
  file : Bool
  tables : Nat → Bool
  pool : FreePages
  phys : Nat → Nat → UInt8
  entry : Option (Nat × OpenFile)
  openCnt : Nat → Nat

/-- What is taken on behalf of the new process, and the open inodes. -/
structure Taken where
  pages : Multiset KernelPage
  blocks : Multiset Block
  openCnt : Nat → Nat
  space : Mm

def ROOT_DIR_SECTOR : Nat := 1

/-- A file as `file_open` returns it: at position 0. -/
def OpenFile.atStart : OpenFile → OpenFile
  | ⟨⟨bytes, _, length_lt⟩, short⟩ => ⟨⟨bytes, 0, length_lt⟩, short⟩

namespace Taken

/-- `palloc_get_page (0)`. -/
def pallocGetPage (t : Taken) (page : KernelPage) (avail : Bool) : Bool × Taken :=
  if avail then (true, { t with pages := page ::ₘ t.pages }) else (false, t)

/-- `palloc_free_page`. -/
def pallocFreePage (t : Taken) (page : KernelPage) : Except Fault Taken :=
  if page ∈ t.pages then .ok { t with pages := t.pages.erase page } else .error (.vm .notAllocated)

/-- `malloc` and `calloc`. -/
def malloc (t : Taken) (block : Block) (avail : Bool) : Bool × Taken :=
  if avail then (true, { t with blocks := block ::ₘ t.blocks }) else (false, t)

/-- `free`. A block that is not allocated is a fault, which the code cannot see. -/
def free (t : Taken) (block : Block) : Except Fault Taken :=
  if block ∈ t.blocks then .ok { t with blocks := t.blocks.erase block }
  else .error (.vm .notAllocated)

/-- `free`, of `NULL` if the block was not granted. -/
def freeIf (t : Taken) (granted : Bool) (block : Block) : Except Fault Taken :=
  if granted then t.free block else .ok t

/-! ### The file system -/

/-- `inode_open`; an inode is named by its sector. -/
def inodeOpen (t : Taken) (sector : Nat) (avail : Bool) : Option Nat × Taken :=
  if t.openCnt sector ≠ 0 then
    -- inode_reopen
    (some sector, { t with openCnt := update t.openCnt sector (t.openCnt sector + 1) })
  else
    let (granted, t) := t.malloc (.inode sector) avail
    if granted then (some sector, { t with openCnt := update t.openCnt sector 1 }) else (none, t)

/-- `inode_close`. A removed inode also frees its sectors, which are no memory. -/
def inodeClose (t : Taken) : Option Nat → Except Fault Taken
  | none => .ok t
  | some sector =>
      let t := { t with openCnt := update t.openCnt sector (t.openCnt sector - 1) }
      if t.openCnt sector = 0 then t.free (.inode sector) else .ok t

/-- `dir_open` and `file_open`, which take ownership of the inode: a block that
refers to it, or else the inode is closed. -/
def openBlock (t : Taken) (block : Block) (inode : Option Nat) (avail : Bool) :
    Except Fault (Option Nat × Taken) :=
  let (granted, t) := t.malloc block avail
  if inode.isSome ∧ granted then .ok (inode, t)
  else do
    let t ← t.inodeClose inode
    let t ← t.freeIf granted block
    .ok (none, t)

/-- `dir_close` and `file_close`; `file_allow_write` takes no memory. -/
def closeBlock (t : Taken) (block : Block) : Option Nat → Except Fault Taken
  | none => .ok t
  | some sector => do
      let t ← t.inodeClose (some sector)
      t.free block

/-- `dir_open_root`. -/
def dirOpenRoot (env : Env) (t : Taken) : Except Fault (Option Nat × Taken) :=
  let (inode, t) := t.inodeOpen ROOT_DIR_SECTOR env.rootInode
  t.openBlock .dir inode env.dir

/-- `dir_lookup`. -/
def dirLookup (env : Env) (t : Taken) : Option Nat × Taken :=
  match env.entry with
  | none => (none, t)
  | some (sector, _) => t.inodeOpen sector env.inode

/-- `filesys_open`. -/
def filesysOpen (env : Env) (t : Taken) : Except Fault (Option Nat × Taken) := do
  let (dir, t) ← dirOpenRoot env t
  let (inode, t) := if dir.isSome then dirLookup env t else (none, t)
  let t ← t.closeBlock .dir dir
  t.openBlock .file inode env.file

end Taken

/-- `load` from the executable header on: the entry point and the initial stack
pointer if it succeeds, and the address space. -/
def Loader.loadFile (tables : Nat → Bool) (s : Loader) :
    Except Fault (Option (Nat × Nat) × Loader) :=
  let (buffer, s) := s.fileRead sizeofEhdr
  if ¬ ehdrOk buffer then .ok (none, s)
  else do
    let ehdr := Ehdr.ofBytes buffer
    let (success, s) ← loadPhdrs tables ehdr.e_phnum s (toInt32 ehdr.e_phoff)
    if ¬ success then .ok (none, s)
    else
      let (success, s) ← setupStack tables s
      if success then .ok (some (ehdr.e_entry, PHYS_BASE - 0x14), s) else .ok (none, s)

namespace Taken

/-- `load`: whether it succeeds. The file is the one of the directory entry. -/
def load (env : Env) (t : Taken) : Except Fault (Bool × Taken) :=
  let (granted, t) := t.pallocGetPage .pagedir env.pagedir
  if ¬ granted then .ok (false, t)
  else do
    let (inode, t) ← t.filesysOpen env
    match inode, env.entry with
    | some sector, some (_, file) =>
        let (entry, s) ← Loader.loadFile env.tables ⟨t.space, env.phys, file.atStart⟩
        -- done:
        let t ← { t with space := s.mm }.closeBlock .file (some sector)
        .ok (entry.isSome, t)
    | _, _ => .ok (false, t)

/-- `thread_exit`: `thread_switch_tail` frees the page of the dying thread. -/
def threadExit (t : Taken) : Except Fault Taken := t.pallocFreePage .thread

/-- `start_process`: whether it jumps to the user program; if not, the thread
has exited. -/
def startProcess (env : Env) (t : Taken) : Except Fault (Bool × Taken) := do
  let (pcbSuccess, t) := t.malloc .pcb env.pcb
  let (success, t) ← if pcbSuccess then load env t else .ok (false, t)
  -- handle failure with successful PCB malloc
  let t ← t.freeIf (!success && pcbSuccess) .pcb
  let t ← t.pallocFreePage .fnCopy
  if success then .ok (true, t)
  else do
    let t ← t.threadExit
    .ok (false, t)

/-- Nothing is taken yet. -/
def init (env : Env) : Taken := ⟨0, 0, env.openCnt, ⟨fun _ => none, [], env.pool.frames⟩⟩

/-- Nothing that was taken is left. -/
def Free (t : Taken) : Prop :=
  t.pages = 0 ∧ t.blocks = 0 ∧ (∀ d, t.space.pagedir d = none) ∧ t.space.used = []

end Taken

/-- `process_execute` with the thread it creates: whether the process starts,
and what is taken then. -/
def processExecute (env : Env) : Except Fault (Bool × Taken) :=
  let (copied, t) := (Taken.init env).pallocGetPage .fnCopy env.fnCopy
  if ¬ copied then .ok (false, t)
  else
    -- thread_create
    let (created, t) := t.pallocGetPage .thread env.thread
    if created then t.startProcess env
    else do
      let t ← t.pallocFreePage .fnCopy
      .ok (false, t)

namespace Taken

variable {env : Env} {t : Taken} {block : Block} {sector : Nat}

/-! ### Pages, blocks and inodes -/

def withPage (t : Taken) (page : KernelPage) : Taken := { t with pages := page ::ₘ t.pages }

def withBlock (t : Taken) (block : Block) : Taken := { t with blocks := block ::ₘ t.blocks }

/-- An inode open once more. -/
def withInode (t : Taken) (sector : Nat) : Taken :=
  { t with
    openCnt := update t.openCnt sector (t.openCnt sector + 1)
    blocks := if t.openCnt sector = 0 then .inode sector ::ₘ t.blocks else t.blocks }

/-- The inode of a function that takes ownership of it. -/
def holding (t : Taken) : Option Nat → Taken
  | none => t
  | some sector => t.withInode sector

theorem pallocGetPage_eq (t : Taken) (page : KernelPage) (avail : Bool) :
    t.pallocGetPage page avail = (avail, if avail then t.withPage page else t) := by
  cases avail <;> rfl

theorem pallocFreePage_withPage (t : Taken) (page : KernelPage) :
    (t.withPage page).pallocFreePage page = .ok t := by
  unfold pallocFreePage withPage
  dsimp only
  rw [if_pos (Multiset.mem_cons_self _ _), Multiset.erase_cons_head]

theorem withPage_comm (page page' : KernelPage) :
    (t.withPage page).withPage page' = (t.withPage page').withPage page := by
  unfold withPage
  dsimp only
  rw [Multiset.cons_swap]

theorem malloc_eq (t : Taken) (block : Block) (avail : Bool) :
    t.malloc block avail = (avail, if avail then t.withBlock block else t) := by
  cases avail <;> rfl

theorem free_withBlock (t : Taken) (block : Block) : (t.withBlock block).free block = .ok t := by
  unfold free withBlock
  dsimp only
  rw [if_pos (Multiset.mem_cons_self _ _), Multiset.erase_cons_head]

theorem freeIf_withBlock (t : Taken) (block : Block) (granted : Bool) :
    (if granted then t.withBlock block else t).freeIf granted block = .ok t := by
  cases granted with
  | false => rfl
  | true => exact free_withBlock t block

theorem withInode_withBlock :
    (t.withBlock block).withInode sector = (t.withInode sector).withBlock block := by
  unfold withInode withBlock
  dsimp only
  by_cases h : t.openCnt sector = 0
  · rw [if_pos h, if_pos h, Multiset.cons_swap]
  · rw [if_neg h, if_neg h]

theorem withInode_comm {sector' : Nat} :
    (t.withInode sector).withInode sector' = (t.withInode sector').withInode sector := by
  by_cases h : sector = sector'
  · rw [h]
  · -- each of the two has a count and a block of its own
    unfold withInode
    simp only [Function.update_of_ne h, Function.update_of_ne (Ne.symm h)]
    rw [Function.update_comm h]
    congr 1
    split <;> split
    · exact Multiset.cons_swap _ _ _
    · rfl
    · rfl
    · rfl

theorem inodeOpen_cases (t : Taken) (sector : Nat) (avail : Bool) :
    t.inodeOpen sector avail = (none, t) ∨
      t.inodeOpen sector avail = (some sector, t.withInode sector) := by
  unfold inodeOpen withInode
  by_cases h : t.openCnt sector = 0
  · rw [if_neg (not_not_intro h), malloc_eq, if_pos h, h]
    cases avail with
    | false => exact Or.inl rfl
    | true => exact Or.inr rfl
  · rw [if_pos h, if_neg h]
    exact Or.inr rfl

theorem inodeClose_holding (t : Taken) (inode : Option Nat) :
    (t.holding inode).inodeClose inode = .ok t := by
  cases inode with
  | none => rfl
  | some sector =>
      show inodeClose (t.withInode sector) (some sector) = .ok t
      unfold inodeClose withInode
      simp only [Function.update_self, Nat.add_sub_cancel, Function.update_idem,
        Function.update_eq_self]
      by_cases h : t.openCnt sector = 0
      · rw [if_pos h, if_pos h]
        exact free_withBlock t _
      · rw [if_neg h, if_neg h]

/-- `dir_open` and `file_open` keep the inode, or give it back. -/
theorem openBlock_cases (t : Taken) (block : Block) (inode : Option Nat) (avail : Bool) :
    (t.holding inode).openBlock block inode avail = .ok (none, t) ∨
      ∃ sector, inode = some sector ∧ (t.holding inode).openBlock block inode avail =
        .ok (some sector, (t.withInode sector).withBlock block) := by
  unfold openBlock
  rw [malloc_eq]
  dsimp only
  by_cases h : inode.isSome ∧ avail
  · obtain ⟨sector, rfl⟩ := Option.isSome_iff_exists.mp h.1
    rw [if_pos h, if_pos h.2]
    exact Or.inr ⟨sector, rfl, rfl⟩
  · left
    -- Without the block or the inode, the other one is given back.
    have hclose : (if avail then (t.holding inode).withBlock block else t.holding inode).inodeClose
        inode = .ok (if avail then t.withBlock block else t) := by
      cases avail with
      | false => exact inodeClose_holding t inode
      | true =>
          rw [if_pos rfl, if_pos rfl, ← inodeClose_holding (t.withBlock block) inode]
          cases inode with
          | none => rfl
          | some sector => exact congrArg (inodeClose · _) withInode_withBlock.symm
    rw [if_neg h, hclose, ok_bind, freeIf_withBlock, ok_bind]

/-- Closing what was opened. -/
theorem closeBlock_open (t : Taken) (block : Block) (sector : Nat) :
    ((t.withInode sector).withBlock block).closeBlock block (some sector) = .ok t := by
  unfold closeBlock
  rw [← withInode_withBlock]
  show (inodeClose (holding _ (some sector)) _ >>= _) = _
  rw [inodeClose_holding, ok_bind, free_withBlock]

theorem dirOpenRoot_cases (env : Env) (t : Taken) :
    dirOpenRoot env t = .ok (none, t) ∨ dirOpenRoot env t =
      .ok (some ROOT_DIR_SECTOR, (t.withInode ROOT_DIR_SECTOR).withBlock .dir) := by
  unfold dirOpenRoot
  rcases inodeOpen_cases t ROOT_DIR_SECTOR env.rootInode with h | h
  · rw [h]
    rcases openBlock_cases t .dir none env.dir with h | ⟨_, h, -⟩
    · exact Or.inl h
    · cases h
  · rw [h]
    rcases openBlock_cases t .dir (some ROOT_DIR_SECTOR) env.dir with h | ⟨_, h, hopen⟩
    · exact Or.inl h
    · cases h
      exact Or.inr hopen

theorem dirLookup_cases (env : Env) (t : Taken) :
    dirLookup env t = (none, t) ∨ ∃ sector file, env.entry = some (sector, file) ∧
      dirLookup env t = (some sector, t.withInode sector) := by
  unfold dirLookup
  cases h : env.entry with
  | none => exact Or.inl rfl
  | some r =>
      rcases inodeOpen_cases t r.1 env.inode with h | h
      · exact Or.inl h
      · exact Or.inr ⟨r.1, r.2, rfl, h⟩

/-- `filesys_open` opens the file, or leaves nothing open. -/
theorem filesysOpen_cases (env : Env) (t : Taken) :
    filesysOpen env t = .ok (none, t) ∨ ∃ sector file, env.entry = some (sector, file) ∧
      filesysOpen env t = .ok (some sector, (t.withInode sector).withBlock .file) := by
  -- the call of `file_open`, which closes the inode again if it fails
  have hopen : ∀ inode, inode = none ∨ (∃ sector file, env.entry = some (sector, file) ∧
      inode = some sector) →
      (t.holding inode).openBlock .file inode env.file = .ok (none, t) ∨
        ∃ sector file, env.entry = some (sector, file) ∧
          (t.holding inode).openBlock .file inode env.file =
            .ok (some sector, (t.withInode sector).withBlock .file) := by
    intro inode hinode
    rcases openBlock_cases t .file inode env.file with h | ⟨sector, rfl, h⟩
    · exact Or.inl h
    · rcases hinode with hnone | ⟨_, file, hentry, hsome⟩
      · cases hnone
      · cases hsome
        exact Or.inr ⟨sector, file, hentry, h⟩
  unfold filesysOpen
  rcases dirOpenRoot_cases env t with h | h
  · rw [h]
    exact hopen none (Or.inl rfl)
  · rw [h, ok_bind]
    dsimp only [Option.isSome_some]
    rw [if_pos rfl]
    rcases dirLookup_cases env ((t.withInode ROOT_DIR_SECTOR).withBlock .dir) with
      h | ⟨sector, file, hentry, h⟩
    · rw [h]
      dsimp only
      rw [closeBlock_open, ok_bind]
      exact hopen none (Or.inl rfl)
    · -- The directory was opened before the file's inode and is closed before it. They
      -- may be the same inode.
      rw [h]
      dsimp only
      rw [withInode_withBlock, withInode_comm, closeBlock_open, ok_bind]
      exact hopen (some sector) (Or.inr ⟨sector, file, hentry, rfl⟩)

end Taken

/-! ### The frames of a load that fails -/

section Frames

variable {m m' : Mm} {kpage : Nat} {pool : List Nat} {tables : Nat → Bool}

/-- What holds of an address space wherever `load` stops: the frames in use are
those of the mapped pages. -/
structure Owned (m : Mm) : Prop where
  sound : m.Sound
  fresh : m.Fresh
  noLeak : m.NoLeak

/-- Frames that were handed out and given back leave no trace but in the pool. -/
theorem Owned.congr (h : Owned m) (hpage : m'.page = m.page) (hused : m'.used = m.used)
    (hpool : m'.pool.Sublist m.pool) : Owned m' where
  sound :=
    { user := by
        rw [hpage]
        exact h.sound.user
      nodup := by
        rw [hused]
        exact h.sound.nodup
      used := by
        rw [hpage, hused]
        exact h.sound.used
      inj := by
        rw [hpage]
        exact h.sound.inj }
  fresh :=
    { nodup := h.fresh.nodup.sublist hpool
      fresh := fun f hf => by
        rw [hused]
        exact h.fresh.fresh f (hpool.subset hf) }
  noLeak := by
    intro f hf
    rw [hused] at hf
    rw [hpage]
    exact h.noLeak f hf

theorem vmPallocFreePage_eq_ok (h : m.pallocFreePage (some (kpage, 0)) = .ok m') :
    m' = { m with used := m.used.erase kpage } := by
  unfold Mm.pallocFreePage at h
  dsimp only at h
  rw [if_neg (by simp)] at h
  split at h
  · exact (Except.ok.inj h).symm
  · cases h

/-- `install_page` of a frame the pool has just handed out maps it, or the caller
has to free it. -/
theorem Owned.installPage (hm : Owned m) (hpool : m.pool = kpage :: pool) {upage : Nat}
    {writable avail : Bool} :
    Ensures (Mm.installPage { m with used := kpage :: m.used, pool } upage kpage writable avail)
      fun r => if r.1 then Owned r.2 else
        ∀ m', r.2.pallocFreePage (some (kpage, 0)) = .ok m' → Owned m' := by
  have hfree : ∀ pagedir : PageDir, pagedir.page = m.page → ∀ m',
      Mm.pallocFreePage ⟨pagedir, kpage :: m.used, pool⟩ (some (kpage, 0)) = .ok m' → Owned m' := by
    intro pagedir hpage m' h
    rw [vmPallocFreePage_eq_ok h]
    refine hm.congr hpage (List.erase_cons_head _ _) ?_
    rw [hpool]
    exact List.sublist_cons_self _ _
  intro r h
  unfold Mm.installPage at h
  obtain ⟨old, hget, h⟩ := bind_eq_ok h
  split at h
  · cases h
    exact hfree m.pagedir rfl
  · rename_i hold
    obtain ⟨⟨b, pd'⟩, hset, h⟩ := bind_eq_ok h
    cases h
    -- the page directory accepts an aligned address in user space
    by_cases hofs : pgOfs upage = 0
    · obtain ⟨p, rfl⟩ : ∃ p, upage = pageAddr p := ⟨pgNo upage, (pageAddr_pgNo hofs).symm⟩
      by_cases hp : p < userPages ∧ m.pagedir.page p = none
      · obtain ⟨b', pd, hset', -, hsound, hfresh, hpage, -⟩ :=
          hm.sound.setPage_page hm.fresh hpool hp.1 hp.2 writable avail
        rw [hset'] at hset
        cases hset
        cases b with
        | false => exact hfree pd' hpage
        | true => exact ⟨hsound, hfresh, hm.noLeak.cons hp.2 hpage rfl⟩
      · obtain ⟨e, hpanic⟩ := PageDir.setPage_panics hp
        rw [hpanic] at hset
        cases hset
    · unfold PageDir.setPage at hset
      rw [if_pos hofs] at hset
      cases hset

end Frames

namespace Loader

/-- An address space with its frames mapped, whether or not `load` goes on. -/
def KeepsFrames {α : Type} (x : Except Fault (α × Loader)) : Prop := Ensures x fun r => Owned r.2.mm

variable {s : Loader} {tables : Nat → Bool}

theorem fileSeek_owned (hs : Owned s.mm) (newPos : Int) :
    Ensures (s.fileSeek newPos) fun s' => Owned s'.mm := by
  unfold fileSeek
  split
  · exact Ensures.error
  · exact Ensures.ok hs

theorem pallocFreePage_vm {s' : Loader} (h : s.pallocFreePage kpage = .ok s') :
    s.mm.pallocFreePage (some (kpage, 0)) = .ok s'.mm := by
  obtain ⟨mm, hfree, h⟩ := bind_eq_ok h
  cases h
  cases hvm : s.mm.pallocFreePage (some (kpage, 0)) with
  | error e =>
      rw [hvm] at hfree
      cases hfree
  | ok m =>
      rw [hvm] at hfree
      cases hfree
      rfl

/-- A frame is taken, filled and installed; where that fails it is freed. -/
theorem installPage_owned {mm : Mm} (hm : Owned mm) {kpage : Nat} {pool : List Nat}
    (hpool : mm.pool = kpage :: pool) (hs : s.mm = { mm with used := kpage :: mm.used, pool })
    (upage : Nat) (writable avail : Bool) :
    Ensures (s.installPage upage kpage writable avail) fun r =>
      if r.1 then Owned r.2.mm else
        Ensures (r.2.pallocFreePage kpage) fun s' => Owned s'.mm := by
  intro r h
  obtain ⟨⟨b, m'⟩, hinst, h⟩ := bind_eq_ok h
  cases h
  rw [hs] at hinst
  cases hvm : Mm.installPage { mm with used := kpage :: mm.used, pool } upage kpage writable avail with
  | error e =>
      rw [hvm] at hinst
      cases hinst
  | ok r =>
      rw [hvm] at hinst
      cases hinst
      have hr := hm.installPage hpool _ hvm
      cases b with
      | true => exact hr
      | false => exact fun s' hfree => hr s'.mm (pallocFreePage_vm hfree)

/-- One page of a segment after another, by induction on the pages that are left. A read that
comes out short frees the frame of its page; the frames of the pages before it are mapped. -/
theorem loadPages_owned {n upage readBytes zeroBytes : Nat} {writable : Bool} (hs : Owned s.mm) :
    KeepsFrames (loadPages tables writable n s upage readBytes zeroBytes) := by
  induction n generalizing s upage readBytes zeroBytes with
  | zero =>
      unfold loadPages
      split
      · exact Ensures.ok hs
      · exact Ensures.error
  | succ n ih =>
      unfold loadPages
      split
      · exact Ensures.ok hs
      · dsimp only
        generalize (if readBytes < PGSIZE then readBytes else PGSIZE) = pageReadBytes
        obtain hnone | ⟨kpage, pool, hpool, hget⟩ := pallocGetPage_cases s
        · rw [hnone]
          exact Ensures.ok hs
        · rw [hget]
          dsimp only
          obtain ⟨buffer, file, hread, -⟩ := fileRead_spec
            { s with mm := { s.mm with used := kpage :: s.mm.used, pool } } pageReadBytes
          rw [hread]
          dsimp only
          split
          · -- a short read
            refine Ensures.bind (fun s' hfree => ?_) fun s' hs' => Ensures.ok hs'
            rw [vmPallocFreePage_eq_ok (pallocFreePage_vm hfree)]
            refine hs.congr rfl (List.erase_cons_head _ _) ?_
            rw [hpool]
            exact List.sublist_cons_self _ _
          · -- the page is in, or its frame is freed
            refine Ensures.bind (installPage_owned hs hpool rfl _ _ _) fun r hr => ?_
            obtain ⟨success, s₂⟩ := r
            cases success with
            | false =>
                exact Ensures.bind hr fun s' hs' => Ensures.ok hs'
            | true =>
                refine Ensures.bind (Ensures.any _) fun readBytes' _ => ?_
                refine Ensures.bind (Ensures.any _) fun zeroBytes' _ => ?_
                refine Ensures.bind (Ensures.any _) fun upage' _ => ?_
                exact ih hr

theorem loadSegment_owned {ofs : Int} {upage readBytes zeroBytes : Nat} {writable : Bool}
    (hs : Owned s.mm) :
    KeepsFrames (loadSegment tables s ofs upage readBytes zeroBytes writable) := by
  unfold loadSegment
  refine Ensures.bind (Ensures.any _) fun total _ => ?_
  split
  · exact Ensures.error
  · split
    · exact Ensures.error
    · split
      · exact Ensures.error
      · exact Ensures.bind (fileSeek_owned hs ofs) fun s' hs' => loadPages_owned hs'

theorem loadPhdr_owned {phdr : Phdr} (hs : Owned s.mm) : KeepsFrames (loadPhdr tables s phdr) := by
  unfold loadPhdr
  split
  · refine Ensures.bind (Ensures.any _) fun memEnd _ => ?_
    refine Ensures.bind (Ensures.any _) fun total _ => ?_
    split
    · refine Ensures.bind (Ensures.any _) fun readBytes _ => ?_
      refine Ensures.bind (Ensures.any _) fun zeroBytes _ => ?_
      exact loadSegment_owned hs
    · exact loadSegment_owned hs
  · exact Ensures.ok hs

/-- One program header after another, by induction on how many are left. -/
theorem loadPhdrs_owned {n : Nat} {fileOfs : Int} (hs : Owned s.mm) :
    KeepsFrames (loadPhdrs tables n s fileOfs) := by
  induction n generalizing s fileOfs with
  | zero => exact Ensures.ok hs
  | succ n ih =>
      unfold loadPhdrs
      split
      · exact Ensures.ok hs
      · refine Ensures.bind (fileSeek_owned hs fileOfs) fun s₁ hs₁ => ?_
        obtain ⟨buffer, file, hread, -⟩ := fileRead_spec s₁ sizeofPhdr
        rw [hread]
        dsimp only
        have hs₂ : Owned { s₁ with file }.mm := hs₁
        split
        · exact Ensures.ok hs₂
        · refine Ensures.bind (Ensures.any _) fun fileOfs' _ => ?_
          split
          · exact Ensures.ok hs₂
          · split
            · refine Ensures.bind (loadPhdr_owned hs₂) fun r hr => ?_
              obtain ⟨success, s₃⟩ := r
              cases success with
              | false => exact Ensures.ok hr
              | true => exact ih hr
            · exact ih hs₂

theorem setupStack_owned (hs : Owned s.mm) : KeepsFrames (setupStack tables s) := by
  unfold setupStack
  obtain hnone | ⟨kpage, pool, hpool, hget⟩ := pallocGetPage_cases s
  · rw [hnone]
    exact Ensures.ok hs
  · rw [hget]
    refine Ensures.bind (Ensures.any _) fun upage _ => ?_
    refine Ensures.bind (installPage_owned hs hpool rfl _ _ _) fun r hr => ?_
    obtain ⟨success, s₁⟩ := r
    cases success with
    | false => exact Ensures.bind hr fun s' hs' => Ensures.ok hs'
    | true => exact Ensures.ok hr

/-- Wherever `load` stops, its frames are those of the mapped pages. -/
theorem loadFile_owned (hs : Owned s.mm) : KeepsFrames (loadFile tables s) := by
  obtain ⟨buffer, file, hread, -⟩ := fileRead_spec s sizeofEhdr
  have hs₁ : Owned { s with file }.mm := hs
  unfold loadFile
  rw [hread]
  dsimp only
  split
  · exact Ensures.ok hs₁
  · refine Ensures.bind (loadPhdrs_owned hs₁) fun r hr => ?_
    obtain ⟨success, s₂⟩ := r
    cases success with
    | false => exact Ensures.ok hr
    | true =>
        refine Ensures.bind (setupStack_owned hr) fun r hr => ?_
        obtain ⟨success, s₃⟩ := r
        cases success with
        | false => exact Ensures.ok hr
        | true => exact Ensures.ok hr

/-- `load` is `pagedir_create`, the opening of the file and `loadFile`. -/
theorem load_eq_loadFile (pool : FreePages) (tables : Nat → Bool) (phys : Nat → Nat → UInt8)
    (file : OpenFile) : load true pool tables phys (some file) = (do
      let (entry, s) ← loadFile tables
        ⟨⟨fun _ => none, [], pool.frames⟩, phys, file.atStart⟩
      .ok (entry.map fun (eip, esp) => (s, eip, esp))) := by
  have hstart : file.atStart = { file with pos := 0 } := rfl
  rw [hstart]
  unfold load loadFile
  rw [if_neg (by decide)]
  dsimp only
  split
  · rfl
  · generalize loadPhdrs _ _ _ _ = phdrs
    cases phdrs with
    | error e => rfl
    | ok r =>
        obtain ⟨success, s⟩ := r
        cases success with
        | false => rfl
        | true =>
            simp only [ok_bind, not_true_eq_false, if_false]
            cases setupStack tables s with
            | error e => rfl
            | ok r =>
                obtain ⟨success, s'⟩ := r
                cases success with
                | false => rfl
                | true => rfl

/-- It ends without a fault. -/
theorem loadFile_ok (pool : FreePages) (tables : Nat → Bool) (phys : Nat → Nat → UInt8)
    (file : OpenFile) : ∃ entry s, loadFile tables
      ⟨⟨fun _ => none, [], pool.frames⟩, phys, file.atStart⟩ = .ok (entry, s) := by
  obtain ⟨r, hload, -⟩ := load_safe true pool tables phys (some file)
  rw [load_eq_loadFile] at hload
  obtain ⟨⟨entry, s⟩, hrun, -⟩ := bind_eq_ok hload
  exact ⟨entry, s, hrun⟩

end Loader

/-! ### What a failed start leaves -/

/-- The new process gets a page directory. -/
def Env.HasPagedir (env : Env) : Prop := env.fnCopy ∧ env.thread ∧ env.pcb ∧ env.pagedir

namespace Taken

variable {env : Env} {t : Taken}

theorem load_no_pagedir (h : env.pagedir = false) (t : Taken) : load env t = .ok (false, t) := by
  unfold load
  rw [pallocGetPage_eq, h]
  rfl

/-- `load` gives back what it takes to open and read the file, whether it succeeds
or not, and nothing else. -/
theorem load_pagedir (h : env.pagedir = true)
    (ht : t.space = ⟨fun _ => none, [], env.pool.frames⟩) :
    ∃ success space, Owned space ∧
      load env t = .ok (success, { t.withPage .pagedir with space }) := by
  have hempty : Owned t.space := by
    rw [ht]
    have hgood := Loader.start_good env.pool env.phys ⟨⟨[], 0, by decide⟩, []⟩
    exact ⟨hgood.sound, hgood.fresh, fun f hf => absurd hf List.not_mem_nil⟩
  unfold load
  rw [pallocGetPage_eq, h]
  dsimp only
  rw [if_neg (by decide), if_pos rfl]
  rcases filesysOpen_cases env (t.withPage .pagedir) with hopen | ⟨sector, file, hentry, hopen⟩
  · rw [hopen]
    exact ⟨false, t.space, hempty, rfl⟩
  · -- the file is closed at `done:`, wherever the loading stopped
    obtain ⟨entry, s, hload⟩ := Loader.loadFile_ok env.pool env.tables env.phys file
    have hspace : (((t.withPage .pagedir).withInode sector).withBlock .file).space = _ := ht
    have howned : Owned s.mm := @Loader.loadFile_owned ⟨t.space, env.phys, file.atStart⟩
      env.tables hempty (entry, s) (ht ▸ hload)
    refine ⟨entry.isSome, s.mm, howned, ?_⟩
    rw [hopen, ok_bind, hentry]
    dsimp only
    rw [hspace, hload, ok_bind]
    dsimp only
    have hclose := closeBlock_open { t.withPage .pagedir with space := s.mm } .file sector
    exact congrArg (· >>= _) hclose

/-- The end of `start_process` on failure. -/
theorem exit_eq (t : Taken) : (do
      let t ← ((t.withPage .fnCopy).withPage .thread).pallocFreePage .fnCopy
      let t ← t.threadExit
      .ok (false, t)) = (.ok (false, t) : Except Fault (Bool × Taken)) := by
  rw [withPage_comm, pallocFreePage_withPage, ok_bind]
  unfold threadExit
  rw [pallocFreePage_withPage, ok_bind]

/-- `start_process` without a page directory: the copy of the name and the thread
are freed, and the PCB if there is one. -/
theorem startProcess_no_pagedir (h : ¬ (env.pcb ∧ env.pagedir)) (t : Taken) :
    startProcess env ((t.withPage .fnCopy).withPage .thread) = .ok (false, t) := by
  unfold startProcess
  rw [malloc_eq]
  cases hpcb : env.pcb with
  | false => exact exit_eq t
  | true =>
      have hpagedir : env.pagedir = false := Bool.eq_false_iff.mpr fun hpd => h ⟨hpcb, hpd⟩
      dsimp only
      rw [if_pos rfl, if_pos rfl, load_no_pagedir hpagedir, ok_bind]
      show (free _ _ >>= _) = _
      rw [free_withBlock, ok_bind]
      exact exit_eq t

/-- What is kept once there was a page directory: if the process runs, all but the
copy of the name. -/
def kept (t : Taken) (space : Mm) : Bool → Taken
  | true => (({ t with space }.withBlock .pcb).withPage .thread).withPage .pagedir
  | false => { t with space }.withPage .pagedir

/-- With a page directory: on failure, it and all it refers to stay. -/
theorem startProcess_pagedir (hpcb : env.pcb) (hpagedir : env.pagedir)
    (ht : t.space = ⟨fun _ => none, [], env.pool.frames⟩) :
    ∃ started space, Owned space ∧
      startProcess env ((t.withPage .fnCopy).withPage .thread) =
        .ok (started, t.kept space started) := by
  obtain ⟨success, space, howned, hload⟩ := @load_pagedir env
    (((t.withPage .fnCopy).withPage .thread).withBlock .pcb) hpagedir ht
  refine ⟨success, space, howned, ?_⟩
  unfold startProcess
  rw [malloc_eq, hpcb]
  dsimp only
  rw [if_pos rfl, if_pos rfl, hload, ok_bind]
  cases success with
  | true =>
      -- the user program runs
      show (Taken.pallocFreePage ((({ t with space }.withBlock .pcb).withPage .fnCopy).withPage
        .thread |>.withPage .pagedir) .fnCopy >>= _) = _
      rw [withPage_comm .fnCopy, withPage_comm .fnCopy, pallocFreePage_withPage]
      rfl
  | false =>
      show (free (({ t with space }.withPage .fnCopy).withPage .thread
        |>.withPage .pagedir |>.withBlock .pcb) .pcb >>= _) = _
      rw [free_withBlock, ok_bind, withPage_comm .thread, withPage_comm .fnCopy]
      exact exit_eq ({ t with space }.withPage .pagedir)

/-- What a call of `process_execute` takes and keeps, whichever requests are
granted. -/
theorem processExecute_cases (env : Env) :
    (¬ env.HasPagedir ∧ processExecute env = .ok (false, init env)) ∨
      (env.HasPagedir ∧ ∃ started space, Owned space ∧
        processExecute env = .ok (started, (init env).kept space started)) := by
  unfold processExecute Env.HasPagedir
  rw [pallocGetPage_eq]
  dsimp only
  cases env.fnCopy with
  | false => exact Or.inl ⟨by simp, rfl⟩
  | true =>
      rw [if_neg (by decide), if_pos rfl, pallocGetPage_eq]
      dsimp only
      cases env.thread with
      | false =>
          refine Or.inl ⟨by simp, ?_⟩
          rw [if_neg (by decide), if_neg (by decide), pallocFreePage_withPage]
          rfl
      | true =>
          rw [if_pos rfl, if_pos rfl]
          by_cases h : env.pcb ∧ env.pagedir
          · exact Or.inr ⟨⟨rfl, rfl, h⟩, startProcess_pagedir h.1 h.2 rfl⟩
          · exact Or.inl ⟨fun hall => h hall.2.2, startProcess_no_pagedir h _⟩

theorem init_free (env : Env) : (init env).Free := ⟨rfl, rfl, fun _ => rfl, rfl⟩

theorem kept_not_free (t : Taken) (space : Mm) (started : Bool) :
    ¬ (t.kept space started).Free := by
  intro hfree
  cases started with
  | false => exact Multiset.cons_ne_zero hfree.1
  | true => exact Multiset.cons_ne_zero hfree.1

end Taken

open Taken

/-- **Exactly the page directory is lost.** `process_execute` gets to an end
whatever is granted and whatever the file holds. Where the process does not
start, all its memory is free again if and only if it never had a page
directory. -/
theorem failed_start_free_iff (env : Env) :
    ∃ started t, processExecute env = .ok (started, t) ∧
      (started = false → (t.Free ↔ ¬ env.HasPagedir)) := by
  obtain ⟨hnone, hrun⟩ | ⟨hsome, started, space, -, hrun⟩ := processExecute_cases env
  · exact ⟨false, init env, hrun, fun _ => iff_of_true (init_free env) hnone⟩
  · exact ⟨started, _, hrun, fun _ => iff_of_false (kept_not_free _ _ _) (not_not_intro hsome)⟩

/-- What is lost: the page directory with its page tables, and frames that are all
mapped in it, so that `pagedir_destroy` would free them. The PCB, the thread, the
copy of the name, the file and its inode are free. -/
theorem failed_start_left {env : Env} {t : Taken} (hpagedir : env.HasPagedir)
    (hrun : processExecute env = .ok (false, t)) :
    t.pages = {.pagedir} ∧ t.blocks = 0 ∧ t.openCnt = env.openCnt ∧ t.space.Sound ∧
      t.space.NoLeak := by
  obtain ⟨hnone, -⟩ | ⟨-, started, space, howned, hrun'⟩ := processExecute_cases env
  · exact absurd hpagedir hnone
  · rw [hrun'] at hrun
    obtain ⟨rfl, rfl⟩ := Prod.mk.inj (Except.ok.inj hrun)
    exact ⟨rfl, rfl, rfl, howned.sound, howned.noLeak⟩

/-- Every request is granted, and no file has the name. -/
def missing : Env where
  fnCopy := true
  thread := true
  pcb := true
  pagedir := true
  rootInode := true
  dir := true
  inode := true
  file := true
  tables := fun _ => true
  pool := ⟨[1], by decide⟩
  phys := fun _ _ => 0
  entry := none
  openCnt := fun _ => 0

theorem missing_not_free : ∃ t, processExecute missing = .ok (false, t) ∧ ¬ t.Free := by
  have hfail : (processExecute missing).toOption.map Prod.fst = some false := rfl
  obtain ⟨hnone, -⟩ | ⟨-, started, space, -, hrun⟩ := processExecute_cases missing
  · exact absurd ⟨rfl, rfl, rfl, rfl⟩ hnone
  · rw [hrun] at hfail
    cases hfail
    exact ⟨_, hrun, kept_not_free _ _ _⟩

/-- The frame of the only page is lost where the stack does not get one. -/
example : (processExecute { missing with
    entry := some (2, ⟨program 0x08048000, []⟩) }).toOption.map
      (fun r => (r.1, r.2.space.used)) = some (false, [1]) := by decide +kernel

end OsTools.Userprog

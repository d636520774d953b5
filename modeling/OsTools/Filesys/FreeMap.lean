import OsTools.Filesys.Inode
/-!
# OsTools.Filesys.FreeMap

The functions of `filesys/inode.c`, `filesys/free-map.c`, `filesys/file.c` and
the first half of `filesys/directory.c` that allocate sectors and count
references: creating, opening, closing and removing inodes, files and
directories, and the free map that is itself stored in a file.

A `struct file` and a `struct dir` are values here: the caller holds them, and
an operation that changes one returns it. Freeing memory has no effect on the
model but for a `struct inode`, which leaves the list of open inodes; a pointer
to it that is still used after that is a `fault`.

Where a function calls another one that takes ownership of its argument (`file_open`, `dir_open`),
both the branch that keeps the reference and the one that drops it are here; what they do to the
counts is proved in `Filesys.Handles`.
-/

namespace OsTools.Filesys

open OsTools.Kernel

/-- `struct dir`. -/
structure Dir where
  inode : Nat
  pos : Nat
  deriving DecidableEq

/-- The sector of the free map's inode. -/
def FREE_MAP_SECTOR : Nat := 0

/-- The sector of the root directory's inode. -/
def ROOT_DIR_SECTOR : Nat := 1

/-- `bytes_to_sectors`: the sum is an `int`, and the quotient becomes a `size_t`. -/
def bytesToSectors (size : Int) : Nat :=
  toUInt32 ((toInt32 (toUInt32 (size + BLOCK_SECTOR_SIZE - 1))).tdiv BLOCK_SECTOR_SIZE)

namespace Fs

/-! ### Inodes by address -/

/-- Replace the fields of the inode at the address of `i`. -/
def setInode (s : Fs) (i : Inode) : Fs :=
  { s with openInodes := s.openInodes.map fun j => if j.id = i.id then i else j }

/-- `inode_reopen`. -/
def inodeReopen (s : Fs) : Option Nat → Except Stop Fs
  | none => .ok s
  | some id => do
      let i ← s.inode id
      .ok (s.setInode { i with openCnt := incInt i.openCnt })

/-- `inode_remove`. -/
def inodeRemove (s : Fs) (id : Nat) : Except Stop Fs := do
  let i ← s.inode id
  .ok (s.setInode { i with removed := true })

/-- `inode_deny_write`. -/
def inodeDenyWrite (s : Fs) (id : Nat) : Except Stop Fs := do
  let i ← s.inode id
  let i := { i with denyWriteCnt := incInt i.denyWriteCnt }
  if i.denyWriteCnt ≤ i.openCnt then .ok (s.setInode i) else .error .assertion

/-- `inode_allow_write`. -/
def inodeAllowWrite (s : Fs) (id : Nat) : Except Stop Fs := do
  let i ← s.inode id
  if ¬ 0 < i.denyWriteCnt then .error .assertion
  else if ¬ i.denyWriteCnt ≤ i.openCnt then .error .assertion
  else .ok (s.setInode { i with denyWriteCnt := decInt i.denyWriteCnt })

/-! ### The free map -/

/-- `file_read_at`. -/
def fileReadAt (s : Fs) (file : File) (buffer : Mem) (size ofs : Nat) :
    Except Stop (Fs × Mem × Nat) := s.inodeReadAt file.inode buffer size ofs

/-- `file_write_at`. -/
def fileWriteAt (s : Fs) (file : File) (buffer : Mem) (size ofs : Nat) :
    Except Stop (Fs × Nat) := s.inodeWriteAt file.inode buffer size ofs

/-- `bitmap_write`. -/
def bitmapWrite (s : Fs) (b : Bitmap) (file : Option File) : Except Stop (Fs × Bool) :=
  match file with
  | none => .error .fault
  | some file => do
      let size := byteCnt b.bitCnt
      let (s, n) ← s.fileWriteAt file b.bits size 0
      .ok (s, n = size)

/-- `bitmap_read`. -/
def bitmapRead (s : Fs) (b : Bitmap) (file : File) : Except Stop (Fs × Bitmap × Bool) :=
  if 0 < b.bitCnt then do
    let size := byteCnt b.bitCnt
    let (s, bits, n) ← s.fileReadAt file b.bits size 0
    .ok (s, b.readFrom n bits, n = size)
  else .ok (s, b, true)

/-- `free_map_allocate`. -/
def freeMapAllocate (s : Fs) (cnt : Nat) : Except Stop (Fs × Option Nat) := do
  let (freeMap, sector) ← s.freeMap.scanAndFlip 0 cnt false
  let s := { s with freeMap }
  match sector, s.freeMapFile with
  | some sector, some file => do
      let (s, ok) ← s.bitmapWrite s.freeMap (some file)
      if ok then .ok (s, some sector)
      else
        let freeMap ← s.freeMap.setMultiple sector cnt false
        .ok ({ s with freeMap }, none)
  | sector, _ => .ok (s, sector)

/-- `free_map_release`. -/
def freeMapRelease (s : Fs) (sector cnt : Nat) : Except Stop Fs := do
  let all ← s.freeMap.all sector cnt
  if ¬ all then .error .assertion
  else
    let freeMap ← s.freeMap.setMultiple sector cnt false
    let s := { s with freeMap }
    let (s, _) ← s.bitmapWrite s.freeMap s.freeMapFile
    .ok s

/-! ### Creating, opening and closing inodes -/

/-- The loop of `inode_create` that clears the data sectors. -/
def zeroLoop : Nat → Fs → Nat → Except Stop Fs
  | 0, s, _ => .ok s
  | n + 1, s, sector => do
      let s ← s.blockWrite sector fun _ => 0
      zeroLoop n s (sector + 1)

/-- `inode_create`. -/
def inodeCreate (s : Fs) (sector : Nat) (length : Int) : Except Stop (Fs × Bool) :=
  if length < 0 then .error .assertion
  else
    match s.malloc with
    | (false, s) => .ok (s, false)
    | (true, s) => do
        let sectors := bytesToSectors length
        match ← s.freeMapAllocate sectors with
        | (s, none) => .ok (s, false)
        | (s, some start) =>
            let s ← s.blockWrite sector (InodeDisk.encode ⟨start, length, INODE_MAGIC⟩)
            let s ← zeroLoop sectors s start
            .ok (s, true)

/-- `inode_open`. -/
def inodeOpen (s : Fs) (sector : Nat) : Except Stop (Fs × Option Nat) :=
  match s.openInodes.find? fun i => i.sector = sector with
  | some i => do
      let s ← s.inodeReopen (some i.id)
      .ok (s, some i.id)
  | none =>
      match s.malloc with
      | (false, s) => .ok (s, none)
      | (true, s) => do
          let data ← s.blockRead sector
          let i : Inode := ⟨s.nextId, sector, 1, false, 0, InodeDisk.decode data⟩
          .ok ({ s with openInodes := i :: s.openInodes, nextId := s.nextId + 1 }, some i.id)

/-- `inode_close`. -/
def inodeClose (s : Fs) : Option Nat → Except Stop Fs
  | none => .ok s
  | some id => do
      let i ← s.inode id
      let i := { i with openCnt := decInt i.openCnt }
      if i.openCnt = 0 then
        let s := { s with openInodes := s.openInodes.filter fun j => j.id ≠ id }
        if i.removed then
          let s ← s.freeMapRelease i.sector 1
          s.freeMapRelease i.data.start (bytesToSectors i.data.length)
        else .ok s
      else .ok (s.setInode i)

/-! ### Files -/

/-- `file_open`, which takes the reference to the inode over. -/
def fileOpen (s : Fs) (inode : Option Nat) : Except Stop (Fs × Option File) :=
  match s.malloc, inode with
  | (true, s), some id => .ok (s, some ⟨id, 0, false⟩)
  | (_, s), inode => do
      let s ← s.inodeClose inode
      .ok (s, none)

/-- `file_reopen`. -/
def fileReopen (s : Fs) (file : File) : Except Stop (Fs × Option File) := do
  let s ← s.inodeReopen (some file.inode)
  s.fileOpen (some file.inode)

/-- `file_deny_write`. -/
def fileDenyWrite (s : Fs) (file : File) : Except Stop (Fs × File) :=
  if ¬ file.denyWrite then do
    let s ← s.inodeDenyWrite file.inode
    .ok (s, { file with denyWrite := true })
  else .ok (s, file)

/-- `file_allow_write`. -/
def fileAllowWrite (s : Fs) (file : File) : Except Stop (Fs × File) :=
  if file.denyWrite then do
    let s ← s.inodeAllowWrite file.inode
    .ok (s, { file with denyWrite := false })
  else .ok (s, file)

/-- `file_close`. -/
def fileClose (s : Fs) : Option File → Except Stop Fs
  | none => .ok s
  | some file => do
      let (s, file) ← s.fileAllowWrite file
      s.inodeClose (some file.inode)

/-- `file_read`. -/
def fileRead (s : Fs) (file : File) (buffer : Mem) (size : Nat) :
    Except Stop (Fs × File × Mem × Nat) := do
  let (s, buffer, n) ← s.inodeReadAt file.inode buffer size file.pos
  .ok (s, { file with pos := file.pos + n }, buffer, n)

/-- `file_write`. -/
def fileWrite (s : Fs) (file : File) (buffer : Mem) (size : Nat) :
    Except Stop (Fs × File × Nat) := do
  let (s, n) ← s.inodeWriteAt file.inode buffer size file.pos
  .ok (s, { file with pos := file.pos + n }, n)

/-- `file_length`. -/
def fileLength (s : Fs) (file : File) : Except Stop Int := do
  let i ← s.inode file.inode
  .ok i.data.length

/-! ### Directories -/

/-- `dir_open`, which takes the reference to the inode over. -/
def dirOpen (s : Fs) (inode : Option Nat) : Except Stop (Fs × Option Dir) :=
  match s.malloc, inode with
  | (true, s), some id => .ok (s, some ⟨id, 0⟩)
  | (_, s), inode => do
      let s ← s.inodeClose inode
      .ok (s, none)

/-- `dir_open_root`. -/
def dirOpenRoot (s : Fs) : Except Stop (Fs × Option Dir) := do
  let (s, inode) ← s.inodeOpen ROOT_DIR_SECTOR
  s.dirOpen inode

/-- `dir_reopen`. -/
def dirReopen (s : Fs) (dir : Dir) : Except Stop (Fs × Option Dir) := do
  let s ← s.inodeReopen (some dir.inode)
  s.dirOpen (some dir.inode)

/-- `dir_close`. -/
def dirClose (s : Fs) : Option Dir → Except Stop Fs
  | none => .ok s
  | some dir => s.inodeClose (some dir.inode)

end Fs

end OsTools.Filesys

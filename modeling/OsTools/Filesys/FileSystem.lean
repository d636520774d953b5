import OsTools.Filesys.DirOps
/-!
# OsTools.Filesys.FileSystem

`filesys/filesys.c` and the rest of `filesys/free-map.c`: creating, opening and
removing files by name in the root directory, and formatting, booting and shutting
down the file system.

`garbage` is what is in uninitialised memory: the bits of a new bitmap, the local
directory entries.

`filesys_create` evaluates a conjunction from left to right and undoes the allocation of the
inode's sector behind it. `createIn` is the conjunction, with the state it stops in, and
`undoCreate` is the statement behind it. The data sectors that `inode_create` may have allocated
by then are not given back, in the source as here.

`Tree` is what all of these functions keep of the root directory. It speaks of the entries on the
device and of the inodes they lead to, so that a change elsewhere keeps it (`Tree.keep`), and a
change of the references alone does (`Tree.refs`).
-/

namespace OsTools.Filesys

open OsTools.Kernel

/-- The number of entries that `do_format` makes room for in the root directory. -/
def ROOT_ENTRIES : Nat := 16

namespace Fs

/-! ### Files by name -/

/-- The condition in `filesys_create`: the sector that was allocated, or 0, and
whether all steps succeeded. -/
def createIn (s : Fs) (name : Name) (initialSize : Int) (garbage : Mem) :
    Option Dir → Except Stop (Fs × Nat × Bool)
  | none => .ok (s, 0, false)
  | some dir => do
      match ← s.freeMapAllocate 1 with
      | (s, none) => .ok (s, 0, false)
      | (s, some inodeSector) =>
          match ← s.inodeCreate inodeSector initialSize with
          | (s, false) => .ok (s, inodeSector, false)
          | (s, true) =>
              let (s, ok) ← s.dirAdd dir name inodeSector garbage
              .ok (s, inodeSector, ok)

/-- `if (!success && inode_sector != 0) free_map_release (inode_sector, 1)`. -/
def undoCreate (s : Fs) (inodeSector : Nat) (success : Bool) : Except Stop Fs :=
  if ¬ success ∧ inodeSector ≠ 0 then s.freeMapRelease inodeSector 1 else .ok s

/-- `filesys_create`. -/
def filesysCreate (s : Fs) (name : Name) (initialSize : Int) (garbage : Mem) :
    Except Stop (Fs × Bool) := do
  let (s, dir) ← s.dirOpenRoot
  let (s, inodeSector, success) ← s.createIn name initialSize garbage dir
  let s ← s.undoCreate inodeSector success
  let s ← s.dirClose dir
  .ok (s, success)

/-- `filesys_open`. -/
def filesysOpen (s : Fs) (name : Name) (garbage : Mem) : Except Stop (Fs × Option File) := do
  match ← s.dirOpenRoot with
  | (s, none) => s.fileOpen none
  | (s, some dir) =>
      let (s, inode) ← s.dirLookup dir name garbage
      let s ← s.dirClose (some dir)
      s.fileOpen inode

/-- `filesys_remove`. -/
def filesysRemove (s : Fs) (name : Name) (garbage : Mem) : Except Stop (Fs × Bool) := do
  match ← s.dirOpenRoot with
  | (s, none) => .ok (s, false)
  | (s, some dir) =>
      let (s, success) ← s.dirRemove dir name garbage
      let s ← s.dirClose (some dir)
      .ok (s, success)

/-! ### Formatting, booting and shutting down -/

/-- `free_map_init`. -/
def freeMapInit (s : Fs) (garbage : Mem) : Except Stop Fs := do
  let (header, s) := s.malloc
  let (bits, s) := if header then s.malloc else (false, s)
  match ← Bitmap.create s.device.size garbage header bits with
  | none => .error .panic
  | some b => .ok { s with freeMap := (b.mark FREE_MAP_SECTOR).mark ROOT_DIR_SECTOR }

/-- `file_open (inode_open (FREE_MAP_SECTOR))`. -/
def openFreeMapFile (s : Fs) : Except Stop (Fs × Option File) := do
  let (s, inode) ← s.inodeOpen FREE_MAP_SECTOR
  s.fileOpen inode

/-- `free_map_create`. -/
def freeMapCreate (s : Fs) : Except Stop Fs := do
  match ← s.inodeCreate FREE_MAP_SECTOR (toInt32 (byteCnt s.freeMap.bitCnt)) with
  | (_, false) => .error .panic
  | (s, true) =>
      match ← s.openFreeMapFile with
      | (_, none) => .error .panic
      | (s, some file) =>
          let s := { s with freeMapFile := some file }
          match ← s.bitmapWrite s.freeMap s.freeMapFile with
          | (_, false) => .error .panic
          | (s, true) => .ok s

/-- `free_map_close`. The pointer to the file is kept. -/
def freeMapClose (s : Fs) : Except Stop Fs := s.fileClose s.freeMapFile

/-- `free_map_open`. -/
def freeMapOpen (s : Fs) : Except Stop Fs := do
  match ← s.openFreeMapFile with
  | (_, none) => .error .panic
  | (s, some file) =>
      match ← s.bitmapRead s.freeMap file with
      | (_, _, false) => .error .panic
      | (s, freeMap, true) => .ok { s with freeMap, freeMapFile := some file }

/-- `do_format`. -/
def doFormat (s : Fs) : Except Stop Fs := do
  let s ← s.freeMapCreate
  match ← s.dirCreate ROOT_DIR_SECTOR ROOT_ENTRIES with
  | (_, false) => .error .panic
  | (s, true) => s.freeMapClose

/-- The memory of the file system at boot, where no `malloc` fails. -/
def reset (device : Block) : Fs where
  device := device
  openInodes := []
  nextId := 0
  freeMap := ⟨0, fun _ => 0⟩
  freeMapFile := none
  mallocs := []

/-- `filesys_init`. -/
def filesysInit (device : Block) (format : Bool) (garbage : Mem) : Except Stop Fs := do
  let s ← (reset device).freeMapInit garbage
  let s ← if format then s.doFormat else .ok s
  s.freeMapOpen

/-- `filesys_done`. -/
def filesysDone (s : Fs) : Except Stop Fs := s.freeMapClose

/-- Shutting down and booting again, without formatting. -/
def reboot (s : Fs) (garbage : Mem) : Except Stop Fs := do
  let s ← s.filesysDone
  filesysInit s.device false garbage

end Fs

/-! ### The root directory -/

/-- The root directory, whose entries lead to inodes that exist and are not
removed, each to another. -/
structure Tree (s : Fs) (L : Nat → Prop) : Prop where
  root : L ROOT_DIR_SECTOR
  isDir : IsDir s.device ROOT_DIR_SECTOR ROOT_ENTRIES
  linked : ∀ k name y, k < ROOT_ENTRIES → entry s.device ROOT_DIR_SECTOR k = some (name, y) →
    L y ∧ y ≠ FREE_MAP_SECTOR ∧ y ≠ ROOT_DIR_SECTOR
  distinct : ∀ j k p q, j < ROOT_ENTRIES → k < ROOT_ENTRIES →
    entry s.device ROOT_DIR_SECTOR j = some p → entry s.device ROOT_DIR_SECTOR k = some q →
      p.2 = q.2 → j = k
  kept : ∀ i ∈ s.openInodes, i.removed = true → i.sector ≠ FREE_MAP_SECTOR ∧
    i.sector ≠ ROOT_DIR_SECTOR ∧ ∀ k p, k < ROOT_ENTRIES →
      entry s.device ROOT_DIR_SECTOR k = some p → i.sector ≠ p.2

/-- The root directory after a change elsewhere. -/
theorem Tree.keep {s s' : Fs} {L L' B : Nat → Prop} (h : Tree s L)
    (hlayout : Layout s.device s.freeMap L) (hd : Changed s.device s'.device B)
    (hB : ∀ b, Owns s.device ROOT_DIR_SECTOR b → ¬ B b)
    (hstable : Stable s s' fun _ => False)
    (hL : ∀ y, L y → (y = ROOT_DIR_SECTOR ∨ ∃ k p, k < ROOT_ENTRIES ∧
      entry s.device ROOT_DIR_SECTOR k = some p ∧ y = p.2) → L' y) : Tree s' L' := by
  have hentry : ∀ k, k < ROOT_ENTRIES →
      entry s'.device ROOT_DIR_SECTOR k = entry s.device ROOT_DIR_SECTOR k := fun k hk =>
    entry_same hlayout hd h.root h.isDir hB hk
  refine ⟨hL _ h.root (Or.inl rfl), h.isDir.same hlayout hd h.root hB, fun k name y hk he => ?_,
    fun j k p q hj hk hp hq => ?_, fun i hi hr => ?_⟩
  · rw [hentry k hk] at he
    obtain ⟨hy, hy0, hy1⟩ := h.linked k name y hk he
    exact ⟨hL y hy (Or.inr ⟨k, _, hk, he, rfl⟩), hy0, hy1⟩
  · rw [hentry j hj] at hp
    rw [hentry k hk] at hq
    exact h.distinct j k p q hj hk hp hq
  · obtain hf | ⟨j, hj, hjr, hjs⟩ := hstable.removed i hi hr
    · exact hf.elim
    · obtain ⟨h0, h1, hnot⟩ := h.kept j hj hjr
      rw [hjs] at h0 h1 hnot
      exact ⟨h0, h1, fun k p hk he => hnot k p hk (hentry k hk ▸ he)⟩

/-- The root directory when only references change. -/
theorem Tree.refs {s s' : Fs} {L : Nat → Prop} (h : Tree s L)
    (hlayout : Layout s.device s.freeMap L) (hrefs : Refs s s' fun _ => False) : Tree s' L := by
  have hd : Changed s.device s'.device fun _ => False := by
    rw [hrefs.device]
    exact Changed.refl _ _
  exact h.keep hlayout hd (fun _ _ hf => hf) hrefs.toStable fun _ hy _ => hy

/-- The root directory when a reference is closed: a file with a name is not
released. -/
theorem Tree.closed {s s' : Fs} {L : Nat → Prop} {hs hs' ds ds' : List Nat} {i : Inode} {gone : Prop}
    (h : Tree s L) (hc : Core s L hs ds) (hi : i ∈ s.openInodes) (hgone : gone → i.removed = true)
    (hclosed : Closed s s' i gone fun _ => False)
    (_ : Core s' (fun y => L y ∧ ¬ (gone ∧ y = i.sector)) hs' ds') :
    Tree s' fun y => L y ∧ ¬ (gone ∧ y = i.sector) := by
  obtain ⟨-, -, -, -, -, -, hmapL, -⟩ := hc.mapInode
  refine h.keep hc.layout hclosed.device (fun b hb hdata => ?_) hclosed.stable
    fun y hy hwhy => ⟨hy, fun hg => ?_⟩
  · exact hc.owns_ne h.root hmapL (by decide) hb (Or.inr hdata)
  · obtain ⟨h0, h1, hnot⟩ := h.kept i hi (hgone hg.1)
    rcases hwhy with hroot | ⟨k, p, hk, he, hyp⟩
    · exact h1 (hg.2.symm.trans hroot)
    · exact hnot k p hk he (hg.2.symm.trans hyp)

end OsTools.Filesys

import OsTools.Filesys.Reboot
import OsTools.Filesys.DirMap
import OsTools.Filesys.Ustar
/-!
# OsTools.Filesys.Fsutil

Moving files between the file system and a tar archive on the scratch device
(`filesys/fsutil.c`). `fsutil_append` adds a file to the end of the archive and
`fsutil_extract` puts all files of the archive into the file system. Each keeps its own
position on the device in a static variable.

## Proof shape

The loops copy a file in pieces of a sector, the last of which is filled up with zeros.
`chunkSize_cases` says that a piece is the rest of the file or a whole sector, and both loop lemmas
are inductions with these two cases.

An archive is described from the front: `Members d p fs` says that the files `fs` stand on the
device from sector `p` on, each a header and its data. A file that is appended comes behind the
last one and over the two blocks of zeros that were there (`Members.snoc`), and `Ends` says that
they are there again. So what is in the archive does not depend on how many commands wrote it
(`appendAll_spec`, by induction on the files).
-/

namespace OsTools.Filesys

open OsTools.CString OsTools.Kernel Ustar

/-- The file system, the scratch device, and the static variables of the two commands. -/
structure Fsutil where
  fs : Fs
  scratch : Block
  appendSector : Nat
  extractSector : Nat

namespace Fsutil

/-- The size of the next piece of a file. -/
def chunkSize (size : Nat) : Nat := if BLOCK_SECTOR_SIZE < size then BLOCK_SECTOR_SIZE else size

theorem chunkSize_pos {size : Nat} (h : size ≠ 0) : 0 < chunkSize size := by
  unfold chunkSize BLOCK_SECTOR_SIZE
  split
  · decide
  · omega

/-- The loop of `fsutil_append`: `size` bytes of the file are left. -/
def appendLoop (s : Fs) (src : File) (dst : Block) (sector : Nat) (buffer : Mem) (size : Nat) :
    Except Stop (Fs × File × Block × Nat) :=
  if size = 0 then .ok (s, src, dst, sector)
  else if dst.size ≤ sector then .error .panic
  else do
    let (s, src, buffer, n) ← s.fileRead src buffer (chunkSize size)
    if n ≠ chunkSize size then .error .panic
    else
      let buffer := buffer.fill (chunkSize size) (BLOCK_SECTOR_SIZE - chunkSize size) 0
      let dst ← dst.write sector buffer
      appendLoop s src dst (sector + 1) buffer (size - chunkSize size)
termination_by size
decreasing_by
  have hpos := chunkSize_pos ‹¬ size = 0›
  omega

/-- `fsutil_append`. -/
def append (t : Fsutil) (fileName : Name) (garbage : Mem) : Except Stop Fsutil := do
  match t.fs.malloc with
  | (false, _) => .error .panic
  | (true, s) =>
      match ← s.filesysOpen fileName garbage with
      | (_, none) => .error .panic
      | (s, some src) =>
          let size ← s.fileLength src
          match ← ustarMakeHeader fileName .regular size with
          | none => .error .panic
          | some header =>
              let dst ← t.scratch.write t.appendSector header
              let (s, src, dst, sector) ←
                appendLoop s src dst (t.appendSector + 1) header size.toNat
              -- the end of the archive; the position stays before it
              let dst ← dst.write sector fun _ => 0
              let dst ← dst.write (sector + 1) fun _ => 0
              let s ← s.fileClose (some src)
              .ok { t with fs := s, scratch := dst, appendSector := sector }

/-- The loop of `fsutil_extract` that copies a file: `size` bytes are left. -/
def copyLoop (s : Fs) (dst : File) (src : Block) (sector size : Nat) :
    Except Stop (Fs × File × Nat) :=
  if size = 0 then .ok (s, dst, sector)
  else do
    let data ← src.read sector
    let (s, dst, n) ← s.fileWrite dst data (chunkSize size)
    if n ≠ chunkSize size then .error .panic
    else copyLoop s dst src (sector + 1) (size - chunkSize size)
termination_by size
decreasing_by
  have hpos := chunkSize_pos ‹¬ size = 0›
  omega

/-- A regular file of the archive, whose data begin at the sector. -/
def extractFile (s : Fs) (src : Block) (sector : Nat) (fileName : Name) (size : Int)
    (garbage : Mem) : Except Stop (Fs × Nat) := do
  match ← s.filesysCreate fileName size garbage with
  | (_, false) => .error .panic
  | (s, true) =>
      match ← s.filesysOpen fileName garbage with
      | (_, none) => .error .panic
      | (s, some dst) =>
          let (s, dst, sector) ← copyLoop s dst src sector size.toNat
          let s ← s.fileClose (some dst)
          .ok (s, sector)

/-- The loop of `fsutil_extract`. Each pass reads a sector, and reading behind the device is a
panic. -/
def extractLoop (src : Block) (garbage : Mem) : Nat → Fs → Nat → Except Stop (Fs × Nat)
  | 0, _, _ => .error .panic
  | fuel + 1, s, sector => do
      let header ← src.read sector
      match ← ustarParseHeader header with
      | .error _ => .error .panic
      | .ok ⟨_, .eof, _⟩ => .ok (s, sector + 1)
      | .ok ⟨_, .directory, _⟩ => extractLoop src garbage fuel s (sector + 1)
      | .ok ⟨none, .regular, _⟩ => .error .fault
      | .ok ⟨some p, .regular, size⟩ => do
          let (s, sector) ← extractFile s src (sector + 1) (chars p) size garbage
          extractLoop src garbage fuel s sector

/-- `fsutil_extract`. -/
def extract (t : Fsutil) (garbage : Mem) : Except Stop Fsutil := do
  let (header, s) := t.fs.malloc
  let (data, s) := s.malloc
  if header = false ∨ data = false then .error .panic
  else
    let (s, sector) ← extractLoop t.scratch garbage (t.scratch.size - t.extractSector) s
      t.extractSector
    -- two blocks of zeros are the end of an archive
    let src ← t.scratch.write 0 fun _ => 0
    let src ← src.write 1 fun _ => 0
    .ok { t with fs := s, scratch := src, extractSector := sector }

end Fsutil

/-! ### Pieces of a file -/

namespace Core

variable {s : Fs} {L : Nat → Prop} {hs ds : List Nat} {i : Inode} {pos n : Nat}

/-- `file_read` of bytes that are there, while memory does not run out. -/
theorem fileRead_all (hc : Core s L hs ds) (hm : s.mallocs = []) (hi : i ∈ s.openInodes)
    (hn : pos + n ≤ (diskInode s.device i.sector).length.toNat) (deny : Bool) (buffer : Mem) :
    s.fileRead ⟨i.id, pos, deny⟩ buffer n = .ok (s, ⟨i.id, pos + n, deny⟩,
      buffer.blit 0 n (fun k => Fs.data s.device (diskInode s.device i.sector) (pos + k)), n) := by
  obtain ⟨m, mallocs, hread, htransfers⟩ := hc.inodeReadAt hi buffer n pos
  obtain ⟨rfl, hall⟩ := htransfers.all hm
  have hmn : m = n := by
    unfold Fs.transfer at hall
    omega
  have hs : { s with mallocs := [] } = s := by rw [← hm]
  unfold Fs.fileRead
  dsimp only
  rw [hread, hs, hmn, ok_bind]

/-- `file_write` of bytes for which there is room. -/
theorem fileWrite_all (hc : Core s L hs ds) (hm : s.mallocs = []) (hi : i ∈ s.openInodes)
    (hdeny : i.denyWriteCnt = 0)
    (hn : pos + n ≤ (diskInode s.device i.sector).length.toNat) (deny : Bool) (buffer : Mem) :
    s.fileWrite ⟨i.id, pos, deny⟩ buffer n =
      .ok (s.wrote ((diskInode s.device i.sector).start * BLOCK_SECTOR_SIZE + pos) n buffer [],
        ⟨i.id, pos + n, deny⟩, n) := by
  obtain ⟨m, mallocs, hwrite, -, htransfers, -⟩ := hc.inodeWriteAt hi buffer n pos
  obtain ⟨rfl, hall⟩ := (htransfers hdeny).all hm
  have hmn : m = n := by
    unfold Fs.transfer at hall
    omega
  unfold Fs.fileWrite
  dsimp only
  rw [hwrite, hmn, ok_bind]

/-- Opening a file that is there, while memory does not run out. -/
theorem openNamed (hc : Core s L hs ds) (ht : Tree s L) (hsync : Synced s ds)
    (hhandles : Room hs 2) {name : Name} (hname : 0 ∉ name) (hpresent : Present s.device ROOT_DIR_SECTOR ROOT_ENTRIES name)
    (garbage : Mem) : ∃ s' i, s.filesysOpen name garbage = .ok (s', some ⟨i.id, 0, false⟩) ∧
      i ∈ s'.openInodes ∧ (∃ k, k < ROOT_ENTRIES ∧
        entry s.device ROOT_DIR_SECTOR k = some (name, i.sector)) ∧
      Core s' L (i.id :: hs) ds ∧ Tree s' L ∧ Refs s s' (fun _ => False) ∧ Synced s' ds := by
  obtain ⟨s', r, hopen, hcore, htree, hrefs, hfile, hsync'⟩ := hc.filesysOpen ht hname garbage hhandles
  obtain ⟨hsynced, habsent⟩ := hsync' hsync
  cases r with
  | none => exact absurd hpresent (habsent rfl)
  | some f =>
      obtain ⟨hf, k, hk, i, hi, hid, hentry⟩ := hfile f rfl
      rw [hf, ← hid] at hopen
      have hcore' : Core s' L (i.id :: hs) ds := by
        rw [hid]
        exact hcore
      exact ⟨s', i, hopen, hi, ⟨k, hk, hentry⟩, hcore', htree, hrefs, hsynced⟩

/-- Closing a file that has a name. -/
theorem closeNamed (hc : Core s L (i.id :: hs) ds) (ht : Tree s L) (hi : i ∈ s.openInodes)
    {k : Nat} {name : Name} (hk : k < ROOT_ENTRIES)
    (hentry : entry s.device ROOT_DIR_SECTOR k = some (name, i.sector))
    (hdeny : ds.count i.id ≤ hs.count i.id)
    (hmap : ∀ g, s.freeMapFile = some g → g.inode ∈ hs) (pos : Nat) : ∃ s',
      s.fileClose (some ⟨i.id, pos, false⟩) = .ok s' ∧ Core s' L hs ds ∧ Tree s' L ∧
        Refs s s' (fun _ => False) ∧ (Synced s ds → Synced s' ds) := by
  obtain ⟨s', hclose, hcloses, hsync⟩ := @Core.fileClose s L hs ds ⟨i.id, pos, false⟩ hc hdeny hmap
    fun _ => False
  obtain ⟨hcore, hrefs⟩ := hcloses.refs fun j hj hid hgone => by
    rw [eq_of_nodup_map hc.table.ids hj hi hid] at hgone
    exact (ht.kept i hi hgone.2).2.2 k _ hk hentry rfl
  exact ⟨s', hclose, hcore, ht.refs hc.layout hrefs, hrefs, hsync⟩

end Core

namespace Fsutil

/-- The number of sectors that `size` bytes take. -/
def sectors (size : Nat) : Nat := (size + (BLOCK_SECTOR_SIZE - 1)) / BLOCK_SECTOR_SIZE

/-- A piece is the rest of the file or a whole sector. -/
theorem chunkSize_cases (size : Nat) : chunkSize size ≤ size ∧ chunkSize size ≤ BLOCK_SECTOR_SIZE ∧
    (chunkSize size = size ∨ chunkSize size = BLOCK_SECTOR_SIZE) := by
  unfold chunkSize
  split
  · omega
  · omega

/-- One sector more than the rest of the pieces. -/
theorem sectors_eq {size : Nat} (h : size ≠ 0) :
    sectors size = 1 + sectors (size - chunkSize size) := by
  unfold sectors chunkSize BLOCK_SECTOR_SIZE
  split
  · omega
  · omega

theorem read_eq {d : Block} {sector : Nat} (h : sector < d.size) :
    d.read sector = .ok fun i => d.bytes (sector * BLOCK_SECTOR_SIZE + i) := if_pos h

theorem write_eq {d : Block} {sector : Nat} {buffer : Mem} (h : sector < d.size) :
    d.write sector buffer = .ok { d with
      bytes := d.bytes.blit (sector * BLOCK_SECTOR_SIZE) BLOCK_SECTOR_SIZE buffer } := if_pos h

/-- The loop of `fsutil_append` copies the rest of the file, filled up with zeros. By strong
induction on the bytes that are left: a round copies a whole sector, or the last bytes with
zeros behind them. -/
theorem appendLoop_spec {s : Fs} {L : Nat → Prop} {hs ds : List Nat} (hc : Core s L hs ds)
    (hm : s.mallocs = []) {i : Inode} (hi : i ∈ s.openInodes) {deny : Bool} {dst : Block}
    {buffer : Mem} {sector pos size : Nat}
    (hlength : pos + size ≤ (diskInode s.device i.sector).length.toNat)
    (hroom : sector + sectors size ≤ dst.size) :
    appendLoop s ⟨i.id, pos, deny⟩ dst sector buffer size =
      .ok (s, ⟨i.id, pos + size, deny⟩, { dst with
        bytes := dst.bytes.blit (sector * BLOCK_SECTOR_SIZE) (sectors size * BLOCK_SECTOR_SIZE)
          fun k => if k < size then Fs.data s.device (diskInode s.device i.sector) (pos + k)
            else 0 }, sector + sectors size) := by
  induction size using Nat.strong_induction_on generalizing dst buffer sector pos with
  | _ size ih =>
      rw [appendLoop]
      by_cases hzero : size = 0
      · subst hzero
        rw [if_pos rfl, show sectors 0 = 0 from rfl, Nat.zero_mul, Mem.blit_zero]
        rfl
      · have hsectors := sectors_eq hzero
        have hpos := chunkSize_pos hzero
        obtain ⟨hle, hle', hcases⟩ := chunkSize_cases size
        rw [if_neg hzero, if_neg (by omega), hc.fileRead_all hm hi (by omega), ok_bind]
        dsimp only
        rw [if_neg (by simp), write_eq (by omega), ok_bind]
        refine (ih (size - chunkSize size) (by omega) (by omega) (by dsimp only; omega)).trans ?_
        refine congrArg Except.ok ?_
        rw [Prod.mk.injEq, Prod.mk.injEq, Prod.mk.injEq]
        refine ⟨rfl, ?_, ?_, by omega⟩
        · rw [Nat.add_assoc, Nat.add_sub_cancel' hle]
        · dsimp only
          rw [Nat.succ_mul, hsectors, Nat.add_mul, Nat.one_mul, Mem.blit_append]
          · intro k hk
            by_cases hin : k < chunkSize size
            · rw [if_pos (by omega), Mem.fill, Mem.blit_of_outside (Or.inl hin)]
              have hcopy := @Mem.blit_of_inside buffer 0 (chunkSize size)
                (fun k => Fs.data s.device (diskInode s.device i.sector) (pos + k)) k hin
              rw [Nat.zero_add] at hcopy
              exact hcopy
            · rw [if_neg (by omega), Mem.fill]
              obtain ⟨j, rfl⟩ := Nat.exists_eq_add_of_le (Nat.not_lt.mp hin)
              exact Mem.blit_of_inside (by omega)
          · intro k hk
            rcases hcases with hall | hfull
            · rw [hall, Nat.sub_self, if_neg (Nat.not_lt_zero k), if_neg (by omega)]
            · rw [hfull, Nat.add_assoc]
              by_cases hin : k < size - BLOCK_SECTOR_SIZE
              · rw [if_pos hin, if_pos (by omega)]
              · rw [if_neg hin, if_neg (by omega)]

/-- The loop of `fsutil_extract` copies the rest of a file. By strong induction on the bytes
that are left; the writes of the rounds are put together to one write of all the bytes. -/
theorem copyLoop_spec {s : Fs} {L : Nat → Prop} {hs ds : List Nat} (hc : Core s L hs ds)
    (hm : s.mallocs = []) {i : Inode} (hi : i ∈ s.openInodes) (hdeny : i.denyWriteCnt = 0)
    {deny : Bool} {src : Block} {sector pos size : Nat}
    (hlength : pos + size ≤ (diskInode s.device i.sector).length.toNat)
    (hroom : sector + sectors size ≤ src.size) :
    copyLoop s ⟨i.id, pos, deny⟩ src sector size =
      .ok (s.wrote ((diskInode s.device i.sector).start * BLOCK_SECTOR_SIZE + pos) size
          (fun k => src.bytes (sector * BLOCK_SECTOR_SIZE + k)) [],
        ⟨i.id, pos + size, deny⟩, sector + sectors size) := by
  induction size using Nat.strong_induction_on generalizing s sector pos with
  | _ size ih =>
      rw [copyLoop]
      by_cases hzero : size = 0
      · subst hzero
        have hs : { s with mallocs := [] } = s := by rw [← hm]
        rw [if_pos rfl, Fs.wrote_zero, hs]
        rfl
      · have hsectors := sectors_eq hzero
        have hpos := chunkSize_pos hzero
        obtain ⟨hle, hle', hcases⟩ := chunkSize_cases size
        have hL := (hc.backed i hi).1
        have hn : chunkSize size ≤ (diskInode s.device i.sector).length.toNat - pos := by omega
        rw [if_neg hzero, read_eq (by omega), ok_bind,
          hc.fileWrite_all hm hi hdeny (by omega), ok_bind]
        dsimp only
        rw [if_neg (by simp)]
        generalize hs' : s.wrote ((diskInode s.device i.sector).start * BLOCK_SECTOR_SIZE + pos)
          (chunkSize size) (fun k => src.bytes (sector * BLOCK_SECTOR_SIZE + k)) [] = s'
        have hsame : diskInode s'.device i.sector = diskInode s.device i.sector := by
          rw [← hs']
          exact (hc.wrote_frame hL _ [] hn).device.diskInode (hc.layout.not_data hL hL)
        have hcore' : Core s' L hs ds := hs' ▸ hc.wrote hL _ [] hn
        refine (ih (size - chunkSize size) (by omega) hcore' (by rw [← hs']; rfl)
          (by rw [← hs']; exact hi) (by rw [hsame]; omega) (by omega)).trans ?_
        rw [hsame, ← hs']
        refine congrArg Except.ok ?_
        rw [Prod.mk.injEq, Prod.mk.injEq]
        refine ⟨?_, ?_, by omega⟩
        · unfold Fs.wrote
          dsimp only
          rw [← Nat.add_assoc, Mem.blit_append (h := fun k =>
            src.bytes (sector * BLOCK_SECTOR_SIZE + k)) (fun _ _ => rfl), Nat.add_sub_cancel' hle]
          intro k hk
          rcases hcases with hall | hfull
          · omega
          · rw [hfull, Nat.succ_mul, Nat.add_assoc]
        · rw [Nat.add_assoc, Nat.add_sub_cancel' hle]

/-! ### The archive -/

/-- The inode in sector `x` holds the bytes. -/
def Holds (d : Block) (x : Nat) (content : List UInt8) : Prop :=
  (diskInode d x).length = content.length ∧
    ∀ k, k < content.length → Fs.data d (diskInode d x) k = content.getD k 0

/-- The name leads to a file that holds the bytes. -/
structure FileIs (d : Block) (name : Name) (content : List UInt8) : Prop where
  present : Present d ROOT_DIR_SECTOR ROOT_ENTRIES name
  leads : ∀ k x, k < ROOT_ENTRIES → entry d ROOT_DIR_SECTOR k = some (name, x) →
    Holds d x content

/-- The header of the file is in sector `p`, and its bytes are in the sectors behind it. -/
structure Member (d : Block) (p : Nat) (f : Name × List UInt8) : Prop where
  header : ∀ k, k < BLOCK_SECTOR_SIZE → d.bytes (p * BLOCK_SECTOR_SIZE + k) =
    compose (stripped f.1) .regular f.2.length k
  data : ∀ k, k < f.2.length → d.bytes ((p + 1) * BLOCK_SECTOR_SIZE + k) = f.2.getD k 0

/-- The sector behind the file whose header is in sector `p`. -/
def next (p : Nat) (f : Name × List UInt8) : Nat := p + 1 + sectors f.2.length

/-- The files are in the archive from sector `p` on. -/
def Members (d : Block) : Nat → List (Name × List UInt8) → Prop
  | _, [] => True
  | p, f :: files => Member d p f ∧ Members d (next p f) files

/-- The sector behind the files. -/
def behind (p : Nat) (files : List (Name × List UInt8)) : Nat := files.foldl next p

/-- Two blocks of zeros. -/
def Ends (d : Block) (p : Nat) : Prop :=
  ∀ k, k < 2 * BLOCK_SECTOR_SIZE → d.bytes (p * BLOCK_SECTOR_SIZE + k) = 0

/-- What `fsutil_append` leaves. -/
structure Appended (t t' : Fsutil) (f : Name × List UInt8) : Prop where
  device : t'.fs.device = t.fs.device
  appendSector : t'.appendSector = next t.appendSector f
  extractSector : t'.extractSector = t.extractSector
  size : t'.scratch.size = t.scratch.size
  before : ∀ a, a < t.appendSector * BLOCK_SECTOR_SIZE → t'.scratch.bytes a = t.scratch.bytes a
  member : Member t'.scratch t.appendSector f
  ends : Ends t'.scratch t'.appendSector

/-- The blocks that `fsutil_append` writes. -/
def archived (d : Block) (p : Nat) (f : Name × List UInt8) (header data : Mem) : Block :=
  let bytes := d.bytes.blit (p * BLOCK_SECTOR_SIZE) BLOCK_SECTOR_SIZE header
  let bytes := bytes.blit ((p + 1) * BLOCK_SECTOR_SIZE) (sectors f.2.length * BLOCK_SECTOR_SIZE) data
  let bytes := bytes.blit (next p f * BLOCK_SECTOR_SIZE) BLOCK_SECTOR_SIZE (fun _ => 0)
  { d with bytes := bytes.blit ((next p f + 1) * BLOCK_SECTOR_SIZE) BLOCK_SECTOR_SIZE fun _ => 0 }

theorem le_sectors (size : Nat) : size ≤ sectors size * BLOCK_SECTOR_SIZE := by
  unfold sectors BLOCK_SECTOR_SIZE
  omega

/-- What one append leaves in the archive: the header and the contents of the file, and behind
them the two sectors of zeros that end it. -/
theorem archived_member {d : Block} {p : Nat} {f : Name × List UInt8} {header data : Mem}
    (hheader : ∀ k, k < BLOCK_SECTOR_SIZE →
      header k = compose (stripped f.1) .regular f.2.length k)
    (hdata : ∀ k, k < f.2.length → data k = f.2.getD k 0) :
    Member (archived d p f header data) p f ∧ Ends (archived d p f header data) (next p f) := by
  have hle := le_sectors f.2.length
  unfold BLOCK_SECTOR_SIZE at hheader hle
  refine ⟨⟨fun k hk => ?_, fun k hk => ?_⟩, fun k hk => ?_⟩
  · unfold BLOCK_SECTOR_SIZE at hk
    unfold archived next BLOCK_SECTOR_SIZE
    dsimp only
    rw [Mem.blit_of_outside (Or.inl (by omega)), Mem.blit_of_outside (Or.inl (by omega)),
      Mem.blit_of_outside (Or.inl (by omega)), Mem.blit_of_inside hk]
    exact hheader k hk
  · unfold archived next BLOCK_SECTOR_SIZE
    dsimp only
    rw [Mem.blit_of_outside (Or.inl (by omega)), Mem.blit_of_outside (Or.inl (by omega)),
      Mem.blit_of_inside (by omega)]
    exact hdata k hk
  · unfold BLOCK_SECTOR_SIZE at hk
    unfold archived next BLOCK_SECTOR_SIZE
    dsimp only
    by_cases hfirst : k < 512
    · rw [Mem.blit_of_outside (Or.inl (by omega)), Mem.blit_of_inside hfirst]
    · obtain ⟨j, rfl⟩ := Nat.exists_eq_add_of_le (Nat.not_lt.mp hfirst)
      rw [← Nat.add_assoc, ← Nat.succ_mul, Mem.blit_of_inside (by omega)]

theorem archived_before {d : Block} {p : Nat} {f : Name × List UInt8} {header data : Mem} {a : Nat}
    (ha : a < p * BLOCK_SECTOR_SIZE) : (archived d p f header data).bytes a = d.bytes a := by
  have hle : p * BLOCK_SECTOR_SIZE ≤ (p + 1) * BLOCK_SECTOR_SIZE :=
    Nat.mul_le_mul_right _ (Nat.le_succ p)
  have hnext : (p + 1) * BLOCK_SECTOR_SIZE ≤ next p f * BLOCK_SECTOR_SIZE :=
    Nat.mul_le_mul_right _ (Nat.le_add_right _ _)
  have hlast : next p f * BLOCK_SECTOR_SIZE ≤ (next p f + 1) * BLOCK_SECTOR_SIZE :=
    Nat.mul_le_mul_right _ (Nat.le_succ _)
  unfold archived
  dsimp only
  rw [Mem.blit_of_outside (Or.inl (by omega)), Mem.blit_of_outside (Or.inl (by omega)),
    Mem.blit_of_outside (Or.inl (by omega)), Mem.blit_of_outside (Or.inl ha)]

theorem fileLength_eq {s : Fs} {L : Nat → Prop} {hs ds : List Nat} (hc : Core s L hs ds)
    {i : Inode} (hi : i ∈ s.openInodes) (pos : Nat) (deny : Bool) :
    s.fileLength ⟨i.id, pos, deny⟩ = .ok (diskInode s.device i.sector).length := by
  unfold Fs.fileLength
  dsimp only
  rw [hc.table.inode hi, ok_bind, (hc.backed i hi).2]

/-- `fsutil_append` of a file that is there. The header and the sectors of the contents go
behind those of the files before, and the file system is only read, so that its invariant is
that of opening and closing the file. -/
theorem append_spec {t : Fsutil} {L : Nat → Prop} {hs ds : List Nat} (hc : Core t.fs L hs ds)
    (ht : Tree t.fs L) (hsync : Synced t.fs ds) (hhandles : Room hs 2)
    {f : Name × List UInt8} (hname : 0 ∉ f.1)
    (hfile : FileIs t.fs.device f.1 f.2) (hlength : (stripped f.1).length ≤ 99)
    (hroom : next t.appendSector f + 2 ≤ t.scratch.size) (garbage : Mem) : ∃ t',
      t.append f.1 garbage = .ok t' ∧ Core t'.fs L hs ds ∧ Tree t'.fs L ∧ Synced t'.fs ds ∧
        Appended t t' f := by
  obtain ⟨s₁, i, hopen, hi, ⟨k, hk, hentry⟩, hcore₁, htree₁, hrefs₁, hsynced₁⟩ :=
    hc.openNamed ht hsync hhandles hname hfile.present garbage
  obtain ⟨hsize, hbytes⟩ := hfile.leads k i.sector hk hentry
  rw [← hrefs₁.device] at hsize hbytes hentry
  have hnat : (f.2.length : Int).toNat = f.2.length := Int.toNat_natCast _
  obtain ⟨s₂, hclose, hcore₂, htree₂, hrefs₂, hsync₂⟩ := hcore₁.closeNamed htree₁ hi hk hentry
    (hc.table.deny_le i.id) (fun g hg => hc.mapFile_mem g (by rw [← hrefs₁.freeMapFile]; exact hg))
    (0 + f.2.length)
  unfold next at hroom
  -- what is left of the file, filled up with zeros
  generalize hdata : (fun k => if k < f.2.length then
    Fs.data s₁.device (diskInode s₁.device i.sector) (0 + k) else 0 : Mem) = data
  refine ⟨⟨s₂, archived t.scratch t.appendSector f
    (compose (stripped f.1) .regular f.2.length) data, next t.appendSector f, t.extractSector⟩,
    ?_, hcore₂, htree₂, hsync₂ hsynced₁, ?_⟩
  · unfold append
    rw [hsync.allocated]
    dsimp only
    rw [hopen, ok_bind]
    dsimp only
    rw [fileLength_eq hcore₁ hi, ok_bind, hsize, ustarMakeHeader_eq hname (by decide),
      if_neg (by omega), ok_bind]
    dsimp only
    rw [write_eq (by omega), ok_bind, hnat, appendLoop_spec hcore₁ hsynced₁.mallocs hi
      (by rw [hsize, hnat]; omega) (by dsimp only; omega), ok_bind, hdata]
    dsimp only
    rw [write_eq (by dsimp only; omega), ok_bind, write_eq (by dsimp only; omega), ok_bind, hclose,
      ok_bind]
    rfl
  · have hmember : Member (archived t.scratch t.appendSector f
          (compose (stripped f.1) .regular f.2.length) data) t.appendSector f ∧
        Ends (archived t.scratch t.appendSector f
          (compose (stripped f.1) .regular f.2.length) data) (next t.appendSector f) := by
      refine archived_member (fun _ _ => rfl) fun k hk => ?_
      rw [← hdata]
      dsimp only
      rw [if_pos hk, Nat.zero_add]
      exact hbytes k hk
    exact ⟨hrefs₂.device.trans hrefs₁.device, rfl, rfl, rfl, fun a ha => archived_before ha,
      hmember.1, hmember.2⟩

/-! ### All files -/

/-- `fsutil_append` for each of the files. -/
def appendAll (garbage : Name → Mem) : List Name → Fsutil → Except Stop Fsutil
  | [], t => .ok t
  | fileName :: names, t => do
      let t ← t.append fileName (garbage fileName)
      appendAll garbage names t

theorem le_behind (p : Nat) (files : List (Name × List UInt8)) : p ≤ behind p files := by
  induction files generalizing p with
  | nil => exact Nat.le_refl p
  | cons f files ih =>
      have hle := ih (next p f)
      unfold behind next at *
      rw [List.foldl_cons]
      omega

theorem Member.congr {d d' : Block} {p : Nat} {f : Name × List UInt8} (h : Member d p f)
    (hd : ∀ a, a < next p f * BLOCK_SECTOR_SIZE → d'.bytes a = d.bytes a) : Member d' p f := by
  have hle := le_sectors f.2.length
  unfold next at hd
  unfold BLOCK_SECTOR_SIZE at hd hle
  refine ⟨fun k hk => ?_, fun k hk => ?_⟩
  · refine (hd _ ?_).trans (h.header k hk)
    unfold BLOCK_SECTOR_SIZE at hk ⊢
    omega
  · refine (hd _ ?_).trans (h.data k hk)
    unfold BLOCK_SECTOR_SIZE
    omega

/-- A change behind the files. -/
theorem Members.congr {d d' : Block} {p : Nat} {files : List (Name × List UInt8)}
    (h : Members d p files)
    (hd : ∀ a, a < behind p files * BLOCK_SECTOR_SIZE → d'.bytes a = d.bytes a) :
    Members d' p files := by
  induction files generalizing p with
  | nil => trivial
  | cons f files ih =>
      have hle := Nat.mul_le_mul_right BLOCK_SECTOR_SIZE (le_behind (next p f) files)
      exact ⟨h.1.congr fun a ha => hd a (Nat.lt_of_lt_of_le ha hle), ih h.2 hd⟩

/-- One more file at the end. -/
theorem Members.snoc {d : Block} {p : Nat} {files : List (Name × List UInt8)}
    {f : Name × List UInt8} (h : Members d p files) (hf : Member d (behind p files) f) :
    Members d p (files ++ [f]) := by
  induction files generalizing p with
  | nil => exact ⟨hf, trivial⟩
  | cons g files ih => exact ⟨h.1, ih h.2 hf⟩

theorem behind_snoc (p : Nat) (files : List (Name × List UInt8)) (f : Name × List UInt8) :
    behind p (files ++ [f]) = next (behind p files) f := by
  unfold behind
  rw [List.foldl_append]
  rfl

/-- What is in the archive after `fsutil_append` for each of the files. By induction on the
files, with those that are in the archive already as an accumulator; the two sectors of zeros
behind the last one are overwritten by the next. -/
theorem appendAll_spec {L : Nat → Prop} {hs ds : List Nat} {garbage : Name → Mem} {t : Fsutil}
    {before files : List (Name × List UInt8)} (hc : Core t.fs L hs ds) (ht : Tree t.fs L)
    (hsync : Synced t.fs ds) (hhandles : Room hs 2) (hbefore : Members t.scratch 0 before)
    (hsector : t.appendSector = behind 0 before)
    (hfiles : ∀ f ∈ files, 0 ∉ f.1 ∧ FileIs t.fs.device f.1 f.2 ∧ (stripped f.1).length ≤ 99)
    (hroom : behind t.appendSector files + 2 ≤ t.scratch.size) : ∃ t',
      appendAll garbage (files.map Prod.fst) t = .ok t' ∧ Members t'.scratch 0 (before ++ files) ∧
        t'.appendSector = behind 0 (before ++ files) ∧ t'.extractSector = t.extractSector ∧
        t'.scratch.size = t.scratch.size ∧ (files = [] → t' = t) ∧
        (files ≠ [] → Ends t'.scratch t'.appendSector) := by
  induction files generalizing t before with
  | nil =>
      refine ⟨t, rfl, ?_, ?_, rfl, rfl, fun _ => rfl, fun hne => absurd rfl hne⟩
      · rw [List.append_nil]
        exact hbefore
      · rw [List.append_nil]
        exact hsector
  | cons f files ih =>
      obtain ⟨hname, hfile, hlength⟩ := hfiles f List.mem_cons_self
      have hle := le_behind (next t.appendSector f) files
      have hbehind : behind t.appendSector (f :: files) = behind (next t.appendSector f) files := rfl
      obtain ⟨t₁, happend, hc₁, ht₁, hsync₁, happended⟩ :=
        append_spec hc ht hsync hhandles hname hfile hlength (by omega) (garbage f.1)
      have hbefore₁ : Members t₁.scratch 0 (before ++ [f]) := by
        refine Members.snoc (hbefore.congr fun a ha => happended.before a ?_) ?_
        · rw [hsector]
          exact ha
        · rw [← hsector]
          exact happended.member
      have hsector₁ : t₁.appendSector = behind 0 (before ++ [f]) := by
        rw [happended.appendSector, behind_snoc, hsector]
      obtain ⟨t', hall, hmembers, hsector', hextract, hsize, hnil, hends⟩ :=
        ih hc₁ ht₁ hsync₁ hbefore₁ hsector₁ (fun g hg => by
          rw [happended.device]
          exact hfiles g (List.mem_cons_of_mem _ hg)) (by
          rw [happended.appendSector, happended.size]
          omega)
      rw [List.append_assoc, List.singleton_append] at hmembers hsector'
      refine ⟨t', ?_, hmembers, hsector', hextract.trans happended.extractSector,
        hsize.trans happended.size, fun hf => (by cases hf), fun _ => ?_⟩
      · rw [List.map_cons, appendAll, happend, ok_bind]
        exact hall
      · cases files with
        | nil =>
            rw [hnil rfl]
            exact happended.ends
        | cons g files => exact hends (List.cons_ne_nil _ _)

end Fsutil

end OsTools.Filesys

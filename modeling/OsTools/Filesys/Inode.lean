import OsTools.Kernel.Bitmap
import OsTools.Lib.Word
/-!
# OsTools.Filesys.Inode

The state of the file system and the two transfer loops of `filesys/inode.c`,
`inode_read_at` and `inode_write_at`.

A device is its bytes, one sector after the other; the sectors of an inode are
consecutive, so its byte `o` is the device's byte `start * 512 + o`. Both loops
go from sector to sector, directly or through a bounce buffer, and in the end
each is one `blit`: that is what their specifications say.

A pointer to a `struct inode` is its `id`. Whether `malloc` succeeds is decided
by the environment: `mallocs` lists the outcomes of the next calls, and when it
is used up they all succeed. Offsets and sizes are not negative.

## Proof shape

Both loops are by induction on the passes that are left. `pass_cases` says what a pass is: the
chunk goes to the end of the request, of the inode or of the sector, so that it lies within one
sector and is not empty. `Transfers` is the statement about the loop, and composes a pass with
the passes behind it (`Transfers.pass`): a loop transfers a prefix of what it could, and all of
it when `malloc` gives the bounce buffer or memory does not run out. That the buffer is only
asked for where a chunk is not a whole sector does not matter for what is transferred, only for
whether a loop can stop short.

A write through the bounce buffer reads the sector, changes the chunk and writes the sector back;
`blit_blit_within` says that this is the write of the chunk alone.
-/

namespace OsTools

namespace Filesys

open OsTools.Kernel

def BLOCK_SECTOR_SIZE : Nat := 512

/-- A block device of `size` sectors. -/
structure Block where
  bytes : Mem
  size : Nat

namespace Block

/-- `block_read`; `check_sector` panics past the end. -/
def read (d : Block) (sector : Nat) : Except Stop Mem :=
  if sector < d.size then .ok fun i => d.bytes (sector * BLOCK_SECTOR_SIZE + i)
  else .error .panic

/-- `block_write`. -/
def write (d : Block) (sector : Nat) (buffer : Mem) : Except Stop Block :=
  if sector < d.size then
    .ok { d with bytes := d.bytes.blit (sector * BLOCK_SECTOR_SIZE) BLOCK_SECTOR_SIZE buffer }
  else .error .panic

end Block

/-- `struct inode_disk`. -/
structure InodeDisk where
  start : Nat
  length : Int
  magic : Nat
  deriving DecidableEq

/-- `INODE_MAGIC`. -/
def INODE_MAGIC : Nat := 0x494e4f44

namespace InodeDisk

/-- The fields in a sector. -/
def decode (m : Mem) : InodeDisk := ⟨m.load 0 4, toInt32 (m.load 4 4), m.load 8 4⟩

/-- The sector that holds the fields; what is not used is zero. -/
def encode (d : InodeDisk) : Mem :=
  Mem.store (Mem.store (Mem.store (fun _ => 0) 0 4 d.start) 4 4 (toUInt32 d.length)) 8 4 d.magic

end InodeDisk

/-- `struct inode`. The list of open inodes holds it as long as it is allocated. -/
structure Inode where
  id : Nat
  sector : Nat
  openCnt : Int
  removed : Bool
  denyWriteCnt : Int
  data : InodeDisk
  deriving DecidableEq

/-- `struct file`. -/
structure File where
  inode : Nat
  pos : Nat
  denyWrite : Bool
  deriving DecidableEq

/-- The file system: the device, the list of open inodes, the free map with its
file, and the outcomes of the next calls of `malloc`. `nextId` has not been the
address of a `struct inode` yet. -/
structure Fs where
  device : Block
  openInodes : List Inode
  nextId : Nat
  freeMap : Bitmap
  freeMapFile : Option File
  mallocs : List Bool

namespace Fs

/-- A call of `malloc` or `calloc`: whether it succeeds. -/
def malloc (s : Fs) : Bool × Fs :=
  match s.mallocs with
  | [] => (true, s)
  | ok :: mallocs => (ok, { s with mallocs })

/-- `block_read (fs_device, ...)`. -/
def blockRead (s : Fs) (sector : Nat) : Except Stop Mem := s.device.read sector

/-- `block_write (fs_device, ...)`. -/
def blockWrite (s : Fs) (sector : Nat) (buffer : Mem) : Except Stop Fs := do
  let device ← s.device.write sector buffer
  .ok { s with device }

/-- The inode at an address. -/
def inode (s : Fs) (id : Nat) : Except Stop Inode :=
  match s.openInodes.find? fun i => i.id = id with
  | none => .error .fault
  | some i => .ok i

/-- `byte_to_sector`. -/
def byteToSector (i : Inode) (pos : Nat) : Nat :=
  if pos < i.data.length then (i.data.start + pos / BLOCK_SECTOR_SIZE) % 2 ^ 32 else 2 ^ 32 - 1

/-- The number of bytes to copy in one pass of a loop: to the end of the
request, of the inode or of the sector. -/
def chunkSize (i : Inode) (size offset : Nat) : Int :=
  let inodeLeft : Int := i.data.length - offset
  let sectorLeft : Int := BLOCK_SECTOR_SIZE - offset % BLOCK_SECTOR_SIZE
  let minLeft := if inodeLeft < sectorLeft then inodeLeft else sectorLeft
  if size < minLeft then size else minLeft

/-- `if (bounce == NULL) bounce = malloc (BLOCK_SECTOR_SIZE)`. -/
def bounceBuffer (s : Fs) (bounce : Bool) : Bool × Fs := if bounce then (true, s) else s.malloc

/-- The loop of `inode_read_at`, which makes at most `size` passes. -/
def readLoop (i : Inode) : Nat → Bool → Fs → Mem → Nat → Nat → Nat → Except Stop (Fs × Mem × Nat)
  | 0, _, s, buffer, _, _, bytesRead => .ok (s, buffer, bytesRead)
  | fuel + 1, bounce, s, buffer, size, offset, bytesRead =>
      let sectorIdx := byteToSector i offset
      let sectorOfs := offset % BLOCK_SECTOR_SIZE
      let chunk := chunkSize i size offset
      if size = 0 ∨ chunk ≤ 0 then .ok (s, buffer, bytesRead)
      else
        let chunk := chunk.toNat
        if sectorOfs = 0 ∧ chunk = BLOCK_SECTOR_SIZE then do
          -- read full sector directly into caller's buffer
          let data ← s.blockRead sectorIdx
          let buffer := buffer.blit bytesRead BLOCK_SECTOR_SIZE data
          readLoop i fuel bounce s buffer (size - chunk) (offset + chunk) (bytesRead + chunk)
        else
          match s.bounceBuffer bounce with
          | (false, s) => .ok (s, buffer, bytesRead)
          | (true, s) => do
              let data ← s.blockRead sectorIdx
              let buffer := buffer.blit bytesRead chunk fun k => data (sectorOfs + k)
              readLoop i fuel true s buffer (size - chunk) (offset + chunk) (bytesRead + chunk)

/-- `inode_read_at`: the buffer and the number of bytes read. -/
def inodeReadAt (s : Fs) (id : Nat) (buffer : Mem) (size offset : Nat) :
    Except Stop (Fs × Mem × Nat) := do
  let i ← s.inode id
  readLoop i size false s buffer size offset 0

/-- The loop of `inode_write_at`. -/
def writeLoop (i : Inode) (buffer : Mem) :
    Nat → Bool → Fs → Nat → Nat → Nat → Except Stop (Fs × Nat)
  | 0, _, s, _, _, bytesWritten => .ok (s, bytesWritten)
  | fuel + 1, bounce, s, size, offset, bytesWritten =>
      let sectorIdx := byteToSector i offset
      let sectorOfs := offset % BLOCK_SECTOR_SIZE
      let sectorLeft := BLOCK_SECTOR_SIZE - sectorOfs
      let chunk := chunkSize i size offset
      if size = 0 ∨ chunk ≤ 0 then .ok (s, bytesWritten)
      else
        let chunk := chunk.toNat
        if sectorOfs = 0 ∧ chunk = BLOCK_SECTOR_SIZE then do
          -- write full sector directly to disk
          let s ← s.blockWrite sectorIdx fun k => buffer (bytesWritten + k)
          writeLoop i buffer fuel bounce s (size - chunk) (offset + chunk) (bytesWritten + chunk)
        else
          match s.bounceBuffer bounce with
          | (false, s) => .ok (s, bytesWritten)
          | (true, s) => do
              -- read in the sector if it has data before or after the chunk
              let data ←
                if 0 < sectorOfs ∨ chunk < sectorLeft then s.blockRead sectorIdx
                else .ok fun _ => 0
              let data := Mem.blit data sectorOfs chunk fun k => buffer (bytesWritten + k)
              let s ← s.blockWrite sectorIdx data
              writeLoop i buffer fuel true s (size - chunk) (offset + chunk) (bytesWritten + chunk)

/-- `inode_write_at`: the number of bytes written. -/
def inodeWriteAt (s : Fs) (id : Nat) (buffer : Mem) (size offset : Nat) :
    Except Stop (Fs × Nat) := do
  let i ← s.inode id
  if i.denyWriteCnt ≠ 0 then .ok (s, 0)
  else writeLoop i buffer size false s size offset 0

/-! ### What the loops transfer -/

/-- `max (0, min (size, length - offset))`. -/
def transfer (length : Int) (size offset : Nat) : Nat := min size (length.toNat - offset)

/-- The data of an inode lie on the device. -/
structure OnDevice (d : Block) (i : InodeDisk) : Prop where
  size_lt : d.size < 2 ^ 32
  fits : i.start * BLOCK_SECTOR_SIZE + i.length.toNat ≤ d.size * BLOCK_SECTOR_SIZE

/-- What a loop transfers, depending on the memory for the bounce buffer. -/
structure Transfers (bounce : Bool) (mallocs mallocs' : List Bool) (total size n : Nat) :
    Prop where
  le : n ≤ total
  all : mallocs = [] → mallocs' = [] ∧ n = total
  bounce : bounce = true → mallocs' = mallocs ∧ n = total
  small : size < BLOCK_SECTOR_SIZE → n = 0 ∨ n = total

variable {i : Inode} {s : Fs} {size offset : Nat}

/-- One pass: where it is on the device, and what it leaves. -/
structure Pass (d : Block) (i : Inode) (size offset chunk : Nat) : Prop where
  pos : 0 < chunk
  le : chunk ≤ size
  sector : byteToSector i offset < d.size
  place : byteToSector i offset * BLOCK_SECTOR_SIZE + offset % BLOCK_SECTOR_SIZE =
    i.data.start * BLOCK_SECTOR_SIZE + offset
  within : offset % BLOCK_SECTOR_SIZE + chunk ≤ BLOCK_SECTOR_SIZE
  rest : transfer i.data.length size offset =
    chunk + transfer i.data.length (size - chunk) (offset + chunk)

/-- The loop ends where nothing is left, and otherwise makes a pass, which moves at least one
byte: up to the end of the sector, of the inode, or of what was asked for, whichever comes
first. -/
theorem pass_cases {d : Block} (hd : OnDevice d i.data) :
    ((size = 0 ∨ chunkSize i size offset ≤ 0) ∧ transfer i.data.length size offset = 0) ∨
    (¬ (size = 0 ∨ chunkSize i size offset ≤ 0) ∧
      Pass d i size offset (chunkSize i size offset).toNat) := by
  by_cases hend : size = 0 ∨ chunkSize i size offset ≤ 0
  · refine Or.inl ⟨hend, ?_⟩
    unfold transfer
    unfold chunkSize BLOCK_SECTOR_SIZE at hend
    dsimp only at hend
    split_ifs at hend <;> omega
  · have hfits := hd.fits
    have hsize := hd.size_lt
    have hlt : (offset : Int) < i.data.length := by
      unfold chunkSize at hend
      dsimp only at hend
      unfold BLOCK_SECTOR_SIZE at hend
      split_ifs at hend <;> omega
    have hsector : byteToSector i offset = i.data.start + offset / BLOCK_SECTOR_SIZE := by
      unfold byteToSector
      rw [if_pos hlt]
      unfold BLOCK_SECTOR_SIZE at *
      omega
    refine Or.inr ⟨hend, ?_, ?_, ?_, ?_, ?_, ?_⟩
    · omega
    · unfold chunkSize BLOCK_SECTOR_SIZE
      dsimp only
      split_ifs <;> omega
    · rw [hsector]
      unfold BLOCK_SECTOR_SIZE at *
      omega
    · rw [hsector]
      unfold BLOCK_SECTOR_SIZE
      omega
    · unfold chunkSize BLOCK_SECTOR_SIZE
      dsimp only
      split_ifs <;> omega
    · unfold transfer
      unfold chunkSize BLOCK_SECTOR_SIZE at *
      dsimp only at *
      split_ifs at * <;> omega

/-- A pass and the passes behind it. -/
theorem Transfers.pass {bounce : Bool} {mallocs mallocs' : List Bool} {chunk rest size n : Nat}
    (h : Transfers bounce mallocs mallocs' rest (size - chunk) n)
    (hsmall : size < BLOCK_SECTOR_SIZE → bounce = true) :
    Transfers bounce mallocs mallocs' (chunk + rest) size (chunk + n) where
  le := Nat.add_le_add_left h.le chunk
  all := fun hnil => by
    obtain ⟨hm, hn⟩ := h.all hnil
    exact ⟨hm, by rw [hn]⟩
  bounce := fun hb => by
    obtain ⟨hm, hn⟩ := h.bounce hb
    exact ⟨hm, by rw [hn]⟩
  small := fun hlt => Or.inr (by rw [(h.bounce (hsmall hlt)).2])

/-- The bounce buffer is there, or there is no memory for it. -/
theorem bounceBuffer_cases (s : Fs) (bounce : Bool) :
    (∃ mallocs, s.bounceBuffer bounce = (true, { s with mallocs }) ∧
      (s.mallocs = [] → mallocs = []) ∧ (bounce = true → mallocs = s.mallocs)) ∨
    (∃ mallocs, s.bounceBuffer bounce = (false, { s with mallocs }) ∧ s.mallocs ≠ [] ∧
      bounce = false) := by
  obtain ⟨device, openInodes, nextId, freeMap, freeMapFile, mallocs⟩ := s
  cases bounce with
  | true => exact Or.inl ⟨mallocs, rfl, id, fun _ => rfl⟩
  | false =>
      cases mallocs with
      | nil => exact Or.inl ⟨[], rfl, fun _ => rfl, fun h => (by cases h)⟩
      | cons ok mallocs =>
          cases ok with
          | true => exact Or.inl ⟨mallocs, rfl, fun h => (by cases h), fun h => (by cases h)⟩
          | false => exact Or.inr ⟨mallocs, rfl, List.cons_ne_nil _ _, rfl⟩

/-- With a bounce buffer at hand, nothing can go short any more. -/
theorem Transfers.bounced {bounce : Bool} {mallocs mallocs₁ mallocs' : List Bool}
    {chunk rest size n : Nat} (h : Transfers true mallocs₁ mallocs' rest (size - chunk) n)
    (hnil : mallocs = [] → mallocs₁ = []) (hb : bounce = true → mallocs₁ = mallocs) :
    Transfers bounce mallocs mallocs' (chunk + rest) size (chunk + n) where
  le := Nat.add_le_add_left h.le chunk
  all := fun hm => ⟨(h.all (hnil hm)).1, by rw [(h.bounce rfl).2]⟩
  bounce := fun hbt => ⟨(h.bounce rfl).1.trans (hb hbt), by rw [(h.bounce rfl).2]⟩
  small := fun _ => Or.inr (by rw [(h.bounce rfl).2])

theorem Transfers.done {bounce : Bool} {mallocs : List Bool} {size : Nat} :
    Transfers bounce mallocs mallocs 0 size 0 :=
  ⟨Nat.le_refl _, fun h => ⟨h, rfl⟩, fun _ => ⟨rfl, rfl⟩, fun _ => Or.inl rfl⟩

theorem Transfers.short {mallocs mallocs' : List Bool} {total size : Nat} (h : mallocs ≠ []) :
    Transfers false mallocs mallocs' total size 0 :=
  ⟨Nat.zero_le _, fun hnil => absurd hnil h, fun hb => (by cases hb), fun _ => Or.inl rfl⟩

/-- The data of an inode: the device's bytes from its start on. -/
def data (d : Block) (i : InodeDisk) : Mem := fun k => d.bytes (i.start * BLOCK_SECTOR_SIZE + k)

theorem read_eq {d : Block} {sector : Nat} (h : sector < d.size) :
    d.read sector = .ok fun k => d.bytes (sector * BLOCK_SECTOR_SIZE + k) := if_pos h

/-- `readLoop` copies a part of the inode's data into the buffer. By induction on the fuel, of
which there is as much as bytes were asked for. The number `n` of bytes is all there are,
unless the bounce buffer cannot be allocated before a pass that needs it. -/
theorem readLoop_spec {i : Inode} {fuel : Nat} {bounce : Bool} {s : Fs} {buffer : Mem}
    {size offset bytesRead : Nat} (hd : OnDevice s.device i.data) (hfuel : size ≤ fuel) :
    ∃ n mallocs, readLoop i fuel bounce s buffer size offset bytesRead =
        .ok ({ s with mallocs }, buffer.blit bytesRead n (fun k => data s.device i.data (offset + k)),
          bytesRead + n) ∧
      Transfers bounce s.mallocs mallocs (transfer i.data.length size offset) size n := by
  induction fuel generalizing bounce s buffer size offset bytesRead with
  | zero =>
      have hzero : transfer i.data.length size offset = 0 := by
        unfold transfer
        omega
      refine ⟨0, s.mallocs, ?_, ?_⟩
      · rw [Mem.blit_zero]
        rfl
      · rw [hzero]
        exact Transfers.done
  | succ fuel ih =>
      unfold readLoop
      dsimp only
      obtain ⟨hend, hzero⟩ | ⟨hgo, hpass⟩ := @pass_cases i size offset _ hd
      · rw [if_pos hend, hzero]
        refine ⟨0, s.mallocs, ?_, Transfers.done⟩
        rw [Mem.blit_zero]
        rfl
      · rw [if_neg hgo]
        generalize (chunkSize i size offset).toNat = chunk at hpass
        have hle := hpass.le
        have hpos := hpass.pos
        have hread := read_eq hpass.sector
        -- the bytes of this pass, and those of the passes behind it
        have hjoin : ∀ n, (buffer.blit bytesRead chunk
            fun k => data s.device i.data (offset + k)).blit (bytesRead + chunk) n
              (fun k => data s.device i.data (offset + chunk + k)) =
            buffer.blit bytesRead (chunk + n) fun k => data s.device i.data (offset + k) := by
          intro n
          rw [← Mem.blit_blit]
          simp only [Nat.add_assoc]
        have hbytes : ∀ k, s.device.bytes
            (byteToSector i offset * BLOCK_SECTOR_SIZE + (offset % BLOCK_SECTOR_SIZE + k)) =
              data s.device i.data (offset + k) := by
          intro k
          unfold data
          rw [← Nat.add_assoc, hpass.place, Nat.add_assoc]
        rw [hpass.rest]
        by_cases hfull : offset % BLOCK_SECTOR_SIZE = 0 ∧ chunk = BLOCK_SECTOR_SIZE
        · obtain ⟨n, mallocs, hloop, htransfers⟩ := @ih bounce s
            (buffer.blit bytesRead chunk fun k => data s.device i.data (offset + k))
            (size - chunk) (offset + chunk) (bytesRead + chunk) hd (by omega)
          refine ⟨chunk + n, mallocs, ?_, htransfers.pass fun hlt => ?_⟩
          · have hsource : (fun k => s.device.bytes
                (byteToSector i offset * BLOCK_SECTOR_SIZE + k)) =
                  fun k => data s.device i.data (offset + k) := by
              funext k
              rw [← hbytes k, hfull.1, Nat.zero_add]
            rw [if_pos hfull]
            unfold blockRead
            rw [hread, ok_bind, hsource, ← hfull.2, hloop, hjoin, Nat.add_assoc]
          · rw [hfull.2] at hle
            omega
        · rw [if_neg hfull]
          obtain ⟨mallocs₁, hbounce, hnil, hb⟩ | ⟨mallocs, hbounce, hne, rfl⟩ :=
            bounceBuffer_cases s bounce
          · obtain ⟨n, mallocs, hloop, htransfers⟩ := @ih true
              { s with mallocs := mallocs₁ }
              (buffer.blit bytesRead chunk fun k => data s.device i.data (offset + k))
              (size - chunk) (offset + chunk) (bytesRead + chunk) hd (by omega)
            refine ⟨chunk + n, mallocs, ?_, htransfers.bounced hnil hb⟩
            rw [hbounce]
            unfold blockRead
            dsimp only at hloop ⊢
            rw [hread, ok_bind]
            simp only [hbytes]
            rw [hloop, hjoin, Nat.add_assoc]
          · rw [hbounce]
            refine ⟨0, mallocs, ?_, Transfers.short hne⟩
            rw [Mem.blit_zero]
            rfl

theorem write_eq {d : Block} {sector : Nat} {buffer : Mem} (h : sector < d.size) :
    d.write sector buffer = .ok { d with
      bytes := d.bytes.blit (sector * BLOCK_SECTOR_SIZE) BLOCK_SECTOR_SIZE buffer } := if_pos h

/-- Reading in a range, changing a part of it and writing it back. -/
theorem blit_blit_within {m f : Mem} {a n ofs chunk : Nat} (h : ofs + chunk ≤ n) :
    m.blit a n (Mem.blit (fun k => m (a + k)) ofs chunk f) = m.blit (a + ofs) chunk f := by
  funext x
  unfold Mem.blit
  by_cases hin : a + ofs ≤ x ∧ x < a + ofs + chunk
  · rw [if_pos hin, if_pos (by omega), if_pos (by omega)]
    exact congrArg f (by omega)
  · rw [if_neg hin]
    by_cases hx : a ≤ x ∧ x < a + n
    · rw [if_pos hx, if_neg (by omega)]
      exact congrArg m (by omega)
    · rw [if_neg hx]

/-- The state after a write to the device. -/
def wrote (s : Fs) (a n : Nat) (f : Mem) (mallocs : List Bool) : Fs :=
  { s with device := { s.device with bytes := s.device.bytes.blit a n f }, mallocs }

theorem wrote_zero (s : Fs) (a : Nat) (f : Mem) (mallocs : List Bool) :
    s.wrote a 0 f mallocs = { s with mallocs } := by
  unfold wrote
  rw [Mem.blit_zero]

/-- One pass of the write loop and the passes behind it. -/
theorem wrote_wrote {s : Fs} {a n k : Nat} {f : Mem} {mallocs₁ mallocs : List Bool} :
    (s.wrote a n f mallocs₁).wrote (a + n) k (fun i => f (n + i)) mallocs =
      s.wrote a (n + k) f mallocs := by
  unfold wrote
  dsimp only
  rw [Mem.blit_blit]

/-- The sector is read first, and writing it back changes only the chunk. -/
theorem bounceWrite_eq {i : Inode} {s : Fs} {size offset chunk : Nat} {f : Mem}
    (hpass : Pass s.device i size offset chunk)
    (hpart : ¬ (offset % BLOCK_SECTOR_SIZE = 0 ∧ chunk = BLOCK_SECTOR_SIZE)) :
    (0 < offset % BLOCK_SECTOR_SIZE ∨ chunk < BLOCK_SECTOR_SIZE - offset % BLOCK_SECTOR_SIZE) ∧
    ∃ data, s.blockRead (byteToSector i offset) = .ok data ∧
      s.blockWrite (byteToSector i offset) (Mem.blit data (offset % BLOCK_SECTOR_SIZE) chunk f) =
        .ok (s.wrote (i.data.start * BLOCK_SECTOR_SIZE + offset) chunk f s.mallocs) := by
  have hwithin := hpass.within
  refine ⟨by omega, _, read_eq hpass.sector, ?_⟩
  unfold blockWrite wrote
  rw [write_eq hpass.sector, ok_bind, blit_blit_within hwithin, hpass.place]

/-- `writeLoop` writes a part of the buffer to the inode's data, as one write of `n` bytes. By
the same induction; a pass over a part of a sector reads the sector first if it has to keep
bytes of it. -/
theorem writeLoop_spec {i : Inode} {buffer : Mem} {fuel : Nat} {bounce : Bool} {s : Fs}
    {size offset bytesWritten : Nat} (hd : OnDevice s.device i.data) (hfuel : size ≤ fuel) :
    ∃ n mallocs, writeLoop i buffer fuel bounce s size offset bytesWritten =
        .ok (s.wrote (i.data.start * BLOCK_SECTOR_SIZE + offset) n
          (fun k => buffer (bytesWritten + k)) mallocs, bytesWritten + n) ∧
      Transfers bounce s.mallocs mallocs (transfer i.data.length size offset) size n := by
  induction fuel generalizing bounce s size offset bytesWritten with
  | zero =>
      have hzero : transfer i.data.length size offset = 0 := by
        unfold transfer
        omega
      refine ⟨0, s.mallocs, ?_, ?_⟩
      · rw [wrote_zero]
        rfl
      · rw [hzero]
        exact Transfers.done
  | succ fuel ih =>
      unfold writeLoop
      dsimp only
      obtain ⟨hend, hzero⟩ | ⟨hgo, hpass⟩ := @pass_cases i size offset _ hd
      · rw [if_pos hend, hzero]
        refine ⟨0, s.mallocs, ?_, Transfers.done⟩
        rw [wrote_zero]
        rfl
      · rw [if_neg hgo]
        generalize (chunkSize i size offset).toNat = chunk at hpass
        have hle := hpass.le
        have hpos := hpass.pos
        -- a chunk and the rest behind it are one write
        have hjoin : ∀ n mallocs₁ mallocs,
            (s.wrote (i.data.start * BLOCK_SECTOR_SIZE + offset) chunk
              (fun k => buffer (bytesWritten + k)) mallocs₁).wrote
                (i.data.start * BLOCK_SECTOR_SIZE + (offset + chunk)) n
                (fun k => buffer (bytesWritten + chunk + k)) mallocs =
            s.wrote (i.data.start * BLOCK_SECTOR_SIZE + offset) (chunk + n)
              (fun k => buffer (bytesWritten + k)) mallocs := by
          intro n mallocs₁ mallocs
          have hparts := @wrote_wrote s (i.data.start * BLOCK_SECTOR_SIZE + offset) chunk n
            (fun k => buffer (bytesWritten + k)) mallocs₁ mallocs
          simp only [Nat.add_assoc] at hparts ⊢
          exact hparts
        rw [hpass.rest]
        by_cases hfull : offset % BLOCK_SECTOR_SIZE = 0 ∧ chunk = BLOCK_SECTOR_SIZE
        · -- a full sector goes to the disk directly
          obtain ⟨n, mallocs, hloop, htransfers⟩ := @ih bounce
            (s.wrote (i.data.start * BLOCK_SECTOR_SIZE + offset) chunk
              (fun k => buffer (bytesWritten + k)) s.mallocs)
            (size - chunk) (offset + chunk) (bytesWritten + chunk) ⟨hd.size_lt, hd.fits⟩ (by omega)
          refine ⟨chunk + n, mallocs, ?_, htransfers.pass fun hlt => ?_⟩
          · have hplace : byteToSector i offset * BLOCK_SECTOR_SIZE =
                i.data.start * BLOCK_SECTOR_SIZE + offset := by
              have hp := hpass.place
              rw [hfull.1, Nat.add_zero] at hp
              exact hp
            have hwrite : s.blockWrite (byteToSector i offset)
                (fun k => buffer (bytesWritten + k)) =
                .ok (s.wrote (i.data.start * BLOCK_SECTOR_SIZE + offset) chunk
                  (fun k => buffer (bytesWritten + k)) s.mallocs) := by
              unfold blockWrite wrote
              rw [write_eq hpass.sector, ok_bind, hplace, hfull.2]
            rw [if_pos hfull, hwrite, ok_bind, hloop, hjoin, Nat.add_assoc]
          · rw [hfull.2] at hle
            omega
        · rw [if_neg hfull]
          obtain ⟨mallocs₁, hbounce, hnil, hb⟩ | ⟨mallocs, hbounce, hne, rfl⟩ :=
            bounceBuffer_cases s bounce
          · -- part of a sector goes through the bounce buffer
            obtain ⟨n, mallocs, hloop, htransfers⟩ := @ih true
              (s.wrote (i.data.start * BLOCK_SECTOR_SIZE + offset) chunk
                (fun k => buffer (bytesWritten + k)) mallocs₁)
              (size - chunk) (offset + chunk) (bytesWritten + chunk) ⟨hd.size_lt, hd.fits⟩
              (by omega)
            refine ⟨chunk + n, mallocs, ?_, htransfers.bounced hnil hb⟩
            obtain ⟨hread, data, hdata, hwrite⟩ := @bounceWrite_eq i
              { s with mallocs := mallocs₁ } size offset chunk
              (fun k => buffer (bytesWritten + k)) hpass hfull
            rw [hbounce]
            dsimp only
            rw [if_pos hread, hdata, ok_bind, hwrite, ok_bind]
            exact hloop.trans (by rw [← hjoin n mallocs₁, Nat.add_assoc])
          · -- no memory for the bounce buffer: the loop stops short
            rw [hbounce]
            refine ⟨0, mallocs, ?_, Transfers.short hne⟩
            rw [wrote_zero]
            rfl

/-- `inode_read_at` on an open inode. -/
theorem inodeReadAt_spec {s : Fs} {i : Inode} {id : Nat} (hi : s.inode id = .ok i)
    (hd : OnDevice s.device i.data) (buffer : Mem) (size offset : Nat) :
    ∃ n mallocs, s.inodeReadAt id buffer size offset =
        .ok ({ s with mallocs },
          buffer.blit 0 n (fun k => data s.device i.data (offset + k)), n) ∧
      Transfers false s.mallocs mallocs (transfer i.data.length size offset) size n := by
  obtain ⟨n, mallocs, hloop, htransfers⟩ := @readLoop_spec i size false s buffer size offset 0 hd
    (Nat.le_refl _)
  refine ⟨n, mallocs, ?_, htransfers⟩
  unfold inodeReadAt
  rw [hi, ok_bind, hloop, Nat.zero_add]

/-- `inode_write_at` on an open inode to which writes are allowed. -/
theorem inodeWriteAt_spec {s : Fs} {i : Inode} {id : Nat} (hi : s.inode id = .ok i)
    (hd : OnDevice s.device i.data) (hdeny : i.denyWriteCnt = 0) (buffer : Mem)
    (size offset : Nat) :
    ∃ n mallocs, s.inodeWriteAt id buffer size offset =
        .ok (s.wrote (i.data.start * BLOCK_SECTOR_SIZE + offset) n buffer mallocs, n) ∧
      Transfers false s.mallocs mallocs (transfer i.data.length size offset) size n := by
  obtain ⟨n, mallocs, hloop, htransfers⟩ := @writeLoop_spec i buffer size false s size offset 0 hd
    (Nat.le_refl _)
  simp only [Nat.zero_add] at hloop
  refine ⟨n, mallocs, ?_, htransfers⟩
  unfold inodeWriteAt
  rw [hi, ok_bind, if_neg (not_not_intro hdeny)]
  exact hloop

/-- `inode_write_at` on an inode to which writes are denied. -/
theorem inodeWriteAt_denied {s : Fs} {i : Inode} {id : Nat} (hi : s.inode id = .ok i)
    (hdeny : i.denyWriteCnt ≠ 0) (buffer : Mem) (size offset : Nat) :
    s.inodeWriteAt id buffer size offset = .ok (s, 0) := by
  unfold inodeWriteAt
  rw [hi, ok_bind, if_pos hdeny]

end Fs

end Filesys

end OsTools

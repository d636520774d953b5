import OsTools.Filesys.Layout
/-!
# OsTools.Filesys.Alloc

What the operations on the free map and `inode_create` do to the file system:
they keep the references, change the device in the free map's file and in the
sectors they hand out, and the bits of the free map as they should.

`Synced` says that the file of the free map holds the free map. When memory does
not run out, each of the operations leaves it so.

## Proof shape

Each operation has one lemma, which says what it leaves whatever `malloc` does, and what it
returns if memory does not run out. `Frame s s' B` is the part about everything else: the
references stay, and the device changes in the sectors `B` only. Frames compose, so that the lemma
about `inode_create` is put together from `Core.freeMapAllocate` and `Fs.writeInode_spec`.

The free map is changed in memory first and then written to its file. `Core.bitmapWrite` needs no
more than `Core` for this, since writing the map is a write to the data of an inode like any other;
that the file then holds the map is its conclusion for states in which memory does not run out
and nobody denies writes to it (`Ready`). A `free_map_allocate` whose write fails takes the change
back; a `free_map_release` does not look.
-/

namespace OsTools.Filesys

open OsTools.Kernel

/-- From `s` to `s'` the references stay and the device changes in `B`. -/
structure Frame (s s' : Fs) (B : Nat → Prop) : Prop where
  openInodes : s'.openInodes = s.openInodes
  nextId : s'.nextId = s.nextId
  freeMapFile : s'.freeMapFile = s.freeMapFile
  device : Changed s.device s'.device B

theorem Frame.refl (s : Fs) (B : Nat → Prop) : Frame s s B := ⟨rfl, rfl, rfl, Changed.refl _ B⟩

theorem Frame.mono {s s' : Fs} {B C : Nat → Prop} (h : Frame s s' B) (hBC : ∀ b, B b → C b) :
    Frame s s' C := ⟨h.openInodes, h.nextId, h.freeMapFile, h.device.mono hBC⟩

theorem Frame.trans {s s₁ s' : Fs} {B : Nat → Prop} (h₁ : Frame s s₁ B) (h₂ : Frame s₁ s' B) :
    Frame s s' B :=
  ⟨h₂.openInodes.trans h₁.openInodes, h₂.nextId.trans h₁.nextId,
    h₂.freeMapFile.trans h₁.freeMapFile, h₁.device.trans h₂.device⟩

/-- Memory does not run out, and the file of the free map can be written. -/
structure Ready (s : Fs) (ds : List Nat) : Prop where
  mallocs : s.mallocs = []
  length : (diskInode s.device FREE_MAP_SECTOR).length = byteCnt s.freeMap.bitCnt
  allowed : ∀ f, s.freeMapFile = some f → f.inode ∉ ds

/-- The file of the free map holds the free map, up to the unused bits of its last
element. -/
structure Synced (s : Fs) (ds : List Nat) : Prop extends Ready s ds where
  bits : ∀ k, k < s.freeMap.bitCnt →
    Bitmap.bit ⟨s.freeMap.bitCnt, Fs.data s.device (diskInode s.device FREE_MAP_SECTOR)⟩ k =
      s.freeMap.bit k

namespace Core

variable {s s' : Fs} {L : Nat → Prop} {hs ds : List Nat}

/-- A change outside the inodes' own sectors, and of the free map outside what
they own. -/
theorem frame (h : Core s L hs ds) {B : Nat → Prop} (hf : Frame s s' B) (hB : ∀ x, L x → ¬ B x)
    (hlayout : Layout s.device s'.freeMap L) : Core s' L hs ds := by
  refine ⟨hlayout.changed hf.device hB, ?_, fun i hi => ?_, ?_⟩
  · rw [hf.openInodes, hf.nextId]
    exact h.table
  · rw [hf.openInodes] at hi
    obtain ⟨hL, hdata⟩ := h.backed i hi
    exact ⟨hL, hdata.trans (hf.device.diskInode (hB _ hL)).symm⟩
  · rw [hf.openInodes, hf.freeMapFile]
    exact h.mapFile

/-- The references to an inode lead to it. -/
theorem inode (h : Core s L hs ds) {id : Nat} (hid : id ∈ hs) :
    ∃ i ∈ s.openInodes, i.id = id ∧ s.inode id = .ok i ∧ L i.sector ∧
      i.data = diskInode s.device i.sector ∧ i.denyWriteCnt = ds.count id ∧
      i.openCnt = hs.count id := by
  obtain ⟨i, hi, rfl⟩ := h.table.live id hid
  exact ⟨i, hi, rfl, h.table.inode hi, (h.backed i hi).1, (h.backed i hi).2,
    h.table.denyWriteCnt i hi, (h.table.openCnt i hi).1⟩

/-- A write within the data of an inode. -/
theorem wrote_frame (h : Core s L hs ds) {x : Nat} (hx : L x) {offset n : Nat} (f : Mem)
    (mallocs : List Bool) (hn : n ≤ (diskInode s.device x).length.toNat - offset) :
    Frame s (s.wrote ((diskInode s.device x).start * BLOCK_SECTOR_SIZE + offset) n f mallocs)
      (DataSector s.device x) := by
  refine ⟨rfl, rfl, rfl, rfl, fun a ha => Mem.blit_of_outside ?_⟩
  have hle := h.layout.length_le hx
  unfold DataSector at ha
  unfold BLOCK_SECTOR_SIZE at *
  by_contra hin
  refine ha ⟨?_, ?_⟩
  · omega
  · omega

/-- A write through an open inode keeps the invariant. -/
theorem wrote (h : Core s L hs ds) {x : Nat} (hx : L x) {offset n : Nat} (f : Mem)
    (mallocs : List Bool) (hn : n ≤ (diskInode s.device x).length.toNat - offset) :
    Core (s.wrote ((diskInode s.device x).start * BLOCK_SECTOR_SIZE + offset) n f mallocs)
      L hs ds :=
  h.frame (h.wrote_frame hx f mallocs hn) (fun _ hy => h.layout.not_data hy hx) h.layout

theorem setMallocs (h : Core s L hs ds) (mallocs : List Bool) :
    Core { s with mallocs } L hs ds := ⟨h.layout, h.table, h.backed, h.mapFile⟩

/-- `inode_write_at` through a reference. -/
theorem inodeWriteAt (h : Core s L hs ds) {i : Inode} (hi : i ∈ s.openInodes) (buffer : Mem)
    (size offset : Nat) : ∃ n mallocs,
      s.inodeWriteAt i.id buffer size offset =
        .ok (s.wrote ((diskInode s.device i.sector).start * BLOCK_SECTOR_SIZE + offset) n buffer
          mallocs, n) ∧
      n ≤ Fs.transfer (diskInode s.device i.sector).length size offset ∧
      (i.denyWriteCnt = 0 → Fs.Transfers false s.mallocs mallocs
        (Fs.transfer (diskInode s.device i.sector).length size offset) size n) ∧
      (i.denyWriteCnt ≠ 0 → n = 0) := by
  have hfind := h.table.inode hi
  obtain ⟨hL, hdata⟩ := h.backed i hi
  have hon := h.layout.fsOnDevice hL
  rw [← hdata] at hon ⊢
  by_cases hdeny : i.denyWriteCnt = 0
  · obtain ⟨n, mallocs, hwrite, htransfers⟩ := Fs.inodeWriteAt_spec hfind hon hdeny buffer size
      offset
    exact ⟨n, mallocs, hwrite, htransfers.le, fun _ => htransfers, fun hne => absurd hdeny hne⟩
  · refine ⟨0, s.mallocs, ?_, Nat.zero_le _, fun h0 => absurd h0 hdeny, fun _ => rfl⟩
    rw [Fs.inodeWriteAt_denied hfind hdeny, Fs.wrote_zero]

/-- `inode_read_at` through a reference. -/
theorem inodeReadAt (h : Core s L hs ds) {i : Inode} (hi : i ∈ s.openInodes) (buffer : Mem)
    (size offset : Nat) : ∃ n mallocs,
      s.inodeReadAt i.id buffer size offset = .ok ({ s with mallocs }, buffer.blit 0 n
        (fun k => Fs.data s.device (diskInode s.device i.sector) (offset + k)), n) ∧
      Fs.Transfers false s.mallocs mallocs
        (Fs.transfer (diskInode s.device i.sector).length size offset) size n := by
  obtain ⟨hL, hdata⟩ := h.backed i hi
  have hon := h.layout.fsOnDevice hL
  rw [← hdata] at hon ⊢
  exact Fs.inodeReadAt_spec (h.table.inode hi) hon buffer size offset

/-- The inode of the free map's file. -/
theorem mapInode (h : Core s L hs ds) : ∃ f i, s.freeMapFile = some f ∧ i ∈ s.openInodes ∧
    i.id = f.inode ∧ i.sector = FREE_MAP_SECTOR ∧ L FREE_MAP_SECTOR ∧
      i.denyWriteCnt = ds.count f.inode := by
  obtain ⟨f, hf, hid, hsector⟩ := h.mapFile
  obtain ⟨i, hi, hii, -, hL, -, hdeny, -⟩ := h.inode hid
  have hzero := hsector i hi hii
  rw [hzero] at hL
  exact ⟨f, i, hf, hi, hii, hzero, hL, hdeny⟩

/-! ### The free map -/

theorem byteCnt_lt {b : Bitmap} (hb : b.Fits) : byteCnt b.bitCnt < 2 ^ 31 := by
  unfold byteCnt
  rw [Bitmap.elemCnt_eq hb]
  unfold Bitmap.Fits at hb
  omega

/-- `bitmap_write` to the file of the free map. Its sectors belong to no other inode, so that
the layout is not disturbed, and it has as many bytes as the map; if no call of `malloc` fails
all of them are written, and the map on the disk is the one in memory. -/
theorem bitmapWrite (h : Core s L hs ds) : ∃ s' ok,
    s.bitmapWrite s.freeMap s.freeMapFile = .ok (s', ok) ∧
      Frame s s' (DataSector s.device FREE_MAP_SECTOR) ∧ s'.freeMap = s.freeMap ∧
      Core s' L hs ds ∧ (Ready s ds → ok = true ∧ Synced s' ds) := by
  obtain ⟨f, i, hf, hi, hid, hsector, hL, hdeny⟩ := h.mapInode
  obtain ⟨n, mallocs, hwrite, hle, htransfers, -⟩ := h.inodeWriteAt hi s.freeMap.bits
    (byteCnt s.freeMap.bitCnt) 0
  rw [hsector] at hwrite hle htransfers
  have hn : n ≤ (diskInode s.device FREE_MAP_SECTOR).length.toNat - 0 := by
    unfold Fs.transfer at hle
    omega
  have hframe := h.wrote_frame hL s.freeMap.bits mallocs hn
  refine ⟨_, decide (n = byteCnt s.freeMap.bitCnt), ?_, hframe, rfl,
    h.wrote hL s.freeMap.bits mallocs hn, fun hready => ?_⟩
  · unfold Fs.bitmapWrite Fs.fileWriteAt
    rw [hf]
    dsimp only
    rw [← hid, hwrite]
    rfl
  · have hzero : i.denyWriteCnt = 0 := by
      rw [hdeny, List.count_eq_zero_of_not_mem (hready.allowed f hf)]
      rfl
    obtain ⟨hmallocs, hall⟩ := (htransfers hzero).all hready.mallocs
    have htotal : n = byteCnt s.freeMap.bitCnt := by
      rw [hall]
      unfold Fs.transfer
      rw [hready.length]
      omega
    have hsame : diskInode (s.wrote ((diskInode s.device FREE_MAP_SECTOR).start *
        BLOCK_SECTOR_SIZE + 0) n s.freeMap.bits mallocs).device FREE_MAP_SECTOR =
          diskInode s.device FREE_MAP_SECTOR :=
      hframe.device.diskInode (h.layout.not_data hL hL)
    refine ⟨decide_eq_true htotal, ⟨hmallocs, ?_, hready.allowed⟩, fun k hk => ?_⟩
    · rw [hsame]
      exact hready.length
    · refine Bitmap.bit_congr h.layout.fits (fun j hj => ?_) hk
      have hlt : j < n := by
        rw [htotal]
        exact hj
      rw [hsame]
      unfold Fs.data Fs.wrote
      dsimp only
      rw [Nat.add_zero, Mem.blit_of_inside hlt]

/-- Marking more sectors, or forgetting those nobody owns. -/
theorem setFreeMap (h : Core s L hs ds) {b : Bitmap} (hcnt : b.bitCnt = s.freeMap.bitCnt)
    (hbit : ∀ x k, L x → Owns s.device x k → b.bit k = true) :
    Core { s with freeMap := b } L hs ds := by
  have hfits : b.Fits := by
    have hfits := h.layout.fits
    unfold Bitmap.Fits at *
    rw [hcnt]
    exact hfits
  exact ⟨h.layout.bits hfits hcnt hbit, h.table, h.backed, h.mapFile⟩

/-- `free_map_allocate`: a group of clear bits, the first there is, is marked, or
nothing changes. -/
theorem freeMapAllocate (h : Core s L hs ds) (cnt : Nat) : ∃ s' r,
    s.freeMapAllocate cnt = .ok (s', r) ∧
      Frame s s' (DataSector s.device FREE_MAP_SECTOR) ∧ Core s' L hs ds ∧
      s'.freeMap.bitCnt = s.freeMap.bitCnt ∧
      (r = none → ∀ k, s'.freeMap.bit k = s.freeMap.bit k) ∧
      (∀ start, r = some start → s.freeMap.First 0 cnt false start ∧
        ∀ k, s'.freeMap.bit k = if start ≤ k ∧ k < start + cnt then true else s.freeMap.bit k) ∧
      (Synced s ds → Synced s' ds ∧
        (r = none → ∀ j, j + cnt ≤ s.freeMap.bitCnt → ¬ s.freeMap.Group j cnt false)) := by
  obtain ⟨b, r, hscan, hcnt, hnone, hsome⟩ := Bitmap.scanAndFlip_spec h.layout.fits.lt cnt
  obtain ⟨f, i, hf, -⟩ := h.mapInode
  unfold Fs.freeMapAllocate
  rw [hscan, ok_bind]
  dsimp only
  cases r with
  | none =>
      obtain ⟨hb, hgroup⟩ := hnone rfl
      rw [hb]
      exact ⟨s, none, rfl, Frame.refl s _, h, rfl, fun _ _ => rfl, fun _ hr => (by cases hr),
        fun hsynced => ⟨hsynced, fun _ => hgroup⟩⟩
  | some start =>
      obtain ⟨hfirst, hbit⟩ := hsome start rfl
      have hcore : Core { s with freeMap := b } L hs ds := by
        refine h.setFreeMap hcnt fun x k hx hk => ?_
        rw [hbit k, h.layout.used x k hx hk]
        split <;> rfl
      obtain ⟨s₁, ok, hwrite, hframe, hmap, hcore₁, hready⟩ := hcore.bitmapWrite
      dsimp only at hwrite hmap
      rw [hf] at hwrite ⊢
      dsimp only
      rw [hwrite, ok_bind]
      dsimp only
      have hframe' : Frame s s₁ (DataSector s.device FREE_MAP_SECTOR) :=
        ⟨hframe.openInodes, hframe.nextId, hframe.freeMapFile.trans rfl, hframe.device⟩
      cases ok with
      | true =>
          rw [if_pos rfl]
          refine ⟨s₁, some start, rfl, hframe', hcore₁, ?_, fun hr => (by cases hr),
            fun start' hr => ?_, fun hsynced => ⟨?_, fun hr => (by cases hr)⟩⟩
          · rw [hmap, hcnt]
          · cases hr
            rw [hmap]
            exact ⟨hfirst, hbit⟩
          · refine (hready ⟨hsynced.mallocs, ?_, hsynced.allowed⟩).2
            dsimp only
            rw [hcnt]
            exact hsynced.length
      | false =>
          -- the write fails, and the bits are cleared again
          have hle : start + cnt ≤ s₁.freeMap.bitCnt := by
            rw [hmap, hcnt]
            exact hfirst.le
          obtain ⟨b', hset, hcnt', hbit'⟩ := Bitmap.setMultiple_spec hcore₁.layout.fits.lt hle false
          have hsame : ∀ k, b'.bit k = s.freeMap.bit k := by
            intro k
            rw [hbit' k, hmap, hbit k]
            split
            · rename_i hin
              exact (hfirst.group k hin.1 hin.2).symm
            · rfl
          rw [if_neg (by decide), hset]
          refine ⟨{ s₁ with freeMap := b' }, none, rfl,
            ⟨hframe'.openInodes, hframe'.nextId, hframe'.freeMapFile, hframe'.device⟩, ?_,
            ?_, fun _ => hsame, fun _ hr => (by cases hr), fun hsynced => ?_⟩
          · refine hcore₁.setFreeMap hcnt' fun x k hx hk => ?_
            rw [hsame k]
            refine h.layout.used x k hx (hk.imp_right fun hdata => ?_)
            unfold DataSector at hdata
            rw [hframe.device.diskInode (h.layout.not_data hx ?_)] at hdata
            · exact hdata
            · obtain ⟨-, -, -, -, -, -, hL, -⟩ := h.mapInode
              exact hL
          · rw [hcnt', hmap, hcnt]
          · have hok := (hready ⟨hsynced.mallocs, by
              dsimp only
              rw [hcnt]
              exact hsynced.length, hsynced.allowed⟩).1
            cases hok

/-- `free_map_release` of sectors that are marked and belong to no inode. -/
theorem freeMapRelease (h : Core s L hs ds) {start cnt : Nat}
    (hle : start + cnt ≤ s.freeMap.bitCnt)
    (hset : ∀ k, start ≤ k → k < start + cnt → s.freeMap.bit k = true)
    (hfree : ∀ x k, L x → Owns s.device x k → ¬ (start ≤ k ∧ k < start + cnt)) : ∃ s',
    s.freeMapRelease start cnt = .ok s' ∧
      Frame s s' (DataSector s.device FREE_MAP_SECTOR) ∧ Core s' L hs ds ∧
      s'.freeMap.bitCnt = s.freeMap.bitCnt ∧
      (∀ k, s'.freeMap.bit k = if start ≤ k ∧ k < start + cnt then false
        else s.freeMap.bit k) ∧
      (Ready s ds → Synced s' ds) := by
  obtain ⟨b, hb, hcnt, hbit⟩ := Bitmap.setMultiple_spec h.layout.fits.lt hle false
  have hcore : Core { s with freeMap := b } L hs ds := by
    refine h.setFreeMap hcnt fun x k hx hk => ?_
    rw [hbit k, if_neg (hfree x k hx hk), h.layout.used x k hx hk]
  obtain ⟨s₁, ok, hwrite, hframe, hmap, hcore₁, hready⟩ := hcore.bitmapWrite
  have hall : s.freeMap.all start cnt = .ok true :=
    Bitmap.all_eq_true h.layout.fits.lt hle hset
  refine ⟨s₁, ?_, ⟨hframe.openInodes, hframe.nextId, hframe.freeMapFile, hframe.device⟩, hcore₁,
    ?_, fun k => ?_, fun hr => (hready ⟨hr.mallocs, ?_, hr.allowed⟩).2⟩
  · unfold Fs.freeMapRelease
    rw [hall, ok_bind, if_neg (by decide), hb, ok_bind]
    dsimp only at hwrite ⊢
    rw [hwrite]
    rfl
  · rw [hmap, hcnt]
  · rw [hmap, hbit k]
  · dsimp only
    rw [hcnt]
    exact hr.length

end Core

/-! ### Creating an inode -/

theorem Fs.malloc_cases (s : Fs) : ∃ ok mallocs, s.malloc = (ok, { s with mallocs }) ∧
    (s.mallocs = [] → ok = true ∧ mallocs = []) := by
  obtain ⟨device, openInodes, nextId, freeMap, freeMapFile, mallocs⟩ := s
  cases mallocs with
  | nil => exact ⟨true, [], rfl, fun _ => ⟨rfl, rfl⟩⟩
  | cons ok mallocs => exact ⟨ok, mallocs, rfl, fun h => (by cases h)⟩

theorem Fs.blockWrite_eq {s : Fs} {sector : Nat} {buffer : Mem} (h : sector < s.device.size) :
    s.blockWrite sector buffer =
      .ok (s.wrote (sector * BLOCK_SECTOR_SIZE) BLOCK_SECTOR_SIZE buffer s.mallocs) := by
  unfold Fs.blockWrite
  rw [Fs.write_eq h]
  rfl

theorem Fs.zeroLoop_spec {n : Nat} {s : Fs} {sector : Nat} (h : sector + n ≤ s.device.size) :
    Fs.zeroLoop n s sector = .ok (s.wrote (sector * BLOCK_SECTOR_SIZE) (n * BLOCK_SECTOR_SIZE)
      (fun _ => 0) s.mallocs) := by
  induction n generalizing s sector with
  | zero =>
      rw [Nat.zero_mul, Fs.wrote_zero]
      rfl
  | succ n ih =>
      unfold Fs.zeroLoop
      rw [Fs.blockWrite_eq (by omega), ok_bind, ih (by
        unfold Fs.wrote
        dsimp only
        omega), Nat.add_mul, Nat.one_mul, Fs.wrote_wrote, Nat.add_mul, Nat.one_mul,
        Nat.add_comm BLOCK_SECTOR_SIZE]
      rfl

/-- The fields of an inode come back from the sector it is stored in. -/
theorem decode_encode {i : InodeDisk} (hstart : i.start < 2 ^ 32) (h₀ : 0 ≤ i.length)
    (h₁ : i.length < 2 ^ 31) (hmagic : i.magic < 2 ^ 32) :
    InodeDisk.decode (InodeDisk.encode i) = i := by
  obtain ⟨start, length, magic⟩ := i
  have hlength : toUInt32 length < 256 ^ 4 := by
    unfold toUInt32
    omega
  have hint : toInt32 (toUInt32 length) = length := by
    unfold toInt32 toUInt32
    dsimp only at h₀ h₁
    rw [if_pos (by omega)]
    omega
  have hs : ∀ m : Mem, (m.store 0 4 start).load 0 4 = start := fun m => Mem.load_store hstart
  have hl : ∀ m : Mem, (m.store 4 4 (toUInt32 length)).load 4 4 = toUInt32 length := fun m =>
    Mem.load_store hlength
  have hm : ∀ m : Mem, (m.store 8 4 magic).load 8 4 = magic := fun m => Mem.load_store hmagic
  have hskip : ∀ (m : Mem) (a b v : Nat), a + 4 ≤ b → (m.store b 4 v).load a 4 = m.load a 4 :=
    fun m a b v hab => Mem.load_blit_of_disjoint (Or.inl hab)
  unfold InodeDisk.decode InodeDisk.encode
  dsimp only
  rw [hskip _ 0 8 _ (by omega), hskip _ 0 4 _ (by omega), hskip _ 4 8 _ (by omega), hs, hl, hm, hint]

/-- What a successful `inode_create` leaves: `length` zero bytes, in the first
sectors that were free. -/
structure Created (s s' : Fs) (x : Nat) (length : Int) (start : Nat) : Prop where
  first : s.freeMap.First 0 (bytesToSectors length) false start
  bit : ∀ k, s'.freeMap.bit k =
    if start ≤ k ∧ k < start + bytesToSectors length then true else s.freeMap.bit k
  inode : diskInode s'.device x = ⟨start, length, INODE_MAGIC⟩
  zero : ∀ k, k < length.toNat → Fs.data s'.device (diskInode s'.device x) k = 0

/-- A change outside the sectors of the free map's file. -/
theorem Synced.frame {s s' : Fs} {L : Nat → Prop} {hs ds : List Nat} {B : Nat → Prop}
    (h : Synced s ds) (hc : Core s L hs ds) (hf : Frame s s' B) (hmap : s'.freeMap = s.freeMap)
    (hmallocs : s'.mallocs = []) (hB : ∀ b, Owns s.device FREE_MAP_SECTOR b → ¬ B b) :
    Synced s' ds := by
  obtain ⟨f, -, -, -, -, -, hL, -⟩ := hc.mapInode
  have hsame := hf.device.diskInode (hB _ (Or.inl rfl))
  refine ⟨⟨hmallocs, ?_, ?_⟩, fun k hk => ?_⟩
  · rw [hsame, hmap]
    exact h.length
  · rw [hf.freeMapFile]
    exact h.allowed
  · rw [hmap] at hk ⊢
    refine Eq.trans ?_ (h.bits k hk)
    refine @Bitmap.bit_congr ⟨s.freeMap.bitCnt, _⟩ k _ hc.layout.fits (fun j hj => ?_) hk
    have hlt : j < (diskInode s.device FREE_MAP_SECTOR).length.toNat := by
      rw [h.length]
      exact hj
    dsimp only
    rw [hsame, hc.layout.data_eq hf.device hL (fun b hb => hB b (Or.inr hb)) hlt]

/-- Which files deny writes matters for the file of the free map only. -/
theorem Synced.of_allowed {s : Fs} {ds ds' : List Nat} (h : Synced s ds)
    (hds : ∀ f, s.freeMapFile = some f → f.inode ∉ ds') : Synced s ds' :=
  ⟨⟨h.mallocs, h.length, hds⟩, h.bits⟩

theorem Synced.allocated {s : Fs} {ds : List Nat} (h : Synced s ds) : s.malloc = (true, s) := by
  unfold Fs.malloc
  rw [h.mallocs]

/-- The inode that `inode_create` writes into sector `x`, and its `n` cleared data
sectors from `start` on, are new to the inodes in `L`. -/
theorem Fs.writeInode_spec {s : Fs} {L : Nat → Prop} {x start : Nat} {length : Int}
    (h : Layout s.device s.freeMap L) (hlt : x < s.device.size) (hx : s.freeMap.bit x = true)
    (hend : start + bytesToSectors length ≤ s.device.size)
    (hrange : ∀ b, start ≤ b → b < start + bytesToSectors length →
      b ≠ x ∧ s.freeMap.bit b = true)
    (hnot : ∀ y b, L y → Owns s.device y b →
      ¬ (b = x ∨ (start ≤ b ∧ b < start + bytesToSectors length)))
    (h₀ : 0 ≤ length) (h₁ : length < 2 ^ 31) : ∃ s₁ s',
    s.blockWrite x (InodeDisk.encode ⟨start, length, INODE_MAGIC⟩) = .ok s₁ ∧
      Fs.zeroLoop (bytesToSectors length) s₁ start = .ok s' ∧
      Frame s s' (fun b => b = x ∨ (start ≤ b ∧ b < start + bytesToSectors length)) ∧
      s'.freeMap = s.freeMap ∧ s'.mallocs = s.mallocs ∧
      diskInode s'.device x = ⟨start, length, INODE_MAGIC⟩ ∧
      (∀ k, k < length.toNat → Fs.data s'.device (diskInode s'.device x) k = 0) ∧
      Layout s'.device s'.freeMap fun y => L y ∨ y = x := by
  generalize hs₁ : s.wrote (x * BLOCK_SECTOR_SIZE) BLOCK_SECTOR_SIZE
    (InodeDisk.encode ⟨start, length, INODE_MAGIC⟩) s.mallocs = s₁
  have hsize₁ : s₁.device.size = s.device.size := by
    rw [← hs₁]
    rfl
  generalize hs' : s₁.wrote (start * BLOCK_SECTOR_SIZE)
    (bytesToSectors length * BLOCK_SECTOR_SIZE) (fun _ => 0) s₁.mallocs = s'
  -- the two writes change the inode's own sectors only
  have hframe : Frame s s' fun b => b = x ∨
      (start ≤ b ∧ b < start + bytesToSectors length) := by
    rw [← hs', ← hs₁]
    refine ⟨rfl, rfl, rfl, rfl, fun a ha => ?_⟩
    have hnx : ¬ a / BLOCK_SECTOR_SIZE = x := fun h => ha (Or.inl h)
    have hns : ¬ (start ≤ a / BLOCK_SECTOR_SIZE ∧
        a / BLOCK_SECTOR_SIZE < start + bytesToSectors length) := fun h => ha (Or.inr h)
    unfold BLOCK_SECTOR_SIZE at hnx hns ⊢
    unfold Fs.wrote
    dsimp only
    rw [Mem.blit_of_outside (by omega), Mem.blit_of_outside (by omega)]
  have hmap : s'.freeMap = s.freeMap := by
    rw [← hs', ← hs₁]
    rfl
  have hxout : ¬ (start ≤ x ∧ x < start + bytesToSectors length) := fun hb =>
    (hrange x hb.1 hb.2).1 rfl
  have hinode : diskInode s'.device x = ⟨start, length, INODE_MAGIC⟩ := by
    have hstart : start < 2 ^ 32 := by
      have := h.size_lt
      omega
    refine Eq.trans (decode_congr fun i hi => ?_)
      (@decode_encode ⟨start, length, INODE_MAGIC⟩ hstart h₀ h₁
        (show INODE_MAGIC < 2 ^ 32 by decide))
    rw [← hs', ← hs₁]
    unfold Fs.wrote
    dsimp only
    unfold BLOCK_SECTOR_SIZE
    rw [Mem.blit_of_outside (by omega), Mem.blit_of_inside (by omega)]
  have hdata : ∀ b, DataSector s'.device x b →
      start ≤ b ∧ b < start + bytesToSectors length := by
    intro b hb
    unfold DataSector at hb
    rw [hinode] at hb
    exact hb
  have hkeep : Layout s'.device s'.freeMap L := by
    rw [hmap]
    exact h.changed hframe.device fun y hy => hnot y y hy (Or.inl rfl)
  have howns : ∀ y b, L y → Owns s'.device y b → Owns s.device y b := by
    intro y b hy hb
    refine hb.imp_right fun hdata => ?_
    unfold DataSector at hdata
    rw [hframe.device.diskInode (hnot y y hy (Or.inl rfl))] at hdata
    exact hdata
  have hlayout : Layout s'.device s'.freeMap fun y => L y ∨ y = x := by
    refine hkeep.insert ?_ ?_ ?_ (fun hb => hxout (hdata x hb)) (fun b hb => ?_)
      fun y b hy hby hbx => ?_
    · rw [hframe.device.size]
      exact hlt
    · rw [hinode]
      exact h₀
    · rw [hinode, hframe.device.size]
      exact hend
    · rw [hmap]
      rcases hb with rfl | hb
      · exact hx
      · exact (hrange b (hdata b hb).1 (hdata b hb).2).2
    · exact hnot y b hy (howns y b hy hby) (hbx.imp_right (hdata b))
  refine ⟨s₁, s', ?_, ?_, hframe, hmap, ?_, hinode, fun k hk => ?_, hlayout⟩
  · rw [Fs.blockWrite_eq hlt, hs₁]
  · rw [Fs.zeroLoop_spec (by rw [hsize₁]; exact hend), hs']
  · rw [← hs', ← hs₁]
    rfl
  · have hle := (bytesToSectors_spec h₀ h₁).1
    rw [hinode, ← hs']
    unfold Fs.data Fs.wrote
    dsimp only
    rw [Mem.blit_of_inside (Nat.lt_of_lt_of_le hk hle)]

/-- `inode_create` in a sector that is marked and belongs to no inode. The inode and its
contents go into sectors that were free, so that no other inode owns one of them. If it fails,
the free map is as it was, and if memory did not run out this was for want of free sectors in
a row. -/
theorem Core.inodeCreate {s : Fs} {L : Nat → Prop} {hs ds : List Nat} (h : Core s L hs ds)
    {x : Nat} {length : Int} (hlt : x < s.device.size) (hx : s.freeMap.bit x = true)
    (hown : ∀ y, L y → ¬ Owns s.device y x) (h₀ : 0 ≤ length) (h₁ : length < 2 ^ 31) :
    ∃ s' ok, s.inodeCreate x length = .ok (s', ok) ∧
      Frame s s' (fun b => b = x ∨ DataSector s.device FREE_MAP_SECTOR b ∨
        s.freeMap.bit b = false) ∧
      s'.freeMap.bitCnt = s.freeMap.bitCnt ∧
      (ok = false → Core s' L hs ds ∧ ∀ k, s'.freeMap.bit k = s.freeMap.bit k) ∧
      (ok = true → Core s' (fun y => L y ∨ y = x) hs ds ∧ ∃ start, Created s s' x length start) ∧
      (Synced s ds → Synced s' ds ∧ (ok = false → ∀ j,
        j + bytesToSectors length ≤ s.freeMap.bitCnt →
          ¬ s.freeMap.Group j (bytesToSectors length) false)) := by
  obtain ⟨ok, mallocs, hmalloc, hready⟩ := Fs.malloc_cases s
  unfold Fs.inodeCreate
  rw [if_neg (by omega), hmalloc]
  cases ok with
  | false =>
      -- `calloc` fails
      refine ⟨_, false, rfl, ⟨rfl, rfl, rfl, Changed.refl _ _⟩, rfl,
        fun _ => ⟨h.setMallocs mallocs, fun _ => rfl⟩, fun ht => (by cases ht), fun hsynced => ?_⟩
      cases (hready hsynced.mallocs).1
  | true =>
      dsimp only
      obtain ⟨s₂, r, halloc, hframe, hcore, hcnt, hnone, hsome, hsync⟩ :=
        (h.setMallocs mallocs).freeMapAllocate (bytesToSectors length)
      dsimp only at hframe hcnt hnone hsome hsync
      rw [halloc, ok_bind]
      have hsynced₂ : Synced s ds → Synced s₂ ds ∧ (r = none → ∀ j,
          j + bytesToSectors length ≤ s.freeMap.bitCnt →
            ¬ s.freeMap.Group j (bytesToSectors length) false) := fun hsynced =>
        hsync ⟨⟨(hready hsynced.mallocs).2, hsynced.length, hsynced.allowed⟩, hsynced.bits⟩
      have hframe₂ : Frame s s₂ (DataSector s.device FREE_MAP_SECTOR) :=
        ⟨hframe.openInodes, hframe.nextId, hframe.freeMapFile, hframe.device⟩
      cases r with
      | none =>
          -- there are not so many free sectors in a row
          exact ⟨s₂, false, rfl, hframe₂.mono fun b hb => Or.inr (Or.inl hb), hcnt,
            fun _ => ⟨hcore, hnone rfl⟩, fun ht => (by cases ht),
            fun hsynced => ⟨(hsynced₂ hsynced).1, fun _ => (hsynced₂ hsynced).2 rfl⟩⟩
      | some start =>
          obtain ⟨hfirst, hbit⟩ := hsome start rfl
          have hsize : s₂.device.size = s.device.size := hframe.device.size
          have hend : start + bytesToSectors length ≤ s.device.size := by
            rw [← h.layout.bitCnt]
            exact hfirst.le
          -- what was allocated was free, so it belongs to no inode and is not `x`
          have hin : ∀ b, start ≤ b → b < start + bytesToSectors length →
              s.freeMap.bit b = false := fun b hb₁ hb₂ => hfirst.group b hb₁ hb₂
          have hxout : ¬ (start ≤ x ∧ x < start + bytesToSectors length) := by
            intro hb
            rw [hin x hb.1 hb.2] at hx
            cases hx
          have hmapL : L FREE_MAP_SECTOR := by
            obtain ⟨-, -, -, -, -, -, hL, -⟩ := h.mapInode
            exact hL
          have howns : ∀ y b, L y → Owns s₂.device y b → Owns s.device y b := by
            intro y b hy hb
            refine hb.imp_right fun hdata => ?_
            unfold DataSector at hdata
            rw [hframe.device.diskInode (h.layout.not_data hy hmapL)] at hdata
            exact hdata
          have hnot : ∀ y b, L y → Owns s₂.device y b →
              ¬ (b = x ∨ (start ≤ b ∧ b < start + bytesToSectors length)) := by
            intro y b hy hb hnew
            rcases hnew with rfl | ⟨hb₁, hb₂⟩
            · exact hown y hy (howns y b hy hb)
            · have hmarked := h.layout.used y b hy (howns y b hy hb)
              rw [hin b hb₁ hb₂] at hmarked
              cases hmarked
          obtain ⟨s₃, s₄, hwrite, hzeroes, hframe₄, hmap₄, hmallocs, hinode, hzero, hlayout⟩ :=
            @Fs.writeInode_spec s₂ L x start length hcore.layout (by rw [hsize]; exact hlt)
              (by rw [hbit x, if_neg hxout]; exact hx) (by rw [hsize]; exact hend)
              (fun b hb₁ hb₂ => ⟨fun heq => hxout (heq ▸ ⟨hb₁, hb₂⟩), by
                rw [hbit b, if_pos ⟨hb₁, hb₂⟩]⟩) hnot h₀ h₁
          have hcore₄ : Core s₄ L hs ds := by
            refine hcore.frame hframe₄ (fun y hy => hnot y y hy (Or.inl rfl)) ?_
            rw [hmap₄]
            exact hcore.layout
          dsimp only
          rw [hwrite, ok_bind, hzeroes, ok_bind]
          refine ⟨s₄, true, rfl, ?_, ?_, fun hf => (by cases hf), fun _ => ⟨?_, start, ?_⟩,
            fun hsynced => ⟨?_, fun hf => (by cases hf)⟩⟩
          · refine (hframe₂.mono fun b hb => Or.inr (Or.inl hb)).trans
              (hframe₄.mono fun b hb => ?_)
            rcases hb with hb | hb
            · exact Or.inl hb
            · exact Or.inr (Or.inr (hin b hb.1 hb.2))
          · rw [hmap₄, hcnt]
          · exact ⟨hlayout, hcore₄.table, fun i hi => ⟨Or.inl (hcore₄.backed i hi).1,
              (hcore₄.backed i hi).2⟩, hcore₄.mapFile⟩
          · refine ⟨hfirst, fun k => ?_, hinode, hzero⟩
            rw [hmap₄, hbit k]
          · refine (hsynced₂ hsynced).1.frame hcore hframe₄ hmap₄ ?_ fun b hb => ?_
            · rw [hmallocs]
              exact (hsynced₂ hsynced).1.mallocs
            · exact hnot FREE_MAP_SECTOR b hmapL hb

end OsTools.Filesys

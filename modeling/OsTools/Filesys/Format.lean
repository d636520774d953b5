import OsTools.Filesys.FileOps
import OsTools.Filesys.References
/-!
# OsTools.Filesys.Format

Booting. `free_map_open` reads the free map that a file system was left with, and
formatting makes a new one: the free map's file behind the two sectors that are
always in use, the root directory behind it, and nothing else marked.

`Formatted` is what `filesys_init (true)` leaves, `Core` and `Tree` hold of it, and
all runs begin there.

## Proof shape

Formatting starts from a map in which the first two sectors are marked, and each allocation takes
the first free ones, so that the marked sectors are at any time those below a bound (`Below`).
This says where everything lies: the free map's data from sector 2 on, the data of the root
directory behind them.

The free map's inode is created before there is a file to write the map to, on a device with no
inodes (`mapInode_create`); then its file is opened, and the map is written for the first time
(`freeMapCreate_of_inode`). From there on `Core` holds, and the rest of `do_format` is an
`inode_create` like any other. The panics are exactly those for want of room.

`freeMapOpen_spec` is the other direction: what is on the device is read back, of which `reboot`
consists.
-/

namespace OsTools.Filesys

open OsTools.Kernel

/-! ### A free map that is full up to a sector -/

/-- The sectors below `p` are marked, and no others. -/
def Below (m : Bitmap) (p : Nat) : Prop := ∀ k, k < m.bitCnt → (m.bit k = true ↔ k < p)

/-- The first free sectors are those behind it. -/
theorem Below.first {m : Bitmap} {p cnt i : Nat} (h : Below m p) (hcnt : 0 < cnt)
    (hi : m.First 0 cnt false i) : i = p := by
  have hle := hi.le
  have hge : ¬ i < p := by
    intro hlt
    have hmarked := (h i (by omega)).mpr hlt
    rw [hi.group i (Nat.le_refl i) (by omega)] at hmarked
    cases hmarked
  by_contra hne
  refine hi.first p (Nat.zero_le p) (by omega) fun k h₁ h₂ => ?_
  rw [Bool.eq_false_iff]
  intro hmarked
  have hlt := (h k (by omega)).mp hmarked
  omega

/-- Allocating from such a map. -/
theorem Below.allocate {m m' : Bitmap} {p cnt i : Nat} (h : Below m p)
    (hi : m.First 0 cnt false i) (hm : m'.bitCnt = m.bitCnt)
    (hbit : ∀ k, m'.bit k = if i ≤ k ∧ k < i + cnt then true else m.bit k) :
    Below m' (p + cnt) := by
  intro k hk
  rw [hm] at hk
  rw [hbit k]
  rcases Nat.eq_zero_or_pos cnt with rfl | hcnt
  · rw [if_neg (by omega)]
    exact h k hk
  · rw [h.first hcnt hi]
    split
    · rename_i hin
      exact ⟨fun _ => hin.2, fun _ => rfl⟩
    · rename_i hout
      rw [h k hk]
      omega

/-! ### The first reference -/

/-- Only the file of the free map is open. -/
structure MapOpened (s : Fs) (id : Nat) : Prop where
  lt : id < s.nextId
  freeMapFile : s.freeMapFile = some ⟨id, 0, false⟩
  openInodes : s.openInodes =
    [⟨id, FREE_MAP_SECTOR, 1, false, 0, diskInode s.device FREE_MAP_SECTOR⟩]

/-- The invariant with the first reference. -/
theorem MapOpened.core {s : Fs} {id : Nat} {L : Nat → Prop} (h : MapOpened s id)
    (hlayout : Layout s.device s.freeMap L) (hL : L FREE_MAP_SECTOR) : Core s L [id] [] := by
  have hmem : ∀ i ∈ s.openInodes,
      i = ⟨id, FREE_MAP_SECTOR, 1, false, 0, diskInode s.device FREE_MAP_SECTOR⟩ := by
    intro i hi
    rw [h.openInodes] at hi
    exact List.mem_singleton.mp hi
  refine ⟨hlayout, ⟨?_, ?_, fun i hi => ?_, fun i hi => ?_, fun i hi => ?_, fun x hx => ?_,
    fun x => Nat.zero_le _, .of_length (by rw [List.length_singleton]; omega)⟩, fun i hi => ?_,
    ⟨id, 0, false⟩, h.freeMapFile,
    List.mem_singleton_self id, fun i hi _ => ?_⟩
  · rw [h.openInodes]
    exact List.nodup_singleton id
  · rw [h.openInodes]
    exact List.nodup_singleton _
  · rw [hmem i hi]
    exact h.lt
  · rw [hmem i hi, List.count_singleton_self]
    exact ⟨rfl, Nat.one_pos⟩
  · rw [hmem i hi]
    rfl
  · rw [List.mem_singleton.mp hx, h.openInodes]
    exact ⟨_, List.mem_singleton_self _, rfl⟩
  · rw [hmem i hi]
    exact ⟨hL, rfl⟩
  · rw [hmem i hi]

namespace Fs

variable {s s' : Fs}

/-- `file_open (inode_open (FREE_MAP_SECTOR))` when nothing is open. -/
theorem openFreeMapFile_eq (hopen : s.openInodes = []) (hm : s.mallocs = [])
    (hsize : FREE_MAP_SECTOR < s.device.size) :
    s.openFreeMapFile = .ok ({ s with
      openInodes :=
        [⟨s.nextId, FREE_MAP_SECTOR, 1, false, 0, diskInode s.device FREE_MAP_SECTOR⟩]
      nextId := s.nextId + 1 }, some ⟨s.nextId, 0, false⟩) := by
  obtain ⟨device, openInodes, nextId, freeMap, freeMapFile, mallocs⟩ := s
  subst hopen hm
  have hread : blockRead ⟨device, [], nextId, freeMap, freeMapFile, []⟩ FREE_MAP_SECTOR =
      .ok fun i => device.bytes (FREE_MAP_SECTOR * BLOCK_SECTOR_SIZE + i) := read_eq hsize
  unfold openFreeMapFile inodeOpen malloc
  dsimp only [List.find?_nil]
  rw [hread]
  rfl

/-- `free_map_open` reads the map `m` that the file holds. The bits in memory are arbitrary
before, except that there are as many of them; the file has all the bytes of the map, so that
the read is not short, and behind it the layout is that of `m`. -/
theorem freeMapOpen_spec {m : Bitmap} {L : Nat → Prop} (hopen : s.openInodes = [])
    (hm : s.mallocs = []) (hlayout : Layout s.device m L) (hL : L FREE_MAP_SECTOR)
    (hcnt : s.freeMap.bitCnt = m.bitCnt)
    (hlength : (diskInode s.device FREE_MAP_SECTOR).length = byteCnt m.bitCnt)
    (hbits : ∀ k, k < m.bitCnt →
      Bitmap.bit ⟨m.bitCnt, data s.device (diskInode s.device FREE_MAP_SECTOR)⟩ k = m.bit k) :
    ∃ s', s.freeMapOpen = .ok s' ∧ MapOpened s' s.nextId ∧ s'.device = s.device ∧
      s'.freeMap.bitCnt = m.bitCnt ∧ (∀ k, k < m.bitCnt → s'.freeMap.bit k = m.bit k) ∧
      Layout s'.device s'.freeMap L ∧ Synced s' [] := by
  have hsize : FREE_MAP_SECTOR < s.device.size := hlayout.sector_lt _ hL
  have hpos : 0 < m.bitCnt := by
    rw [hlayout.bitCnt]
    exact hsize
  have hopened := openFreeMapFile_eq hopen hm hsize
  generalize hs₁ : ({ s with
      openInodes :=
        [⟨s.nextId, FREE_MAP_SECTOR, 1, false, 0, diskInode s.device FREE_MAP_SECTOR⟩]
      nextId := s.nextId + 1 } : Fs) = s₁ at hopened
  have hinode : s₁.inode s.nextId =
      .ok ⟨s.nextId, FREE_MAP_SECTOR, 1, false, 0, diskInode s.device FREE_MAP_SECTOR⟩ := by
    rw [← hs₁]
    unfold inode
    dsimp only
    rw [List.find?_cons_of_pos (by exact decide_eq_true rfl)]
  have hdevice : s₁.device = s.device := by rw [← hs₁]
  have hmap : s₁.freeMap = s.freeMap := by rw [← hs₁]
  have honDevice : OnDevice s₁.device (diskInode s.device FREE_MAP_SECTOR) := by
    rw [hdevice]
    exact hlayout.fsOnDevice hL
  obtain ⟨n, mallocs, hread, htransfers⟩ := inodeReadAt_spec hinode honDevice s.freeMap.bits
    (byteCnt m.bitCnt) 0
  have hm₁ : s₁.mallocs = [] := by
    rw [← hs₁]
    exact hm
  obtain ⟨rfl, hn⟩ := htransfers.all hm₁
  have htotal : n = byteCnt m.bitCnt := by
    rw [hn]
    unfold transfer
    dsimp only
    rw [hlength]
    omega
  have hfits : s.freeMap.Fits := hlayout.fits.of_bitCnt_eq hcnt
  -- the bits in use are those of the file
  have hbit : ∀ k, k < m.bitCnt → (s.freeMap.readFrom n (s.freeMap.bits.blit 0 n
      fun k => data s₁.device (diskInode s.device FREE_MAP_SECTOR) (0 + k))).bit k = m.bit k := by
    intro k hk
    rw [htotal, ← hcnt, Bitmap.bit_readFrom_file hfits _ (hcnt ▸ hk), hcnt, ← hbits k hk]
    refine @Bitmap.bit_congr ⟨m.bitCnt, _⟩ k _ hlayout.fits (fun i hi => ?_) hk
    have hblit := Mem.blit_of_inside (m := s.freeMap.bits) (a := 0)
      (f := fun k => data s₁.device (diskInode s.device FREE_MAP_SECTOR) (0 + k)) hi
    rw [Nat.zero_add] at hblit
    dsimp only
    rw [hblit, hdevice]
  have hopenMap : s.freeMapOpen = .ok { s₁ with
      mallocs := []
      freeMap := s.freeMap.readFrom n (s.freeMap.bits.blit 0 n
        fun k => data s₁.device (diskInode s.device FREE_MAP_SECTOR) (0 + k))
      freeMapFile := some ⟨s.nextId, 0, false⟩ } := by
    unfold freeMapOpen
    rw [hopened, ok_bind]
    dsimp only
    unfold bitmapRead fileReadAt
    rw [hmap, if_pos (by rw [hcnt]; exact hpos), hcnt]
    dsimp only
    rw [hread, ok_bind, ok_bind, htotal, decide_eq_true rfl]
  have hcnt' : (s.freeMap.readFrom n (s.freeMap.bits.blit 0 n
      fun k => data s₁.device (diskInode s.device FREE_MAP_SECTOR) (0 + k))).bitCnt = m.bitCnt :=
    hcnt
  generalize s.freeMap.readFrom n (s.freeMap.bits.blit 0 n
    fun k => data s₁.device (diskInode s.device FREE_MAP_SECTOR) (0 + k)) = b at hbit hopenMap hcnt'
  refine ⟨_, hopenMap, ⟨?_, rfl, ?_⟩, hdevice, hcnt', hbit, ?_,
    ⟨rfl, ?_, fun f hf => List.not_mem_nil⟩, fun k hk => ?_⟩
  · rw [← hs₁]
    exact Nat.lt_succ_self _
  · rw [← hs₁]
  · rw [hdevice]
    exact hlayout.congr hcnt' hbit
  · dsimp only
    rw [hdevice, hlength, hcnt']
  · dsimp only at hk ⊢
    rw [hcnt'] at hk
    rw [hdevice, hbit k hk, ← hbits k hk, hcnt']

/-- `free_map_init` marks the first two sectors; it panics when the device is too
large. -/
theorem freeMapInit_spec {device : Block} (hsize : device.size < 2 ^ 32) (garbage : Mem) :
    (2 ^ 32 ≤ device.size + 31 ∧ ∀ s, (reset device).freeMapInit garbage ≠ .ok s) ∨
    ∃ s, (reset device).freeMapInit garbage = .ok s ∧
      s = { reset device with freeMap := s.freeMap } ∧ s.freeMap.Fits ∧
      s.freeMap.bitCnt = device.size ∧ Below s.freeMap 2 := by
  obtain ⟨r, hcreate, hnone, hr⟩ := Bitmap.create_spec hsize garbage true true
  cases r with
  | none =>
      have hinit : (reset device).freeMapInit garbage = .error .panic := by
        show (Bitmap.create device.size garbage true true >>= _) = _
        rw [hcreate]
        rfl
      refine Or.inl ⟨hnone rfl ⟨rfl, rfl⟩, fun s hf => ?_⟩
      rw [hinit] at hf
      cases hf
  | some b =>
      have hinit : (reset device).freeMapInit garbage = .ok { reset device with
          freeMap := (b.mark FREE_MAP_SECTOR).mark ROOT_DIR_SECTOR } := by
        show (Bitmap.create device.size garbage true true >>= _) = _
        rw [hcreate]
        rfl
      obtain ⟨hfits, hcnt, hclear⟩ := hr b rfl
      refine Or.inr ⟨_, hinit, rfl, hfits, hcnt, fun k hk => ?_⟩
      have hk' : k < device.size := hcnt ▸ hk
      dsimp only
      rw [Bitmap.bit_mark, Bitmap.bit_mark]
      unfold ROOT_DIR_SECTOR FREE_MAP_SECTOR
      by_cases h1 : k = 1
      · rw [if_pos h1, h1]
        decide
      · rw [if_neg h1]
        by_cases h0 : k = 0
        · rw [if_pos h0, h0]
          decide
        · rw [if_neg h0, hclear k hk']
          constructor
          · intro hf
            cases hf
          · intro hlt
            omega

/-- No inode is on the disk yet. -/
theorem layout_empty {d : Block} {m : Bitmap} (hfits : m.Fits) (hcnt : m.bitCnt = d.size) :
    Layout d m fun _ => False :=
  ⟨hfits, hcnt, fun _ hf => hf.elim, fun _ hf => hf.elim, fun _ hf => hf.elim,
    fun _ hf => hf.elim, fun _ _ hf => hf.elim, fun _ _ _ hf => hf.elim⟩

/-- The free map's file has at least one sector. -/
theorem mapSectors_pos {m : Bitmap} (hfits : m.Fits) (hpos : 0 < m.bitCnt) :
    0 < bytesToSectors (byteCnt m.bitCnt) := by
  have hlt := Core.byteCnt_lt hfits
  have hle := (@bytesToSectors_spec (byteCnt m.bitCnt : Nat) (by omega) (by omega)).1
  have hbytes : 0 < byteCnt m.bitCnt := by
    unfold byteCnt
    rw [Bitmap.elemCnt_eq hfits]
    omega
  by_contra hzero
  rw [Nat.eq_zero_of_not_pos hzero] at hle
  omega

/-- What the first `inode_create` leaves: the inode of the free map in sector 0, with its data from
sector 2 on. -/
structure MapInode (s s' : Fs) : Prop where
  openInodes : s'.openInodes = []
  mallocs : s'.mallocs = []
  nextId : s'.nextId = s.nextId
  size : s'.device.size = s.device.size
  bitCnt : s'.freeMap.bitCnt = s.freeMap.bitCnt
  inode : diskInode s'.device FREE_MAP_SECTOR = ⟨2, byteCnt s.freeMap.bitCnt, INODE_MAGIC⟩
  layout : Layout s'.device s'.freeMap fun y => y = FREE_MAP_SECTOR
  below : Below s'.freeMap (2 + bytesToSectors (byteCnt s.device.size))

/-- The first inode is laid out on an empty device, if its data fit behind the two sectors that are
always in use. There is no file of the free map yet to write the map to. -/
theorem mapInode_create (hfits : s.freeMap.Fits) (hcnt : s.freeMap.bitCnt = s.device.size)
    (hopen : s.openInodes = []) (hm : s.mallocs = []) (hmap : s.freeMapFile = none)
    (hbelow : Below s.freeMap 2) :
    (s.device.size < 2 + bytesToSectors (byteCnt s.device.size) ∧
      ∀ s', s.inodeCreate FREE_MAP_SECTOR (byteCnt s.freeMap.bitCnt : Nat) ≠ .ok (s', true)) ∨
    ∃ s', s.inodeCreate FREE_MAP_SECTOR (byteCnt s.freeMap.bitCnt : Nat) = .ok (s', true) ∧
      MapInode s s' := by
  have hbytes : byteCnt s.freeMap.bitCnt < 2 ^ 31 := Core.byteCnt_lt hfits
  obtain ⟨b, r, hscan, hcnt', hnone, hsome⟩ := Bitmap.scanAndFlip_spec hfits.lt
    (bytesToSectors (byteCnt s.freeMap.bitCnt))
  have hmalloc : s.malloc = (true, s) := by
    unfold malloc
    rw [hm]
  unfold inodeCreate freeMapAllocate
  rw [if_neg (by omega), hmalloc]
  dsimp only
  rw [hscan, ok_bind]
  cases r with
  | none =>
      -- the bitmap does not fit: `PANIC`
      refine Or.inl ⟨?_, fun s' hf => (by cases hf)⟩
      by_contra hroom
      refine (hnone rfl).2 2 (by rw [hcnt]; omega) fun k h₁ h₂ => ?_
      rw [Bool.eq_false_iff]
      intro hmarked
      have hlt := (hbelow k (by rw [hcnt] at h₂ ⊢; omega)).mp hmarked
      omega
  | some start =>
      obtain ⟨hfirst, hbit⟩ := hsome start rfl
      have hend : start + bytesToSectors (byteCnt s.freeMap.bitCnt) ≤ s.device.size :=
        hcnt ▸ hfirst.le
      dsimp only
      rw [hmap]
      dsimp only
      rw [ok_bind]
      dsimp only
      by_cases hpos : 0 < s.device.size
      case neg =>
        -- a device without sectors: the write of the inode panics
        have hpanic : blockWrite { s with freeMap := b, freeMapFile := none } FREE_MAP_SECTOR
            (InodeDisk.encode ⟨start, (byteCnt s.freeMap.bitCnt : Nat), INODE_MAGIC⟩) =
              .error .panic := by
          unfold blockWrite Block.write FREE_MAP_SECTOR
          rw [if_neg (by exact hpos)]
          rfl
        rw [hpanic]
        exact Or.inl ⟨by omega, fun s' hf => (by cases hf)⟩
      obtain rfl : start = 2 := hbelow.first (mapSectors_pos hfits (hcnt ▸ hpos)) hfirst
      have hzero : b.bit FREE_MAP_SECTOR = true := by
        rw [hbit, if_neg (by unfold FREE_MAP_SECTOR; omega)]
        exact (hbelow _ (by unfold FREE_MAP_SECTOR; omega)).mpr (by decide)
      have hfits' : b.Fits := hfits.of_bitCnt_eq hcnt'
      obtain ⟨s₁, s', hwrite, hzeroes, hframe, hmap', hmallocs, hinode, -, hlayout⟩ :=
        @writeInode_spec { s with freeMap := b, freeMapFile := none } (fun _ => False)
          FREE_MAP_SECTOR 2 (byteCnt s.freeMap.bitCnt : Nat) (layout_empty hfits' (hcnt'.trans hcnt))
          hpos hzero hend
          (fun k h₁ h₂ => ⟨by unfold FREE_MAP_SECTOR; omega, by rw [hbit, if_pos ⟨h₁, h₂⟩]⟩)
          (fun _ _ hf => hf.elim) (by omega) (by omega)
      rw [hwrite, ok_bind, hzeroes, ok_bind]
      refine Or.inr ⟨s', rfl, hframe.openInodes.trans hopen, hmallocs.trans hm, hframe.nextId,
        hframe.device.size, ?_, hinode, hlayout.mono fun y hy => Or.inr hy, ?_⟩
      · rw [hmap']
        exact hcnt'
      · rw [hmap', ← hcnt]
        exact hbelow.allocate hfirst hcnt' hbit

/-- The free map's file is opened, and the map written through it. Nothing is open before, so
that the handle is the one of the map, and the map has its own sectors marked when it is
written. -/
theorem freeMapCreate_of_inode {s₁ : Fs} (hfits : s.freeMap.Fits)
    (hcreate : s.inodeCreate FREE_MAP_SECTOR (byteCnt s.freeMap.bitCnt : Nat) = .ok (s₁, true))
    (h : MapInode s s₁) : ∃ s', s.freeMapCreate = .ok s' ∧
      MapOpened s' s.nextId ∧ s'.device.size = s.device.size ∧
      Layout s'.device s'.freeMap (fun y => y = FREE_MAP_SECTOR) ∧ Synced s' [] ∧
      (diskInode s'.device FREE_MAP_SECTOR).start = 2 ∧
      Below s'.freeMap (2 + bytesToSectors (byteCnt s.device.size)) := by
  have hint : toInt32 (byteCnt s.freeMap.bitCnt) = byteCnt s.freeMap.bitCnt := by
    unfold toInt32
    rw [if_pos (Core.byteCnt_lt hfits)]
  have hopenFile := openFreeMapFile_eq h.openInodes h.mallocs (h.layout.sector_lt _ rfl)
  generalize hs₂ : ({ s₁ with
      openInodes :=
        [⟨s₁.nextId, FREE_MAP_SECTOR, 1, false, 0, diskInode s₁.device FREE_MAP_SECTOR⟩]
      nextId := s₁.nextId + 1
      freeMapFile := some ⟨s₁.nextId, 0, false⟩ } : Fs) = s₂
  have hdevice : s₂.device = s₁.device := by rw [← hs₂]
  have hmap : s₂.freeMap = s₁.freeMap := by rw [← hs₂]
  have hopened : MapOpened s₂ s.nextId := by
    rw [← hs₂, ← h.nextId]
    exact ⟨Nat.lt_succ_self _, rfl, rfl⟩
  have hcore : Core s₂ (fun y => y = FREE_MAP_SECTOR) [s.nextId] [] := by
    refine hopened.core ?_ rfl
    rw [hmap, hdevice]
    exact h.layout
  obtain ⟨s', ok, hbitmap, hframe, hmap', hcore', hready⟩ := hcore.bitmapWrite
  obtain ⟨rfl, hsynced⟩ := hready ⟨by rw [← hs₂]; exact h.mallocs, by
    rw [hdevice, h.inode, hmap, h.bitCnt], fun _ _ => List.not_mem_nil⟩
  rw [hopened.freeMapFile, hmap] at hbitmap
  have hinode : diskInode s'.device FREE_MAP_SECTOR = diskInode s₂.device FREE_MAP_SECTOR :=
    hframe.device.diskInode (hcore.layout.not_data rfl rfl)
  refine ⟨s', ?_, ⟨?_, ?_, ?_⟩, ?_, hcore'.layout, hsynced, ?_, ?_⟩
  · unfold freeMapCreate
    rw [hint, hcreate, ok_bind]
    dsimp only
    rw [hopenFile, ok_bind]
    dsimp only
    rw [hs₂, h.nextId, hbitmap, ok_bind]
  · rw [hframe.nextId]
    exact hopened.lt
  · rw [hframe.freeMapFile]
    exact hopened.freeMapFile
  · rw [hframe.openInodes, hopened.openInodes, hinode]
  · rw [hframe.device.size, hdevice, h.size]
  · rw [hinode, hdevice, h.inode]
  · rw [hmap', hmap]
    exact h.below

/-- `free_map_create` makes the file of the free map, if there is room. -/
theorem freeMapCreate_spec (hfits : s.freeMap.Fits) (hcnt : s.freeMap.bitCnt = s.device.size)
    (hopen : s.openInodes = []) (hm : s.mallocs = []) (hmap : s.freeMapFile = none)
    (hbelow : Below s.freeMap 2) :
    (s.device.size < 2 + bytesToSectors (byteCnt s.device.size) ∧
      ∀ s', s.freeMapCreate ≠ .ok s') ∨
    ∃ s', s.freeMapCreate = .ok s' ∧
      MapOpened s' s.nextId ∧ s'.device.size = s.device.size ∧
      Layout s'.device s'.freeMap (fun y => y = FREE_MAP_SECTOR) ∧ Synced s' [] ∧
      (diskInode s'.device FREE_MAP_SECTOR).start = 2 ∧
      Below s'.freeMap (2 + bytesToSectors (byteCnt s.device.size)) := by
  rcases mapInode_create hfits hcnt hopen hm hmap hbelow with ⟨hroom, hnot⟩ | ⟨s₁, hcreate, h⟩
  · refine Or.inl ⟨hroom, fun s' hf => ?_⟩
    unfold freeMapCreate toInt32 at hf
    rw [if_pos (Core.byteCnt_lt hfits)] at hf
    obtain ⟨⟨s₁, ok⟩, hcreate, hf⟩ := bind_eq_ok hf
    cases ok with
    | false => cases hf
    | true => exact hnot s₁ hcreate
  · exact Or.inr (freeMapCreate_of_inode hfits hcreate h)

/-- An inode that is created is on the device. -/
theorem inodeCreate_lt {L : Nat → Prop} {hs ds : List Nat} (hc : Core s L hs ds) {x : Nat}
    {length : Int} (h : s.inodeCreate x length = .ok (s', true)) : x < s.device.size := by
  by_contra hlt
  obtain ⟨ok, mallocs, hmalloc, -⟩ := malloc_cases s
  unfold inodeCreate at h
  rw [hmalloc] at h
  split at h
  · cases h
  · cases ok with
    | false => cases h
    | true =>
        obtain ⟨s₂, r, halloc, hframe, -⟩ :=
          (hc.setMallocs mallocs).freeMapAllocate (bytesToSectors length)
        dsimp only at h
        rw [halloc, ok_bind] at h
        cases r with
        | none => cases h
        | some start =>
            have hpanic : ∀ buffer, s₂.blockWrite x buffer = .error .panic := by
              intro buffer
              unfold blockWrite Block.write
              rw [hframe.device.size, if_neg hlt]
              rfl
            dsimp only at h
            rw [hpanic] at h
            cases h

/-- `free_map_close` when nothing else is open. -/
theorem freeMapClose_eq {id : Nat} (h : MapOpened s id) :
    s.freeMapClose = .ok { s with openInodes := [] } := by
  obtain ⟨device, openInodes, nextId, freeMap, freeMapFile, mallocs⟩ := s
  obtain ⟨-, hfile, hopen⟩ := h
  dsimp only at hfile hopen
  subst hfile hopen
  unfold freeMapClose fileClose fileAllowWrite inodeClose inode
  dsimp only
  rw [if_neg (by decide), ok_bind]
  dsimp only
  rw [List.find?_cons_of_pos (by exact decide_eq_true rfl)]
  dsimp only
  rw [ok_bind]
  dsimp only
  rw [if_pos (by decide), if_neg (by decide), List.filter_cons_of_neg (by simp)]
  rfl

end Fs

/-! ### A formatted file system -/

/-- What `filesys_init (true)` leaves: only the file of the free map is open, the
root directory is empty, and nothing but the two is marked. -/
structure Formatted (s : Fs) : Prop where
  opened : ∃ id, MapOpened s id
  layout : Layout s.device s.freeMap fun y => y = FREE_MAP_SECTOR ∨ y = ROOT_DIR_SECTOR
  synced : Synced s []
  isDir : IsDir s.device ROOT_DIR_SECTOR ROOT_ENTRIES
  empty : ∀ k, k < ROOT_ENTRIES → entry s.device ROOT_DIR_SECTOR k = none
  below : Below s.freeMap (2 + bytesToSectors (byteCnt s.device.size) + 1)

/-- `do_format` leaves the same on the device, with nothing open. It panics if the device has
no room for the map, the root directory and their two inodes; otherwise the sectors from 2 on
are taken in order, first those of the map and then the one of the directory. -/
theorem Fs.doFormat_spec {s : Fs} (hfits : s.freeMap.Fits)
    (hcnt : s.freeMap.bitCnt = s.device.size) (hopen : s.openInodes = []) (hm : s.mallocs = [])
    (hmap : s.freeMapFile = none) (hbelow : Below s.freeMap 2) :
    (s.device.size < 2 + bytesToSectors (byteCnt s.device.size) + 1 ∧
      ∀ s', s.doFormat ≠ .ok s') ∨
    ∃ s', s.doFormat = .ok s' ∧ s'.openInodes = [] ∧ s'.mallocs = [] ∧
      Layout s'.device s'.freeMap (fun y => y = FREE_MAP_SECTOR ∨ y = ROOT_DIR_SECTOR) ∧
      Synced s' [] ∧ s'.device.size = s.device.size ∧
      IsDir s'.device ROOT_DIR_SECTOR ROOT_ENTRIES ∧
      (∀ k, k < ROOT_ENTRIES → entry s'.device ROOT_DIR_SECTOR k = none) ∧
      Below s'.freeMap (2 + bytesToSectors (byteCnt s.device.size) + 1) := by
  have hsectors : bytesToSectors (ENTRY_SIZE * ROOT_ENTRIES : Nat) = 1 := by decide
  rcases Fs.freeMapCreate_spec hfits hcnt hopen hm hmap hbelow with ⟨hroom, hpanic⟩ |
    ⟨s₁, hcreate, hopened₁, hsize₁, hlayout₁, hsynced₁, hstart₁, hbelow₁⟩
  · refine Or.inl ⟨Nat.lt_succ_of_lt hroom, fun s' hf => ?_⟩
    obtain ⟨s₁, hcreate, -⟩ := bind_eq_ok hf
    exact hpanic s₁ hcreate
  have hcore₁ := hopened₁.core hlayout₁ rfl
  -- the one way for the rest of `do_format` to fail is `dir_create`
  have hfails : (∀ s₂, s₁.dirCreate ROOT_DIR_SECTOR ROOT_ENTRIES ≠ .ok (s₂, true)) →
      ∀ s', s.doFormat ≠ .ok s' := by
    intro hnot s' hf
    unfold Fs.doFormat at hf
    rw [hcreate, ok_bind] at hf
    obtain ⟨⟨s₂, ok⟩, hdir, hf⟩ := bind_eq_ok hf
    cases ok with
    | false => cases hf
    | true => exact hnot s₂ hdir
  rw [Fs.dirCreate_eq (by decide)] at hfails
  by_cases hlt : ROOT_DIR_SECTOR < s₁.device.size
  case neg =>
    refine Or.inl ⟨?_, hfails fun s₂ hdir => hlt (Fs.inodeCreate_lt hcore₁ hdir)⟩
    unfold ROOT_DIR_SECTOR at hlt
    omega
  -- sector 1 is marked from the start and not part of the file of the map
  have hbit : s₁.freeMap.bit ROOT_DIR_SECTOR = true := by
    refine (hbelow₁ _ ?_).mpr ?_
    · rw [hlayout₁.bitCnt]
      exact hlt
    · unfold ROOT_DIR_SECTOR
      omega
  have hown : ∀ y, y = FREE_MAP_SECTOR → ¬ Owns s₁.device y ROOT_DIR_SECTOR := by
    intro y hy hb
    rw [hy] at hb
    rcases hb with hb | hb
    · cases hb
    · have hge := hb.1
      rw [hstart₁] at hge
      exact absurd hge (by decide)
  obtain ⟨s₂, ok, hdir, hframe, hcnt₂, -, htrue, hsync⟩ := @Core.inodeCreate s₁ _ _ _ hcore₁
    ROOT_DIR_SECTOR (ENTRY_SIZE * ROOT_ENTRIES : Nat) hlt hbit hown (by decide) (by decide)
  cases ok with
  | false =>
      refine Or.inl ⟨?_, hfails fun s₃ hf => ?_⟩
      · -- the sectors behind the map are all free: one of them would have been found
        by_contra hroom
        refine (hsync hsynced₁).2 rfl (2 + bytesToSectors (byteCnt s.device.size)) ?_ fun k h₁ h₂ => ?_
        · rw [hsectors, hlayout₁.bitCnt, hsize₁]
          omega
        · rw [hsectors] at h₂
          rw [Bool.eq_false_iff]
          intro hmarked
          have hlt := (hbelow₁ k (by rw [hlayout₁.bitCnt, hsize₁]; omega)).mp hmarked
          omega
      · rw [hdir] at hf
        cases hf
  | true =>
      obtain ⟨hcore, start, hcreated⟩ := htrue rfl
      have hsynced := (hsync hsynced₁).1
      have hlength : (diskInode s₂.device ROOT_DIR_SECTOR).length =
          (ENTRY_SIZE * ROOT_ENTRIES : Nat) := by rw [hcreated.inode]
      have hfirst := hcreated.first
      have hnew := hcreated.bit
      rw [hsectors] at hfirst hnew
      have hopened₂ : MapOpened s₂ s.nextId := by
        refine ⟨?_, ?_, ?_⟩
        · rw [hframe.nextId]
          exact hopened₁.lt
        · rw [hframe.freeMapFile]
          exact hopened₁.freeMapFile
        · rw [hframe.openInodes, hopened₁.openInodes]
          have hback := hcore.backed
          rw [hframe.openInodes, hopened₁.openInodes] at hback
          rw [← (hback _ (List.mem_singleton_self _)).2]
      refine Or.inr ⟨{ s₂ with openInodes := [] }, ?_, rfl, hsynced.mallocs, hcore.layout,
        ⟨⟨hsynced.mallocs, hsynced.length, hsynced.allowed⟩, hsynced.bits⟩,
        hframe.device.size.trans hsize₁, IsDir.of_zero hlength hcreated.zero,
        fun k hk => entry_of_zero hcreated.zero hk, ?_⟩
      · unfold Fs.doFormat
        rw [hcreate, ok_bind, Fs.dirCreate_eq (by decide), hdir, ok_bind]
        dsimp only
        exact Fs.freeMapClose_eq hopened₂
      · exact hbelow₁.allocate hfirst hcnt₂ hnew

/-- Formatting a device: it panics when there is not the room for the free map and
the root directory. -/
theorem Fs.filesysInit_formats {device : Block} (hsize : device.size < 2 ^ 32) (garbage : Mem) :
    ((device.size < 2 + bytesToSectors (byteCnt device.size) + 1 ∨ 2 ^ 32 ≤ device.size + 31) ∧
      ∀ s, Fs.filesysInit device true garbage ≠ .ok s) ∨
    ∃ s, Fs.filesysInit device true garbage = .ok s ∧ Formatted s ∧
      s.device.size = device.size := by
  rcases Fs.freeMapInit_spec hsize garbage with ⟨hlarge, hpanic⟩ | ⟨s₁, hinit, hs₁, hfits, hcnt, hbelow⟩
  · refine Or.inl ⟨Or.inr hlarge, fun s hf => ?_⟩
    obtain ⟨s₁, hinit, -⟩ := bind_eq_ok hf
    exact hpanic s₁ hinit
  have hdevice : s₁.device = device := by
    rw [hs₁]
    rfl
  have hformat := @Fs.doFormat_spec s₁ hfits (by rw [hdevice]; exact hcnt) (by rw [hs₁]; rfl)
    (by rw [hs₁]; rfl) (by rw [hs₁]; rfl) hbelow
  rw [hdevice] at hformat
  unfold Fs.filesysInit
  rw [hinit, ok_bind, if_pos rfl]
  rcases hformat with ⟨hroom, hpanic⟩ |
    ⟨s₂, hformat, hopen, hm, hlayout, hsynced, hsize₂, hdir, hempty, hbelow₂⟩
  · refine Or.inl ⟨Or.inl hroom, fun s hf => ?_⟩
    obtain ⟨s₂, hformat, -⟩ := bind_eq_ok hf
    exact hpanic s₂ hformat
  obtain ⟨s₃, hopen₃, hopened, hdev, hcnt₃, hbit, hlayout₃, hsynced₃⟩ := Fs.freeMapOpen_spec hopen hm
    hlayout (Or.inl rfl) rfl hsynced.length hsynced.bits
  refine Or.inr ⟨s₃, ?_, ⟨⟨_, hopened⟩, hlayout₃, hsynced₃, ?_, ?_, fun k hk => ?_⟩, ?_⟩
  · rw [hformat, ok_bind]
    exact hopen₃
  · rw [hdev]
    exact hdir
  · rw [hdev]
    exact hempty
  · rw [hcnt₃] at hk
    rw [hbit k hk, hdev, hsize₂]
    exact hbelow₂ k hk
  · rw [hdev, hsize₂]

theorem Fs.formatted_of_init {device : Block} (hsize : device.size < 2 ^ 32) {garbage : Mem}
    {s : Fs} (h : Fs.filesysInit device true garbage = .ok s) :
    Formatted s ∧ s.device.size = device.size := by
  rcases Fs.filesysInit_formats hsize garbage with ⟨-, hpanic⟩ | ⟨s', hformat, hformatted⟩
  · exact absurd h (hpanic s)
  · cases h.symm.trans hformat
    exact hformatted

namespace Formatted

variable {s : Fs}

/-- The invariant. -/
theorem core (h : Formatted s) : ∃ id, MapOpened s id ∧
    Core s (fun y => y = FREE_MAP_SECTOR ∨ y = ROOT_DIR_SECTOR) [id] [] := by
  obtain ⟨id, hopened⟩ := h.opened
  exact ⟨id, hopened, hopened.core h.layout (Or.inl rfl)⟩

theorem tree (h : Formatted s) : Tree s fun y => y = FREE_MAP_SECTOR ∨ y = ROOT_DIR_SECTOR := by
  refine ⟨Or.inr rfl, h.isDir, fun k name y hk he => ?_, fun j k p q hj _ hp _ _ => ?_,
    fun i hi hr => ?_⟩
  · rw [h.empty k hk] at he
    cases he
  · rw [h.empty j hj] at hp
    cases hp
  · obtain ⟨id, hopened⟩ := h.opened
    rw [hopened.openInodes, List.mem_singleton] at hi
    rw [hi] at hr
    cases hr

end Formatted

end OsTools.Filesys

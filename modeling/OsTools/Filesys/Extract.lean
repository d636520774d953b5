import OsTools.Filesys.Fsutil
/-!
# OsTools.Filesys.Extract

What `fsutil_extract` makes of an archive that `fsutil_append` wrote: in a freshly formatted
file system with enough room, the files, under their stripped names. The invariant of its
loop is `Extracted`: the files so far are there, and behind their sectors the device is free.

One pass creates a file of zeros (`Extracted.create`) and then copies the data of the
archive over them (`Extracted.fill`), so that `Extracted` is also what holds in between,
with zeros for contents. That the first free sector is always the next one (`below`) is
what makes the room that the files need a sum, whatever their sizes. The loop is by
induction on the files of the archive (`extractLoop_spec`), which `Members` lists with the
sectors of their headers.
-/

namespace OsTools.Filesys

open OsTools.CString OsTools.Kernel Ustar

namespace Fsutil

/-- The root directory leads to the files and to no others, and the sectors from `p` on are
free. The reference `id` is that to the free map. -/
structure Extracted (s : Fs) (id p : Nat) (files : List (Name × List UInt8)) : Prop where
  core : ∃ L, Core s L [id] [] ∧ Tree s L
  synced : Synced s []
  below : Below s.freeMap p
  names : ((contents s.device ROOT_DIR_SECTOR ROOT_ENTRIES).map Prod.fst).Perm (files.map Prod.fst)
  distinct : ∀ j k x y name, j < ROOT_ENTRIES → k < ROOT_ENTRIES →
    entry s.device ROOT_DIR_SECTOR j = some (name, x) →
    entry s.device ROOT_DIR_SECTOR k = some (name, y) → j = k
  files : ∀ f ∈ files, FileIs s.device f.1 f.2

variable {s s' : Fs} {id p : Nat} {files : List (Name × List UInt8)} {name : Name}
  {content : List UInt8}

theorem extracted_of_formatted (h : Formatted s) : ∃ id,
    Extracted s id (2 + bytesToSectors (byteCnt s.device.size) + 1) [] := by
  obtain ⟨id, -, hcore⟩ := h.core
  have hnone : contents s.device ROOT_DIR_SECTOR ROOT_ENTRIES = [] := by
    unfold contents
    rw [List.filterMap_eq_nil_iff]
    exact fun k hk => h.empty k (List.mem_range.mp hk)
  refine ⟨id, ⟨_, hcore, h.tree⟩, h.synced, h.below, ?_, fun j k x y name hj _ he => ?_,
    fun f hf => (by cases hf)⟩
  · rw [hnone]
    exact List.Perm.refl _
  · rw [h.empty j hj] at he
    cases he

/-- Only the free map is open. -/
theorem room_single (id : Nat) : Room [id] 2 :=
  .of_length (by rw [List.length_singleton]; omega)

theorem Extracted.present_iff (h : Extracted s id p files) (name : Name) :
    Present s.device ROOT_DIR_SECTOR ROOT_ENTRIES name ↔ name ∈ files.map Prod.fst := by
  rw [← h.names.mem_iff, List.mem_map]
  constructor
  · rintro ⟨k, hk, x, hx⟩
    exact ⟨(name, x), mem_contents.mpr ⟨k, hk, hx⟩, rfl⟩
  · rintro ⟨⟨_, x⟩, hmem, rfl⟩
    obtain ⟨k, hk, hx⟩ := mem_contents.mp hmem
    exact ⟨k, hk, x, hx⟩

/-- While there is room, a new file can be created. -/
theorem Extracted.not_createFails (h : Extracted s id p files) (hvalid : ValidName name)
    (hnew : name ∉ files.map Prod.fst) (hfull : files.length < ROOT_ENTRIES) {size : Int}
    (hroom : p + 1 + bytesToSectors size ≤ s.freeMap.bitCnt) : ¬ CreateFails s name size := by
  have hfree : ∀ k, p ≤ k → k < s.freeMap.bitCnt → s.freeMap.bit k = false := by
    intro k hk hlt
    rw [Bool.eq_false_iff]
    intro hmarked
    have := (h.below k hlt).mp hmarked
    omega
  intro hfails
  rcases hfails with hinvalid | hpresent | hentries | hmarked | ⟨x, hfirst, hgroups⟩
  · exact hinvalid hvalid
  · exact hnew ((h.present_iff name).mp hpresent)
  · have hlength := contents_length_eq hentries
    have hnames := h.names.length_eq
    rw [List.length_map, List.length_map, hlength] at hnames
    omega
  · have hbit := hmarked p (by omega)
    rw [hfree p (Nat.le_refl p) (by omega)] at hbit
    cases hbit
  · have hx := h.below.first Nat.one_pos hfirst
    obtain ⟨k, hk₁, hk₂, hk⟩ := hgroups (p + 1) hroom
    rcases hk with rfl | hk
    · omega
    · rw [hfree k (by omega) (by omega)] at hk
      cases hk

/-- A change outside the sectors of a file. -/
theorem Holds.changed {d d' : Block} {m : Bitmap} {L B : Nat → Prop} {x : Nat}
    (h : Holds d x content) (hlayout : Layout d m L) (hd : Changed d d' B) (hx : L x)
    (hB : ∀ b, Owns d x b → ¬ B b) : Holds d' x content := by
  have hsame := hd.diskInode (hB x (Or.inl rfl))
  refine ⟨by rw [hsame]; exact h.1, fun k hk => ?_⟩
  rw [hsame, hlayout.data_eq hd hx (fun b hb => hB b (Or.inr hb)) (by rw [h.1]; exact_mod_cast hk)]
  exact h.2 k hk

/-- The zeros that a new file holds. -/
theorem holds_of_newFile {ds : List Nat} {n x start : Nat} (h : NewFile s s' ds name n x start) :
    Holds s'.device x (List.replicate n 0) := by
  refine ⟨?_, fun k hk => ?_⟩
  · rw [h.inode, List.length_replicate]
  · rw [List.length_replicate] at hk
    rw [h.zero k (by exact_mod_cast hk), List.getD_replicate _ hk]

/-- `filesys_create` of one more file, which holds zeros. It cannot fail: there are a free
entry and, behind everything that was created so far, enough free sectors in a row, of which
the first ones are taken (`Extracted`). -/
theorem Extracted.create (h : Extracted s id p files) (hname : 0 ∉ name) (hvalid : ValidName name)
    (hnew : name ∉ files.map Prod.fst) (hfull : files.length < ROOT_ENTRIES) {n : Nat}
    (hn : n < 2 ^ 31) (hroom : p + 1 + bytesToSectors n ≤ s.freeMap.bitCnt) (garbage : Mem) :
    ∃ s', s.filesysCreate name n garbage = .ok (s', true) ∧
      s'.freeMap.bitCnt = s.freeMap.bitCnt ∧
      Extracted s' id (p + 1 + bytesToSectors n) ((name, List.replicate n 0) :: files) := by
  obtain ⟨L, hc, ht⟩ := h.core
  obtain ⟨s', ok, L', hcreate, hcreates, hok', hsync⟩ :=
    hc.filesysCreate ht hname (Int.natCast_nonneg n) (by exact_mod_cast hn) garbage (room_single id)
  obtain ⟨hsynced, hfails⟩ := hsync h.synced
  have hok : ok = true := by
    by_contra hnot
    refine h.not_createFails hvalid hnew hfull hroom (hfails (fun i hi _ => ?_) (by simpa using hnot))
    rw [hc.table.denyWriteCnt i hi]
    rfl
  subst hok
  obtain ⟨x, start, hfile, rfl⟩ := hok' rfl
  obtain ⟨m, hmcnt, hmbit, hmfirst, hbit⟩ := hfile.space
  obtain ⟨k, hk, hentry, hother, hwas⟩ := hfile.entry
  obtain ⟨hfree, habsent⟩ := hwas h.synced
  -- who has the name after the creation
  have howner : ∀ j y, j < ROOT_ENTRIES →
      entry s'.device ROOT_DIR_SECTOR j = some (name, y) → j = k := by
    intro j y hj he
    by_contra hne
    rw [hother j hj hne] at he
    exact habsent ⟨j, hj, y, he⟩
  refine ⟨s', hcreate, hcreates.bitCnt, ⟨_, hcreates.core, hcreates.tree⟩, hsynced, ?_, ?_,
    fun i j y z name' hi hj hiy hjz => ?_, fun f hf => ?_⟩
  · exact (h.below.allocate hfile.sector hmcnt hmbit).allocate hmfirst
      (hcreates.bitCnt.trans hmcnt.symm) hbit
  · have hperm := filterMap_perm hk hfree hentry fun j hj hne => (hother j hj hne).symm
    exact (hperm.map Prod.fst).trans (h.names.cons name)
  · by_cases hik : i = k
    · rw [hik, hentry] at hiy
      cases hiy
      rw [hik, howner j z hj hjz]
    · by_cases hjk : j = k
      · rw [hjk, hentry] at hjz
        cases hjz
        exact absurd (howner i y hi hiy) hik
      · rw [hother i hi hik] at hiy
        rw [hother j hj hjk] at hjz
        exact h.distinct i j y z name' hi hj hiy hjz
  · rcases List.mem_cons.mp hf with rfl | hf
    · refine ⟨⟨k, hk, x, hentry⟩, fun j y hj he => ?_⟩
      have heq : entry s'.device ROOT_DIR_SECTOR k = some (name, y) := howner j y hj he ▸ he
      rw [hentry] at heq
      cases heq
      exact holds_of_newFile hfile
    · have hne : f.1 ≠ name := fun heq => hnew (heq ▸ List.mem_map_of_mem hf)
      obtain ⟨⟨j, hj, y, hy⟩, hleads⟩ := h.files f hf
      refine ⟨⟨j, hj, y, ?_⟩, fun j y hj he => ?_⟩
      · rw [hother j hj (fun heq => by rw [heq, hfree] at hy; cases hy)]
        exact hy
      · have hjk : j ≠ k := by
          rintro rfl
          rw [hentry] at he
          cases he
          exact hne rfl
        rw [hother j hj hjk] at he
        obtain ⟨hyL, hy0, hy1⟩ := ht.linked j f.1 y hj he
        refine (hleads j y hj he).changed hc.layout hcreates.device hyL fun b hb hB => ?_
        rcases hB with hroot | hspare
        · exact hc.owns_ne hyL ht.root hy1 hb (Or.inr hroot)
        · exact hc.not_spare hyL hy0 hb hspare

/-- Opening the new file, copying its bytes and closing it. The copy is one write of the whole
contents to sectors that belong to no other file, so that the directory and the other files
are as they were. -/
theorem Extracted.fill {zeros : List UInt8} (h : Extracted s id p ((name, zeros) :: files))
    (hname : 0 ∉ name) (hnew : name ∉ files.map Prod.fst) (hlength : zeros.length = content.length)
    {src : Block} {sector : Nat} (hroom : sector + sectors content.length ≤ src.size)
    (hsrc : ∀ k, k < content.length →
      src.bytes (sector * BLOCK_SECTOR_SIZE + k) = content.getD k 0) (garbage : Mem) :
    ∃ s₂ i s₃ s', s.filesysOpen name garbage = .ok (s₂, some ⟨i, 0, false⟩) ∧
      copyLoop s₂ ⟨i, 0, false⟩ src sector content.length =
        .ok (s₃, ⟨i, 0 + content.length, false⟩, sector + sectors content.length) ∧
      s₃.fileClose (some ⟨i, 0 + content.length, false⟩) = .ok s' ∧
      s'.freeMap.bitCnt = s.freeMap.bitCnt ∧ Extracted s' id p ((name, content) :: files) := by
  obtain ⟨L, hc, ht⟩ := h.core
  obtain ⟨s₂, i, hopen, hi, ⟨k, hk, hentry⟩, hc₂, ht₂, hrefs₂, hsynced₂⟩ :=
    hc.openNamed ht h.synced (room_single id) hname ((h.present_iff name).mpr List.mem_cons_self) garbage
  obtain ⟨hyL, hy0, hy1⟩ := ht.linked k name i.sector hk hentry
  obtain ⟨-, -, -, -, -, -, hmapL, -⟩ := hc.mapInode
  obtain ⟨hsize, -⟩ := (h.files _ List.mem_cons_self).leads k i.sector hk hentry
  dsimp only at hsize
  rw [hlength, ← hrefs₂.device] at hsize
  have hdeny : i.denyWriteCnt = 0 := by
    rw [hc₂.table.denyWriteCnt i hi]
    rfl
  have hcopy := @copyLoop_spec s₂ L (i.id :: [id]) [] hc₂ hsynced₂.mallocs i hi hdeny false src
    sector 0 content.length (by rw [hsize]; omega) hroom
  have hn : content.length ≤ (diskInode s₂.device i.sector).length.toNat - 0 := by
    rw [hsize]
    omega
  -- the copy is one write of the whole contents
  generalize hbytes : (fun k => src.bytes (sector * BLOCK_SECTOR_SIZE + k) : Mem) = bytes at hcopy
  have hframe := hc₂.wrote_frame hyL bytes [] hn
  have hc₃ := hc₂.wrote hyL bytes [] hn
  generalize hs₃ : s₂.wrote ((diskInode s₂.device i.sector).start * BLOCK_SECTOR_SIZE + 0)
    content.length bytes [] = s₃ at hcopy hframe hc₃
  have hmap₃ : s₃.freeMap = s₂.freeMap := by rw [← hs₃]; rfl
  have hroot : ∀ b, Owns s₂.device ROOT_DIR_SECTOR b → ¬ DataSector s₂.device i.sector b :=
    fun b hb hdata => hc₂.owns_ne ht₂.root hyL hy1.symm hb (Or.inr hdata)
  have ht₃ := ht₂.keep hc₂.layout hframe.device hroot hframe.stable fun _ hy _ => hy
  have hsynced₃ := hsynced₂.frame hc₂ hframe hmap₃ (by rw [← hs₃]; rfl)
    fun b hb hdata => hc₂.owns_ne hmapL hyL hy0.symm hb (Or.inr hdata)
  -- the directory is on other sectors, so that its entries stay
  have hentries : ∀ j, j < ROOT_ENTRIES → entry s₃.device ROOT_DIR_SECTOR j =
      entry s.device ROOT_DIR_SECTOR j := by
    intro j hj
    rw [entry_same hc₂.layout hframe.device ht₂.root ht₂.isDir hroot hj, hrefs₂.device]
  obtain ⟨s', hclose, hc', ht', hrefs', hsync'⟩ := hc₃.closeNamed ht₃
    (by rw [hframe.openInodes]; exact hi) hk ((hentries k hk).trans hentry) (Nat.zero_le _)
    (fun g hg => by
      rw [hframe.freeMapFile, hrefs₂.freeMapFile] at hg
      exact hc.mapFile_mem g hg) (0 + content.length)
  have hentries' : ∀ j, j < ROOT_ENTRIES → entry s'.device ROOT_DIR_SECTOR j =
      entry s.device ROOT_DIR_SECTOR j := by
    rw [hrefs'.device]
    exact hentries
  have hmap' : s'.freeMap = s.freeMap := by
    rw [hrefs'.freeMap, hmap₃, hrefs₂.freeMap]
  have hholds : Holds s'.device i.sector content := by
    have hsame := hframe.device.diskInode (hc₂.layout.not_data hyL hyL)
    rw [hrefs'.device]
    refine ⟨by rw [hsame]; exact hsize, fun j hj => ?_⟩
    rw [hsame, ← hs₃]
    unfold Fs.data Fs.wrote
    dsimp only
    rw [Nat.add_zero, Mem.blit_of_inside hj, ← hbytes]
    exact hsrc j hj
  refine ⟨s₂, i.id, s₃, s', hopen, hcopy, hclose, by rw [hmap'], ⟨L, hc', ht'⟩,
    hsync' hsynced₃, ?_, ?_, fun j l x y name' hj hl hjx hly => ?_, fun f hf => ?_⟩
  · rw [hmap']
    exact h.below
  · have hcontents : contents s'.device ROOT_DIR_SECTOR ROOT_ENTRIES =
        contents s.device ROOT_DIR_SECTOR ROOT_ENTRIES := filterMap_congr_lt hentries'
    rw [hcontents]
    exact h.names
  · rw [hentries' j hj] at hjx
    rw [hentries' l hl] at hly
    exact h.distinct j l x y name' hj hl hjx hly
  · rcases List.mem_cons.mp hf with rfl | hold
    · refine ⟨⟨k, hk, i.sector, (hentries' k hk).trans hentry⟩, fun j y hj he => ?_⟩
      rw [hentries' j hj] at he
      have hjk := h.distinct j k y i.sector name hj hk he hentry
      rw [hjk, hentry] at he
      cases he
      exact hholds
    · -- the files extracted before have other names, so other sectors
      obtain ⟨⟨j, hj, y, hy⟩, hleads⟩ := h.files f (List.mem_cons_of_mem _ hold)
      refine ⟨⟨j, hj, y, (hentries' j hj).trans hy⟩, fun j y hj he => ?_⟩
      rw [hentries' j hj] at he
      have hne : y ≠ i.sector := by
        intro heq
        have hjk := ht.distinct j k (f.1, y) (name, i.sector) hj hk he hentry heq
        rw [hjk, hentry] at he
        cases he
        exact hnew (List.mem_map_of_mem hold)
      obtain ⟨hyL', -, -⟩ := ht.linked j f.1 y hj he
      have hheld := hleads j y hj he
      rw [← hrefs₂.device] at hheld
      rw [hrefs'.device]
      exact hheld.changed hc₂.layout hframe.device hyL' fun b hb hdata =>
        hc₂.owns_ne hyL' hyL hne hb (Or.inr hdata)

/-- A regular file of the archive is put into the file system. -/
theorem extractFile_spec (h : Extracted s id p files) (hname : 0 ∉ name) (hvalid : ValidName name)
    (hnew : name ∉ files.map Prod.fst) (hfull : files.length < ROOT_ENTRIES)
    (hlength : content.length < 2 ^ 31)
    (hspace : p + 1 + bytesToSectors content.length ≤ s.freeMap.bitCnt) {src : Block} {sector : Nat}
    (hroom : sector + sectors content.length ≤ src.size)
    (hsrc : ∀ k, k < content.length →
      src.bytes (sector * BLOCK_SECTOR_SIZE + k) = content.getD k 0) (garbage : Mem) : ∃ s',
      extractFile s src sector name content.length garbage =
        .ok (s', sector + sectors content.length) ∧
      s'.freeMap.bitCnt = s.freeMap.bitCnt ∧
      Extracted s' id (p + 1 + bytesToSectors content.length) ((name, content) :: files) := by
  obtain ⟨s₁, hcreate, hcnt₁, h₁⟩ := h.create hname hvalid hnew hfull hlength hspace garbage
  obtain ⟨s₂, i, s₃, s', hopen, hcopy, hclose, hcnt, h'⟩ := h₁.fill hname hnew
    (List.length_replicate) hroom hsrc garbage
  refine ⟨s', ?_, hcnt.trans hcnt₁, h'⟩
  unfold extractFile
  rw [hcreate, ok_bind]
  dsimp only
  rw [hopen, ok_bind]
  dsimp only
  rw [Int.toNat_natCast, hcopy, ok_bind]
  dsimp only
  rw [hclose, ok_bind]

/-- The file under its stripped name. -/
def strip (f : Name × List UInt8) : Name × List UInt8 := (stripped f.1, f.2)

/-- The sectors that the files take in the file system, those of their inodes among them. -/
def need (files : List (Name × List UInt8)) : Nat :=
  (files.map fun f => 1 + bytesToSectors f.2.length).sum

/-- A name that fits into the archive and the root directory, and a size of type `off_t`. -/
def Fits (f : Name × List UInt8) : Prop :=
  0 ∉ f.1 ∧ (stripped f.1).length ≤ NAME_MAX ∧ f.2.length < 2 ^ 31

/-- The loop ends at a block of zeros. -/
theorem extractLoop_zeros {s : Fs} {src : Block} {garbage : Mem} {sector : Nat}
    (hsector : sector < src.size) (hzeros : ∀ k, k < BLOCK_SECTOR_SIZE →
      src.bytes (sector * BLOCK_SECTOR_SIZE + k) = 0) (fuel : Nat) :
    extractLoop src garbage (fuel + 1) s sector = .ok (s, sector + 1) := by
  rw [extractLoop, read_eq hsector, ok_bind, ustarParseHeader_zeros hzeros, ok_bind]

/-- The loop of `fsutil_extract` puts the files of an archive into the file system. By
induction on the files that are left in the archive, with those that are done as an
accumulator: a round reads a header, creates the file and fills it. -/
theorem extractLoop_spec {done : List (Name × List UInt8)} (h : Extracted s id p done)
    {src : Block} {q fuel : Nat} (hmembers : Members src q files) (hends : Ends src (behind q files))
    (hfits : ∀ f ∈ files, Fits f)
    (hnodup : ((files.map strip).map Prod.fst ++ done.map Prod.fst).Nodup)
    (hcount : files.length + done.length ≤ ROOT_ENTRIES)
    (hspace : p + need files ≤ s.freeMap.bitCnt) (hroom : behind q files + 2 ≤ src.size)
    (hfuel : behind q files < q + fuel) (garbage : Mem) : ∃ s' p',
      extractLoop src garbage fuel s q = .ok (s', behind q files + 1) ∧
        Extracted s' id p' ((files.map strip).reverse ++ done) := by
  induction files generalizing s p q fuel done with
  | nil =>
      obtain ⟨fuel, rfl⟩ : ∃ n, fuel = n + 1 := ⟨fuel - 1, by
        have hle : q < q + fuel := hfuel
        omega⟩
      refine ⟨s, p, ?_, h⟩
      have hq : q < src.size := by
        have hle : q + 2 ≤ src.size := hroom
        omega
      -- a sector of zeros: the archive ends
      exact extractLoop_zeros hq (fun k hk => hends k (by omega)) fuel
  | cons f files ih =>
      obtain ⟨⟨hheader, hdata⟩, hrest⟩ := hmembers
      obtain ⟨hname, hlength, hsize⟩ := hfits f List.mem_cons_self
      obtain ⟨fuel, rfl⟩ : ∃ n, fuel = n + 1 := ⟨fuel - 1, by
        have hle := le_behind q (f :: files)
        omega⟩
      have hbehind : behind q (f :: files) = behind (next q f) files := rfl
      have hle := le_behind (next q f) files
      have hnext : next q f = q + 1 + sectors f.2.length := rfl
      have hneed : need (f :: files) = 1 + bytesToSectors f.2.length + need files := List.sum_cons
      have hnodup₁ : ((files.map strip).map Prod.fst ++
          ((stripped f.1, f.2) :: done).map Prod.fst).Nodup := List.perm_middle.nodup_iff.mpr hnodup
      rw [List.map_cons, List.map_cons, List.cons_append, List.nodup_cons, List.mem_append,
        not_or] at hnodup
      obtain ⟨⟨-, hnew⟩, -⟩ := hnodup
      rw [List.length_cons] at hcount
      obtain ⟨r, hparse⟩ := ustarParseHeader_compose hname
        (Nat.le_trans hlength (by decide)) (by decide : UstarType.regular ≠ .eof)
        (Int.natCast_nonneg f.2.length) (by exact_mod_cast hsize)
      rw [if_pos rfl] at hparse
      -- the header is the one that was composed, whatever follows its name
      have hblock : ustarParseHeader (fun i => src.bytes (q * BLOCK_SECTOR_SIZE + i)) =
          .ok (.ok ⟨some (stripped f.1 ++ 0 :: r), .regular, f.2.length⟩) := by
        rw [← hparse]
        exact ustarParseHeader_congr fun i hi => hheader i hi
      obtain ⟨s₁, hfile, hcnt, h₁⟩ := extractFile_spec h (not_mem_stripped hname)
        ⟨stripped_ne_nil f.1, hlength⟩ hnew (by omega) hsize (by omega)
        (show q + 1 + sectors f.2.length ≤ src.size by omega) hdata garbage
      have hcount₁ : files.length + ((stripped f.1, f.2) :: done).length ≤ ROOT_ENTRIES := by
        rw [List.length_cons]
        omega
      have hfuel₁ : behind (next q f) files < next q f + fuel := by omega
      obtain ⟨s', p', hloop, h'⟩ := ih h₁ hrest hends
        (fun g hg => hfits g (List.mem_cons_of_mem _ hg)) hnodup₁ hcount₁ (by omega) hroom hfuel₁
      refine ⟨s', p', ?_, ?_⟩
      · rw [extractLoop, read_eq (by omega), ok_bind, hblock, ok_bind]
        dsimp only
        rw [chars_string (not_mem_stripped hname), hfile, ok_bind]
        exact hloop
      · rw [List.map_cons, List.reverse_cons, List.append_assoc]
        exact h'

/-! ### The round trip -/

/-- The root directory leads to the files, and to no others. -/
structure Contains (d : Block) (files : List (Name × List UInt8)) : Prop where
  names : ((contents d ROOT_DIR_SECTOR ROOT_ENTRIES).map Prod.fst).Perm (files.map Prod.fst)
  files : ∀ f ∈ files, FileIs d f.1 f.2

/-- `fsutil_extract` finds an empty archive, whether it goes on where it stopped or begins
anew after the next boot. -/
def FindsNothing (t : Fsutil) : Prop :=
  ∀ sector, sector = t.extractSector ∨ sector = 0 → ∀ garbage, ∃ scratch,
    extract { t with extractSector := sector } garbage =
      .ok { t with scratch := scratch, extractSector := sector + 1 }

/-- The files of the source file system come to the other one by way of the scratch device. -/
def RoundTrips (source target : Fs) (scratch : Block) (files : List (Name × List UInt8))
    (garbage : Name → Mem) (garbage' : Mem) : Prop :=
  ∃ t t', appendAll garbage (files.map Prod.fst) ⟨source, scratch, 0, 0⟩ = .ok t ∧
    extract ⟨target, t.scratch, 0, 0⟩ garbage' = .ok t' ∧
    Contains t'.fs.device (files.map strip) ∧ FindsNothing t'

/-- The files are there, their stripped names are names of different files, and there is
room for the archive and, on the device `target`, for the files. -/
structure Archivable (source : Fs) (target scratch : Block) (files : List (Name × List UInt8)) :
    Prop where
  names : ∀ f ∈ files, 0 ∉ f.1 ∧ (stripped f.1).length ≤ NAME_MAX
  present : ∀ f ∈ files, FileIs source.device f.1 f.2
  distinct : ((files.map strip).map Prod.fst).Nodup
  scratchRoom : behind 0 files + 2 ≤ scratch.size
  entries : files.length ≤ ROOT_ENTRIES
  room : 2 + bytesToSectors (byteCnt target.size) + 1 + need files ≤ target.size

theorem FileIs.length_lt {d : Block} (h : FileIs d name content) : content.length < 2 ^ 31 := by
  obtain ⟨⟨k, hk, x, hx⟩, hleads⟩ := h
  have hlength := (hleads k x hk hx).1
  have hlt : (diskInode d x).length < 2 ^ 31 := Filesys.length_lt _
  rw [hlength] at hlt
  exact_mod_cast hlt

/-- The scratch device when its first two blocks are erased. -/
def erased (d : Block) : Block :=
  let bytes := d.bytes.blit (0 * BLOCK_SECTOR_SIZE) BLOCK_SECTOR_SIZE (fun _ => 0)
  { d with bytes := bytes.blit (1 * BLOCK_SECTOR_SIZE) BLOCK_SECTOR_SIZE fun _ => 0 }

/-- Erasing makes zeros only. -/
theorem erased_zero {d : Block} {a : Nat} (h : a < BLOCK_SECTOR_SIZE ∨ d.bytes a = 0) :
    (erased d).bytes a = 0 := by
  unfold erased Mem.blit
  dsimp only
  rw [Nat.zero_mul, Nat.zero_add]
  split
  · rfl
  · split
    · rfl
    · rename_i hout
      exact h.resolve_left fun hlt => hout ⟨Nat.zero_le a, hlt⟩

/-- `fsutil_extract` is its loop, and erases the archive. -/
theorem extract_eq {t : Fsutil} (hm : t.fs.mallocs = []) (hsize : 2 ≤ t.scratch.size)
    {garbage : Mem} {s : Fs} {sector : Nat}
    (hloop : extractLoop t.scratch garbage (t.scratch.size - t.extractSector) t.fs
      t.extractSector = .ok (s, sector)) :
    t.extract garbage = .ok ⟨s, erased t.scratch, t.appendSector, sector⟩ := by
  have hmalloc : t.fs.malloc = (true, t.fs) := by
    unfold Fs.malloc
    rw [hm]
  unfold extract
  rw [hmalloc]
  dsimp only
  rw [hmalloc]
  dsimp only
  rw [if_neg (by simp), hloop, ok_bind]
  dsimp only
  rw [write_eq (by omega), ok_bind, write_eq (by dsimp only; omega), ok_bind]
  rfl

/-- Where the next block is zero, `fsutil_extract` finds nothing. -/
theorem extract_zeros {t : Fsutil} (hm : t.fs.mallocs = []) (hsize : 2 ≤ t.scratch.size)
    {sector : Nat} (hsector : sector < t.scratch.size) (hzeros : ∀ k, k < BLOCK_SECTOR_SIZE →
      t.scratch.bytes (sector * BLOCK_SECTOR_SIZE + k) = 0) (garbage : Mem) :
    extract { t with extractSector := sector } garbage =
      .ok { t with scratch := erased t.scratch, extractSector := sector + 1 } := by
  obtain ⟨fuel, hfuel⟩ : ∃ n, t.scratch.size - sector = n + 1 :=
    ⟨t.scratch.size - sector - 1, by omega⟩
  have hloop : extractLoop t.scratch garbage (t.scratch.size - sector) t.fs sector =
      .ok (t.fs, sector + 1) := by
    rw [hfuel]
    exact extractLoop_zeros hsector hzeros fuel
  exact @extract_eq { t with extractSector := sector } hm hsize garbage t.fs (sector + 1) hloop

/-- A state that a session without failing calls of `malloc` leads to. -/
def Reached (t : Users) : Prop :=
  ∃ device garbage s ts, device.size < 2 ^ 32 ∧ Fs.filesysInit device true garbage = .ok s ∧
    Run (fun t r t' => Users.Served t r t' ∧ t.Permitted r) (Users.start s []) ts ∧
    (t = Users.start s [] ∨ ∃ τ ∈ ts, t = τ.post)

theorem Reached.stored {t : Users} (h : Reached t) : (∃ L, t.Stored L) ∧ t.HasRoom 2 := by
  obtain ⟨device, garbage, s, ts, hsize, hformat, hrun, ht⟩ := h
  have hformatted := (Fs.formatted_of_init hsize hformat).1
  rcases ht with rfl | ⟨τ, hτ, rfl⟩
  · exact ⟨⟨_, Users.start_stored hformatted⟩, Users.start_hasRoom hformatted []⟩
  · exact Users.stored_of_run hformatted hrun τ hτ

/-- **Files survive the scratch device.** When `fsutil_append` is called for each of one or more
files of a session, on a scratch device with room for the archive, `fsutil_extract` creates
these files in any freshly formatted file system with enough room, under their stripped names
and with the same length and contents, and no others. After that it finds nothing more. -/
theorem files_round_trip {t : Users} (ht : Reached t) {target scratch : Block} {junk : Mem} {s : Fs}
    (hsize : target.size < 2 ^ 32) (hformat : Fs.filesysInit target true junk = .ok s)
    {files : List (Name × List UInt8)} (hfiles : files ≠ [])
    (h : Archivable t.fs target scratch files) (garbage : Name → Mem) (garbage' : Mem) :
    RoundTrips t.fs s scratch files garbage garbage' := by
  obtain ⟨⟨L, hstored⟩, hhandles⟩ := ht.stored
  obtain ⟨hformatted, hdevice⟩ := Fs.formatted_of_init hsize hformat
  obtain ⟨id, hextracted⟩ := extracted_of_formatted hformatted
  rw [hdevice] at hextracted
  obtain ⟨u, happend, hmembers, hsector, -, hscratch, -, hends⟩ :=
    @appendAll_spec L t.handles t.denies garbage ⟨t.fs, scratch, 0, 0⟩ [] files hstored.core
      hstored.tree hstored.synced hhandles trivial rfl (fun f hf => ⟨(h.names f hf).1, h.present f hf,
        Nat.le_trans (h.names f hf).2 (by decide)⟩) h.scratchRoom
  rw [List.nil_append] at hmembers hsector
  have hends := hends hfiles
  rw [hsector] at hends
  have hroom : behind 0 files + 2 ≤ u.scratch.size := by
    rw [hscratch]
    exact h.scratchRoom
  have hcnt : s.freeMap.bitCnt = target.size := by rw [hformatted.layout.bitCnt, hdevice]
  obtain ⟨s', p', hloop, hdone⟩ := @extractLoop_spec s id _ files [] hextracted u.scratch 0
    u.scratch.size hmembers hends (fun f hf => ⟨(h.names f hf).1, (h.names f hf).2,
      (h.present f hf).length_lt⟩) (by rw [List.map_nil, List.append_nil]; exact h.distinct)
    h.entries (by rw [hcnt]; exact h.room) hroom (by omega) garbage'
  rw [List.append_nil] at hdone
  refine ⟨u, ⟨s', erased u.scratch, 0, behind 0 files + 1⟩, happend,
    extract_eq hextracted.synced.mallocs (by dsimp only; omega) hloop, ⟨?_, fun f hf => ?_⟩, ?_⟩
  · exact hdone.names.trans ((List.reverse_perm _).map Prod.fst)
  · exact hdone.files f (List.mem_reverse.mpr hf)
  · intro sector hs garbage
    have hsize' : (erased u.scratch).size = u.scratch.size := rfl
    refine ⟨_, extract_zeros hdone.synced.mallocs (by dsimp only; omega)
      (by dsimp only at hs ⊢; omega) (fun k hk => ?_) garbage⟩
    rcases hs with rfl | rfl
    · refine erased_zero (Or.inr ?_)
      dsimp only
      have hzero := hends (BLOCK_SECTOR_SIZE + k) (by omega)
      rw [← Nat.add_assoc, ← Nat.succ_mul] at hzero
      exact hzero
    · exact erased_zero (Or.inl (by rw [Nat.zero_mul, Nat.zero_add]; exact hk))

/-- A scratch device that holds no archive. -/
def strangeDevice : Block := ⟨fun _ => 255, 8⟩

/-- When no file is appended, `fsutil_extract` reads whatever is on the scratch device. -/
theorem no_files_no_archive : ∃ t s, Reached t ∧
    Fs.filesysInit Users.blankDevice true (fun _ => 0) = .ok s ∧
      Archivable t.fs Users.blankDevice strangeDevice [] ∧
      ¬ RoundTrips t.fs s strangeDevice [] (fun _ _ => 0) fun _ => 0 := by
  obtain ⟨hroom, -⟩ | ⟨s, hformat, hformatted, -⟩ :=
    Fs.filesysInit_formats (show Users.blankDevice.size < 2 ^ 32 by decide) fun _ => 0
  · exact absurd hroom (by decide)
  · have hparse : ustarParseHeader (fun _ => 255) = .ok (.error "not a ustar archive") := by
      have hzeros : isAllZeros (fun _ => 255) USTAR_HEADER_SIZE = false :=
        isAllZeros_eq_false (i := 0) (by decide) (by decide)
      have hmagic : memcmp (ptr (fun _ => 255) magic) [117, 115, 116, 97, 114, 0] = some false := by
        decide
      unfold ustarParseHeader
      rw [hzeros, hmagic]
      rfl
    refine ⟨Users.start s [], s, ⟨_, _, s, [], by decide, hformat, .nil _, Or.inl rfl⟩, hformat,
      ⟨fun f hf => (by cases hf), fun f hf => (by cases hf), List.nodup_nil, by decide, by decide,
        by decide⟩, ?_⟩
    rintro ⟨t, t', happend, hextract, -⟩
    cases happend
    have hmalloc : s.malloc = (true, s) := hformatted.synced.allocated
    unfold extract at hextract
    dsimp only at hextract
    rw [hmalloc] at hextract
    dsimp only at hextract
    rw [hmalloc] at hextract
    dsimp only at hextract
    have hblock : (fun i => strangeDevice.bytes (0 * BLOCK_SECTOR_SIZE + i)) = fun _ => 255 := rfl
    rw [if_neg (by simp), show strangeDevice.size - 0 = 7 + 1 from rfl, extractLoop,
      read_eq (by decide), ok_bind, hblock, hparse, ok_bind] at hextract
    cases hextract

/-- An entry that no other one has the name of leads to the file. -/
theorem FileIs.of_entry {d : Block} {k x : Nat} (hk : k < ROOT_ENTRIES)
    (hentry : entry d ROOT_DIR_SECTOR k = some (name, x))
    (hother : ∀ j, j < ROOT_ENTRIES → j ≠ k →
      (entry d ROOT_DIR_SECTOR j).map Prod.fst ≠ some name) (h : Holds d x content) :
    FileIs d name content := by
  refine ⟨⟨k, hk, x, hentry⟩, fun j y hj he => ?_⟩
  by_cases hjk : j = k
  · rw [hjk, hentry] at he
    cases he
    exact h
  · exact absurd (by rw [he]; rfl) (hother j hj hjk)

/-- `hello` and zeros. -/
def hello : List UInt8 := [104, 101, 108, 108, 111] ++ List.replicate 15 0

/-- Two files, of which the second is empty. -/
def twoFiles : List (Name × List UInt8) := [([97], hello), ([98], [])]

set_option synthInstance.maxHeartbeats 400000 in
set_option synthInstance.maxSize 1000 in
/-- The file `a` is created and written to, and stays open, and the empty file `b` is
created. Both come to a second device of 8 sectors. -/
theorem files_round_trip_twoFiles : ∃ s t₁ t₂ t₃ t₄,
    Fs.filesysInit Users.blankDevice true (fun _ => 0) = .ok s ∧
    (Users.start s []).serve (.filesysCreate [97] 20 fun _ => 0) = .ok t₁ ∧
    t₁.serve (.filesysOpen [97] fun _ => 0) = .ok t₂ ∧
    t₂.serve (.fileWrite 0 (fun k => hello.getD k 0) 5) = .ok t₃ ∧
    t₃.serve (.filesysCreate [98] 0 fun _ => 0) = .ok t₄ ∧
    RoundTrips t₄.fs s strangeDevice twoFiles (fun _ _ => 0) fun _ => 0 := by
  have hruns : ∃ s, Fs.filesysInit Users.blankDevice true (fun _ => 0) = .ok s ∧
      ∃ t₁, (Users.start s []).serve (.filesysCreate [97] 20 fun _ => 0) = .ok t₁ ∧
      ∃ t₂, t₁.serve (.filesysOpen [97] fun _ => 0) = .ok t₂ ∧
      ∃ t₃, t₂.serve (.fileWrite 0 (fun k => hello.getD k 0) 5) = .ok t₃ ∧
      ∃ t₄, t₃.serve (.filesysCreate [98] 0 fun _ => 0) = .ok t₄ ∧
      (t₁.handles.length ≤ 8 ∧ t₂.handles.length ≤ 8 ∧ t₃.handles.length ≤ 8 ∧
        t₄.handles.length ≤ 8) ∧
      t₂.files = [⟨4, 0, false⟩] ∧ t₂.fs.openInodes.map (fun (i : Inode) => (i.id, i.sector)) =
        [(4, 4), (1, 0)] ∧
      (∀ k, k < ROOT_ENTRIES → entry t₄.fs.device ROOT_DIR_SECTOR k =
        if k = 0 then some ([97], 4) else if k = 1 then some ([98], 6) else none) ∧
      ((diskInode t₄.fs.device 4).length = 20 ∧ ∀ k, k < 20 →
        Fs.data t₄.fs.device (diskInode t₄.fs.device 4) k = hello.getD k 0) ∧
      (diskInode t₄.fs.device 6).length = 0 := by
    decide +kernel
  obtain ⟨s, hs, t₁, h₁, t₂, h₂, t₃, h₃, t₄, h₄, ⟨hl₁, hl₂, hl₃, hl₄⟩, hfiles, hopen, hentries,
    ⟨hsize, hdata⟩, hempty⟩ := hruns
  -- the file that is written to is neither the free map's nor the root directory
  have hallowed : t₂.Allowed (.fileWrite 0 (fun k => hello.getD k 0) 5) := by
    intro f hf i hi hid
    rw [hfiles] at hf
    cases hf
    have hmem : (i.id, i.sector) ∈ [(4, 4), (1, 0)] :=
      hopen ▸ List.mem_map_of_mem (f := fun i : Inode => (i.id, i.sector)) hi
    rw [hid] at hmem
    rcases List.mem_cons.mp hmem with heq | hmem
    · rw [(Prod.mk.inj heq).2]
      decide
    · cases List.mem_singleton.mp hmem
  have hrun : Run (fun t r t' => Users.Served t r t' ∧ t.Permitted r) (Users.start s [])
      [⟨_, .filesysCreate [97] 20 fun _ => 0, t₁⟩, ⟨_, .filesysOpen [97] fun _ => 0, t₂⟩,
        ⟨_, .fileWrite 0 (fun k => hello.getD k 0) 5, t₃⟩,
        ⟨_, .filesysCreate [98] 0 fun _ => 0, t₄⟩] :=
    .cons ⟨⟨⟨⟨Users.zero_not_mem (by decide), by decide⟩, h₁⟩, .of_length (by omega)⟩, trivial⟩
      (.cons ⟨⟨⟨Users.zero_not_mem (by decide), h₂⟩, .of_length (by omega)⟩, trivial⟩
        (.cons ⟨⟨⟨hallowed, h₃⟩, .of_length (by omega)⟩, trivial⟩
          (.cons ⟨⟨⟨⟨Users.zero_not_mem (by decide), by decide⟩, h₄⟩, .of_length (by omega)⟩,
            trivial⟩ (.nil t₄))))
  have hreached : Reached t₄ :=
    ⟨_, _, s, _, by decide, hs, hrun, Or.inr ⟨⟨t₃, .filesysCreate [98] 0 fun _ => 0, t₄⟩,
      List.mem_cons_of_mem _ (List.mem_cons_of_mem _ (List.mem_cons_of_mem _ List.mem_cons_self)),
      rfl⟩⟩
  have hhello : FileIs t₄.fs.device [97] hello :=
    .of_entry (k := 0) (x := 4) (by decide) (hentries 0 (by decide)) (fun j hj hne => by
      rw [hentries j hj, if_neg hne]
      split <;> decide) ⟨hsize, hdata⟩
  have hnone : FileIs t₄.fs.device [98] [] :=
    .of_entry (k := 1) (x := 6) (by decide) (hentries 1 (by decide)) (fun j hj hne => by
      rw [hentries j hj, if_neg hne]
      split <;> decide) ⟨hempty, fun k hk => absurd hk (Nat.not_lt_zero k)⟩
  have hpresent : ∀ f ∈ twoFiles, FileIs t₄.fs.device f.1 f.2 := by
    intro f hf
    rcases List.mem_cons.mp hf with rfl | hf
    · exact hhello
    · rw [List.mem_singleton.mp hf]
      exact hnone
  exact ⟨s, t₁, t₂, t₃, t₄, hs, h₁, h₂, h₃, h₄, files_round_trip hreached (by decide) hs
    (List.cons_ne_nil _ _) ⟨by decide, hpresent, by decide, by decide, by decide, by decide⟩ _ _⟩

end Fsutil

end OsTools.Filesys

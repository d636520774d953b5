import OsTools.Filesys.Reboot
/-!
# OsTools.Filesys.CreateFails

What a `filesys_create` that returns false leaves behind. The one statement that cleans
up releases the sector of the inode. It undoes what was done as long as no data sectors
have been allocated: when `inode_create` has succeeded and `dir_add` fails, the sectors
that `inode_create` marked for the data stay marked, and nobody owns them.

Nothing else is different: no entry of the root directory and no byte of an existing
file. The free map's own file still holds the free map, if memory does not run out.

`Reserves` says of the state before the call that it gets as far as `dir_add`, and
`Leaves` what the free map is afterwards, in either case. `Core.createIn_fails` finds the
case by following `createIn` from one point of failure to the next: up to `inode_create`
the clean-up meets the state that `freeMapAllocate` left, after it one in which a group of
sectors besides is marked. The equivalence then compares the two at the first sector of
that group, which was free. `Core.reserves_iff` says what the condition comes to when
memory does not run out.
-/

namespace OsTools.Filesys

open OsTools.Kernel

variable {s s' : Fs} {L : Nat → Prop} {hs ds : List Nat}

/-! ### The steps before `dir_add` -/

/-- A sector is allocated, and an inode is created in it with its data sectors. -/
def Takes (s : Fs) (size : Int) : Prop :=
  ∃ s₁ x s₂, s.freeMapAllocate 1 = .ok (s₁, some x) ∧ s₁.inodeCreate x size = .ok (s₂, true)

/-- The root directory is opened, and the sectors are allocated. -/
def Reserves (s : Fs) (size : Int) : Prop :=
  ∃ s₁ dir, s.dirOpenRoot = .ok (s₁, some dir) ∧ Takes s₁ size

/-- There is no sector for the inode, or no group of sectors for the data beside it. -/
def NoRoom (s : Fs) (size : Int) : Prop :=
  (∀ k, k < s.freeMap.bitCnt → s.freeMap.bit k = true) ∨
    ∃ x, s.freeMap.First 0 1 false x ∧ ∀ j, j + bytesToSectors size ≤ s.freeMap.bitCnt →
      ∃ k, j ≤ k ∧ k < j + bytesToSectors size ∧ (k = x ∨ s.freeMap.bit k = true)

theorem first_unique {m : Bitmap} {start cnt x y : Nat} {value : Bool}
    (hx : m.First start cnt value x) (hy : m.First start cnt value y) : x = y := by
  by_contra hne
  rcases Nat.lt_or_gt_of_ne hne with hlt | hlt
  · exact hy.first x hx.start_le hlt hx.group
  · exact hx.first y hy.start_le hlt hy.group

theorem bytesToSectors_pos {size : Int} (h₀ : 0 ≤ size) (h₁ : size < 2 ^ 31) :
    0 < bytesToSectors size ↔ 0 < size := by
  constructor
  · intro hpos
    by_contra hnot
    have hzero : size = 0 := by omega
    rw [hzero, bytesToSectors_zero] at hpos
    exact absurd hpos (Nat.lt_irrefl 0)
  · intro hpos
    have hroom := (bytesToSectors_spec h₀ h₁).1
    by_contra hnot
    rw [Nat.eq_zero_of_not_pos hnot, Nat.zero_mul] at hroom
    omega

/-- When memory does not run out, it is the room that decides whether sectors for the contents
are taken: the allocation of the inode's sector and then that of the others succeed just if
there are as many free ones in a row. -/
theorem Core.takes_iff (hc : Core s L hs ds) (hsynced : Synced s ds) {size : Int} (h₀ : 0 ≤ size)
    (h₁ : size < 2 ^ 31) : Takes s size ↔ ¬ NoRoom s size := by
  obtain ⟨s₁, r, halloc, hnone, hsome⟩ := hc.newInode h₀ h₁
  cases r with
  | none =>
      obtain ⟨-, -, -, -, hsync⟩ := hnone rfl
      refine iff_of_false ?_ fun hroom => hroom (Or.inl (hsync hsynced).2)
      rintro ⟨_, _, _, htake, -⟩
      rw [halloc] at htake
      cases htake
  | some x =>
      obtain ⟨hfirst, hlt, -, hfree, hbit, s₂, ok, hcreate, -, hcnt, -, -, htrue, hsync⟩ :=
        hsome x rfl
      cases ok with
      | false =>
          refine iff_of_false ?_ fun hroom => hroom (Or.inr ⟨x, hfirst, (hsync hsynced).2 rfl⟩)
          rintro ⟨_, _, _, htake, hinode⟩
          rw [halloc] at htake
          cases htake
          rw [hcreate] at hinode
          cases hinode
      | true =>
          refine iff_of_true ⟨s₁, x, s₂, halloc, hcreate⟩ ?_
          obtain ⟨-, start, hcreated⟩ := htrue rfl
          intro hroom
          rcases hroom with hfull | ⟨y, hy, hgroup⟩
          · have hused := hfull x (by rw [hc.layout.bitCnt]; exact hlt)
            rw [hfree] at hused
            cases hused
          · obtain rfl := first_unique hfirst hy
            obtain ⟨k, hk₁, hk₂, hk⟩ := hgroup start (by
              have hle := hcreated.first.le
              rw [hcnt] at hle
              exact hle)
            have hclear := hcreated.first.group k hk₁ hk₂
            rw [hbit k] at hclear
            split at hclear
            · cases hclear
            · rename_i hnot
              rcases hk with rfl | hk
              · exact hnot ⟨Nat.le_refl k, Nat.lt_succ_self k⟩
              · rw [hk] at hclear
                cases hclear

/-! ### What is left behind -/

/-- What a failed creation leaves: the free map as it was, or with the data sectors of the file
still marked. -/
def Leaves (s s' : Fs) (size : Int) (taken : Prop) : Prop :=
  (¬ taken ∧ ∀ k, s'.freeMap.bit k = s.freeMap.bit k) ∨
  (taken ∧ ∃ start, s.freeMap.Group start (bytesToSectors size) false ∧
    ∀ k, s'.freeMap.bit k =
      if start ≤ k ∧ k < start + bytesToSectors size then true else s.freeMap.bit k)

/-- The sector of the inode is released. -/
theorem Core.undoCreate_frame {s₂ : Fs} (hc : Core s L hs ds) (hc₂ : Core s₂ L hs ds) {x : Nat}
    (hframe : Frame s s₂ (SpareSectors s)) (hcnt : s₂.freeMap.bitCnt = s.freeMap.bitCnt)
    (hx : x < s.freeMap.bitCnt) (hx₀ : x ≠ 0) (hfree : s.freeMap.bit x = false)
    (hmark : s₂.freeMap.bit x = true) : ∃ s₃, s₂.undoCreate x false = .ok s₃ ∧
      Frame s s₃ (SpareSectors s) ∧ Core s₃ L hs ds ∧
        ∀ k, s₃.freeMap.bit k = if k = x then false else s₂.freeMap.bit k := by
  obtain ⟨-, -, -, -, -, -, hmapL, -⟩ := hc.mapInode
  have honly : ∀ k, x ≤ k ∧ k < x + 1 ↔ k = x := fun k => by omega
  have hown : ∀ y k, L y → Owns s₂.device y k → ¬ (x ≤ k ∧ k < x + 1) := by
    intro y k hy hk hin
    obtain rfl := (honly k).mp hin
    rw [hframe.device.owns_iff (hc.spare_sector hy)] at hk
    rw [hc.layout.used y k hy hk] at hfree
    cases hfree
  obtain ⟨s₃, hrelease, hframe₃, hc₃, -, hbit, -⟩ := @Core.freeMapRelease s₂ L hs ds hc₂ x 1
    (by rw [hcnt]; exact hx) (fun k h₁ h₂ => (honly k).mp ⟨h₁, h₂⟩ ▸ hmark) hown
  refine ⟨s₃, ?_, hframe.trans (hframe₃.mono fun b hb => ?_), hc₃, fun k => ?_⟩
  · unfold Fs.undoCreate
    rw [if_pos ⟨by decide, hx₀⟩, hrelease]
  · unfold DataSector at hb
    rw [hframe.device.diskInode (hc.spare_sector hmapL)] at hb
    exact Or.inl hb
  · rw [hbit k]
    simp only [honly]

/-- The condition in `filesys_create` is false, and what was done is undone. The three calls
of the condition are the cases: after the first nothing was taken; after the second the
inode's sector is given back, and `inode_create` has cleaned up after itself; after the third
only the inode's sector is given back, and the sectors of the contents stay marked. This last
case is `Takes`. -/
theorem Core.createIn_fails {s₂ : Fs} {x : Nat} (hc : Core s L hs ds) (ht : Tree s L) {i : Inode}
    (hi : i ∈ s.openInodes) (hroot : i.sector = ROOT_DIR_SECTOR) {name : Name} (hname : 0 ∉ name)
    {size : Int} (h₀ : 0 ≤ size) (h₁ : size < 2 ^ 31) {garbage : Mem}
    (h : s.createIn name size garbage (some ⟨i.id, 0⟩) = .ok (s₂, x, false)) :
    ∃ s₃, s₂.undoCreate x false = .ok s₃ ∧ Frame s s₃ (SpareSectors s) ∧ Core s₃ L hs ds ∧
      Leaves s s₃ size (Takes s size) := by
  obtain ⟨s₁, r, halloc, hnone, hsome⟩ := hc.newInode h₀ h₁
  unfold Fs.createIn at h
  dsimp only at h
  rw [halloc, ok_bind] at h
  cases r with
  | none =>
      obtain ⟨hcore, hframe, -, hbits, -⟩ := hnone rfl
      cases h
      -- no sector for the inode: nothing was taken
      refine ⟨s₂, rfl, hframe, hcore, Or.inl ⟨?_, hbits⟩⟩
      rintro ⟨_, _, _, htake, -⟩
      rw [halloc] at htake
      cases htake
  | some y =>
      obtain ⟨hfirst, hlt, hnot, hfree, hbit, s₃, ok, hcreate, hframe, -, hcnt, hfalse, htrue, -⟩ :=
        hsome y rfl
      obtain ⟨-, -, -, -, -, -, hmapL, -⟩ := hc.mapInode
      have hy₀ : y ≠ 0 := fun heq => hnot (heq ▸ hmapL)
      have hy : y < s.freeMap.bitCnt := by
        rw [hc.layout.bitCnt]
        exact hlt
      have hbit₁ : ∀ k, s₁.freeMap.bit k = if k = y then true else s.freeMap.bit k := by
        intro k
        rw [hbit k]
        have honly : y ≤ k ∧ k < y + 1 ↔ k = y := by omega
        simp only [honly]
      dsimp only at h
      rw [hcreate, ok_bind] at h
      cases ok with
      | false =>
          -- no sectors for the contents: the inode's sector is given back
          obtain ⟨hcore, hbits⟩ := hfalse rfl
          cases h
          obtain ⟨s₃, hundo, hframe₃, hcore₃, hbit₃⟩ := hc.undoCreate_frame hcore hframe hcnt hy hy₀
            hfree (by rw [hbits x, hbit₁ x, if_pos rfl])
          refine ⟨s₃, hundo, hframe₃, hcore₃, Or.inl ⟨?_, fun k => ?_⟩⟩
          · rintro ⟨_, _, _, htake, hinode⟩
            rw [halloc] at htake
            cases htake
            rw [hcreate] at hinode
            cases hinode
          · rw [hbit₃ k, hbits k, hbit₁ k]
            split
            · rename_i heq
              rw [heq, hfree]
            · rfl
      | true =>
          obtain ⟨hcore, start, hcreated⟩ := htrue rfl
          -- no entry: the inode's sector is given back, its contents' sectors are not
          have hgroup : s.freeMap.Group start (bytesToSectors size) false ∧
              ¬ (start ≤ y ∧ y < start + bytesToSectors size) := by
            refine ⟨fun k hk₁ hk₂ => ?_, fun hin => ?_⟩
            · have hclear := hcreated.first.group k hk₁ hk₂
              rw [hbit₁ k] at hclear
              split at hclear
              · cases hclear
              · exact hclear
            · have hclear := hcreated.first.group y hin.1 hin.2
              rw [hbit₁ y, if_pos rfl] at hclear
              cases hclear
          have hrootSpare : ∀ b, Owns s.device ROOT_DIR_SECTOR b → ¬ SpareSectors s b :=
            fun b hb => hc.not_spare ht.root (by decide) hb
          have htree : Tree s₃ fun z => L z ∨ z = y := ht.keep hc.layout hframe.device hrootSpare
            hframe.stable fun _ hz _ => Or.inl hz
          have hi₃ : i ∈ s₃.openInodes := by
            rw [hframe.openInodes]
            exact hi
          have hdir : IsDir s₃.device i.sector ROOT_ENTRIES := by
            rw [hroot]
            exact htree.isDir
          have hy32 : y < 2 ^ 32 := Nat.lt_trans hlt hc.layout.size_lt
          obtain ⟨s₄, ok, hadd, hcore₄, -, hfail, -⟩ := hcore.dirAdd hi₃ hdir hname hy32 0 garbage
          dsimp only at h
          rw [hadd, ok_bind] at h
          cases h
          obtain ⟨⟨mallocs, rfl⟩, -⟩ := hfail rfl
          have hframe₄ : Frame s { s₃ with mallocs } (SpareSectors s) :=
            hframe.trans ⟨rfl, rfl, rfl, Changed.refl _ _⟩
          have hcoreL := hc.forget hcore₄ hframe₄.openInodes
          obtain ⟨s₅, hundo, hframe₅, hcore₅, hbit₅⟩ :=
            hc.undoCreate_frame hcoreL hframe₄ hcnt hy hy₀
            hfree (by
              show s₃.freeMap.bit x = true
              rw [hcreated.bit x, if_neg hgroup.2, hbit₁ x, if_pos rfl])
          refine ⟨s₅, hundo, hframe₅, hcore₅,
            Or.inr ⟨⟨s₁, x, s₃, halloc, hcreate⟩, start, hgroup.1, fun k => ?_⟩⟩
          rw [hbit₅ k]
          dsimp only
          rw [hcreated.bit k, hbit₁ k]
          by_cases hk : k = x
          · rw [if_pos hk, hk, if_neg hgroup.2, hfree]
          · rw [if_neg hk, if_neg hk]

/-- `filesys_create` returns false. The root directory is opened before and closed after,
which leaves no trace in the map or on the disk, so that the failure is that of the condition,
or of opening the directory. -/
theorem Core.filesysCreate_fails (hc : Core s L hs ds) (ht : Tree s L) (hroom : Room hs 1)
    {name : Name} (hname : 0 ∉ name) {size : Int} (h₀ : 0 ≤ size) (h₁ : size < 2 ^ 31) {garbage : Mem}
    (h : s.filesysCreate name size garbage = .ok (s', false)) :
    Changed s.device s'.device (SpareSectors s) ∧ Leaves s s' size (Reserves s size) := by
  obtain ⟨s₁, dir, hdir, hrefs₁, hresult, -⟩ := hc.dirOpenRoot ht.root hroom
  have htree₁ := ht.refs hc.layout hrefs₁
  unfold Fs.filesysCreate at h
  rw [hdir, ok_bind] at h
  dsimp only at h
  rcases hresult with ⟨rfl, hcore₁⟩ | ⟨id, rfl, hcore₁, i, hi, rfl, hroot⟩
  · cases h
    refine ⟨?_, Or.inl ⟨?_, fun k => ?_⟩⟩
    · rw [hrefs₁.device]
      exact Changed.refl _ _
    · rintro ⟨_, _, hopen, -⟩
      rw [hdir] at hopen
      cases hopen
    · rw [hrefs₁.freeMap]
  · obtain ⟨⟨s₂, x, ok⟩, hcreate, h⟩ := bind_eq_ok h
    obtain ⟨s₃, hundo, h⟩ := bind_eq_ok h
    obtain ⟨s₄, hclose, h⟩ := bind_eq_ok h
    cases h
    obtain ⟨s₃', hundo', hframe, hcore₃, hleaves⟩ :=
      hcore₁.createIn_fails htree₁ hi hroot hname h₀ h₁ hcreate
    cases hundo.symm.trans hundo'
    have htree₃ : Tree s₃ L := htree₁.keep hcore₁.layout hframe.device
      (fun b hb => hcore₁.not_spare htree₁.root (by decide) hb) hframe.stable fun _ hy _ => hy
    have hmap : ∀ f, s₃.freeMapFile = some f → f.inode ∈ hs := by
      intro f hf
      refine hc.mapFile_mem f ?_
      rw [← hrefs₁.freeMapFile, ← hframe.freeMapFile]
      exact hf
    obtain ⟨s₄, hclosed, -, hrefs, -⟩ := hcore₃.closeRoot htree₃
      ⟨i, hframe.openInodes ▸ hi, rfl, hroot⟩ (hc.table.deny_le i.id) hmap
    cases hclose.symm.trans hclosed
    have hspare : SpareSectors s₁ = SpareSectors s := by
      unfold SpareSectors
      rw [hrefs₁.device, hrefs₁.freeMap]
    have htakes : Takes s₁ size ↔ Reserves s size := by
      constructor
      · exact fun htake => ⟨s₁, _, hdir, htake⟩
      · rintro ⟨_, _, hopen, htake⟩
        cases hdir.symm.trans hopen
        exact htake
    unfold Leaves at hleaves ⊢
    rw [hrefs.device, hrefs.freeMap, ← hrefs₁.device, ← hrefs₁.freeMap, ← hspare, ← htakes]
    exact ⟨hframe.device, hleaves⟩

/-- When memory does not run out, it is the room that decides. -/
theorem Core.reserves_iff (hc : Core s L hs ds) (ht : Tree s L) (hroom : Room hs 1)
    (hsynced : Synced s ds) {size : Int} (h₀ : 0 ≤ size) (h₁ : size < 2 ^ 31) : Reserves s size ↔ ¬ NoRoom s size := by
  obtain ⟨s₁, dir, hdir, hrefs₁, hresult, hm₁⟩ := hc.dirOpenRoot ht.root hroom
  have hsynced₁ := hrefs₁.synced hsynced (hm₁ hsynced.mallocs).1
  rcases hresult with ⟨rfl, -⟩ | ⟨id, rfl, hcore₁, -⟩
  · exact absurd rfl (hm₁ hsynced.mallocs).2
  · have htakes := hcore₁.takes_iff hsynced₁ h₀ h₁
    unfold NoRoom at htakes ⊢
    rw [hrefs₁.freeMap] at htakes
    rw [← htakes]
    constructor
    · rintro ⟨_, _, hopen, htake⟩
      cases hdir.symm.trans hopen
      exact htake
    · exact fun htake => ⟨s₁, _, hdir, htake⟩

/-! ### Nothing has changed -/

/-- Bit `k` of the free map in its file. -/
def storedBit (s : Fs) (k : Nat) : Bool :=
  Bitmap.bit ⟨s.freeMap.bitCnt, Fs.data s.device (diskInode s.device FREE_MAP_SECTOR)⟩ k

/-- The free map, the entries of the root directory and the existing files are the same. The file
of the free map is, when it holds the free map and memory does not run out. -/
structure Unchanged (s s' : Fs) (ds : List Nat) : Prop where
  freeMap : ∀ k, s'.freeMap.bit k = s.freeMap.bit k
  entries : ∀ k, k < ROOT_ENTRIES →
    entry s'.device ROOT_DIR_SECTOR k = entry s.device ROOT_DIR_SECTOR k
  inodes : ∀ y, Live s y → diskInode s'.device y = diskInode s.device y
  files : ∀ y, Live s y → y ≠ FREE_MAP_SECTOR → ∀ o, o < (diskInode s.device y).length.toNat →
    Fs.data s'.device (diskInode s'.device y) o = Fs.data s.device (diskInode s.device y) o
  mapFile : Synced s ds → ∀ k, k < s.freeMap.bitCnt → storedBit s' k = storedBit s k

namespace Users

variable {t : Users}

theorem Sane.create_unchanged (h : t.Sane L)
    (hdevice : Changed t.fs.device s'.device (SpareSectors t.fs))
    (hcnt : s'.freeMap.bitCnt = t.fs.freeMap.bitCnt)
    (hsynced : Synced t.fs t.denies → Synced s' t.denies)
    (hbit : ∀ k, s'.freeMap.bit k = t.fs.freeMap.bit k) : Unchanged t.fs s' t.denies := by
  refine ⟨hbit, fun k hk => ?_, fun y hy => ?_, fun y hy hne o ho => ?_, fun hs k hk => ?_⟩
  · exact entry_same h.core.layout hdevice h.tree.root h.tree.isDir
      (fun b hb => h.core.not_spare h.tree.root (by decide) hb) hk
  · exact hdevice.diskInode (h.core.spare_sector (h.live hy))
  · rw [hdevice.diskInode (h.core.spare_sector (h.live hy))]
    exact h.core.layout.data_eq hdevice (h.live hy)
      (fun b hb => h.core.not_spare (h.live hy) hne (Or.inr hb)) ho
  · have hbits' := (hsynced hs).bits k (by rw [hcnt]; exact hk)
    exact hbits'.trans ((hbit k).trans (hs.bits k hk).symm)

/-- A call of `filesys_create` that fails leaves the file system unchanged unless sectors for
contents were taken. With such sectors the free map is a different one: they stay marked, and
nobody owns them. -/
theorem Sane.create_undone_iff (h : t.Sane L) (hroom : t.HasRoom 2) {name : Name}
    (hname : 0 ∉ name) {size : Int} (h₁ : size < 2 ^ 31) {garbage : Mem}
    (hcreate : t.fs.filesysCreate name size garbage = .ok (s', false)) :
    Unchanged t.fs s' t.denies ↔ ¬ (0 < size ∧ Reserves t.fs size) := by
  -- a negative size is refused before it matters
  obtain ⟨size', h₀, h₁', hpos, hcreate'⟩ : ∃ size' : Int, 0 ≤ size' ∧ size' < 2 ^ 31 ∧
      (0 < size → size' = size) ∧ (¬ 0 < size → size' = 0) ∧
        t.fs.filesysCreate name size' garbage = .ok (s', false) := by
    by_cases hneg : size < 0
    · exact ⟨0, le_refl 0, by decide, fun hpos => by omega, fun _ => rfl,
        filesysCreate_negative hneg hcreate⟩
    · exact ⟨size, by omega, h₁, fun _ => rfl, fun hnot => by omega, hcreate⟩
  obtain ⟨hzero, hcreate'⟩ := hcreate'
  obtain ⟨hdevice, hleaves⟩ :=
    h.core.filesysCreate_fails h.tree (hroom.mono (Nat.le_succ 1)) hname h₀ h₁' hcreate'
  obtain ⟨s₁, ok, L', hcreate₁, hcreates, -, hsync⟩ :=
    h.core.filesysCreate h.tree hname h₀ h₁' garbage hroom
  cases hcreate'.symm.trans hcreate₁
  have hsame := h.create_unchanged hdevice hcreates.bitCnt fun hs => (hsync hs).1
  by_cases hsize : 0 < size
  · obtain rfl := hpos hsize
    rcases hleaves with ⟨hnot, hbit⟩ | ⟨hreserves, start, hgroup, hbit⟩
    · exact iff_of_true (hsame hbit) fun hleak => hnot hleak.2
    · refine iff_of_false (fun hunchanged => ?_) fun hnot => hnot ⟨hsize, hreserves⟩
      have hsectors := (bytesToSectors_pos h₀ h₁').mpr hsize
      have hmarked := hunchanged.freeMap start
      rw [hbit start, if_pos ⟨Nat.le_refl start, by omega⟩,
        hgroup start (Nat.le_refl start) (by omega)] at hmarked
      cases hmarked
  · refine iff_of_true (hsame fun k => ?_) fun hleak => hsize hleak.1
    rcases hleaves with ⟨-, hbit⟩ | ⟨-, start, -, hbit⟩
    · exact hbit k
    · rw [hbit k, hzero hsize, bytesToSectors_zero, if_neg (by omega)]

/-- **A failed creation.** In every state of a session in which every inode has fewer than
2³¹ - 2 handles, whichever calls of `malloc` fail: a `filesys_create` that returns false has left
everything as it was if and only if no data sectors had been allocated. -/
theorem failed_create_undone_iff {device : Block} {garbage : Mem} {s : Fs} {mallocs : List Bool}
    {ts : List (Transition Users Request)} (hsize : device.size < 2 ^ 32)
    (hformat : Fs.filesysInit device true garbage = .ok s)
    (hrun : Run Served (start s mallocs) ts) :
    ∀ t, (t = start s mallocs ∨ ∃ τ ∈ ts, t = τ.post) →
      ∀ name size junk s', 0 ∉ name → size < 2 ^ 31 →
        t.fs.filesysCreate name size junk = .ok (s', false) →
          (Unchanged t.fs s' t.denies ↔ ¬ (0 < size ∧ Reserves t.fs size)) := by
  have hformatted := (Fs.formatted_of_init hsize hformat).1
  intro t ht name size junk s' hname h₁ hcreate
  rcases ht with rfl | ⟨τ, hτ, rfl⟩
  · exact (start_sane hformatted mallocs).create_undone_iff (start_hasRoom hformatted mallocs)
      hname h₁ hcreate
  · obtain ⟨⟨L, hL⟩, hroom⟩ := sane_of_run hformatted hrun τ hτ
    exact hL.create_undone_iff hroom hname h₁ hcreate

/-- A name that is empty is refused. -/
theorem create_unnamed {s : Fs} (h : Formatted s) {size : Int} (h₀ : 0 ≤ size)
    (h₁ : size < 2 ^ 31) : ∃ s', (start s []).fs.filesysCreate [] size (fun _ => 0) =
      .ok (s', false) := by
  have hsane := start_sane h []
  have hnul : (0 : UInt8) ∉ ([] : List UInt8) := by decide
  obtain ⟨s', ok, L', hcreate, -, hnew, -⟩ := hsane.core.filesysCreate hsane.tree hnul h₀ h₁
    (fun _ => 0) (start_hasRoom h [])
  cases ok with
  | true =>
      obtain ⟨x, start, hfile, -⟩ := hnew rfl
      exact absurd rfl hfile.valid.1
  | false => exact ⟨s', hcreate⟩

/-- On a device of 8 sectors an empty file without a name is refused, and nothing changes. -/
theorem failed_create_undone_iff_blankDevice : ∃ s s',
    Fs.filesysInit blankDevice true (fun _ => 0) = .ok s ∧
      (start s []).fs.filesysCreate [] 0 (fun _ => 0) = .ok (s', false) ∧
        Unchanged (start s []).fs s' (start s []).denies := by
  obtain ⟨hroom, -⟩ | ⟨s, hformat, hformatted, -⟩ :=
    Fs.filesysInit_formats (show blankDevice.size < 2 ^ 32 by decide) fun _ => 0
  · exact absurd hroom (by decide)
  · obtain ⟨s', hcreate⟩ := create_unnamed hformatted (le_refl 0) (by decide)
    exact ⟨s, s', hformat, hcreate, (failed_create_undone_iff (by decide) hformat (.nil _) _
      (Or.inl rfl) [] 0 _ s' (by decide) (by decide) hcreate).mpr fun h => absurd h.1 (by decide)⟩

/-- A file of 100 bytes without a name is refused as well, and its data sector stays marked. -/
theorem failed_create_leaks : ∃ s s',
    Fs.filesysInit blankDevice true (fun _ => 0) = .ok s ∧
      (start s []).fs.filesysCreate [] 100 (fun _ => 0) = .ok (s', false) ∧
        ¬ Unchanged (start s []).fs s' (start s []).denies := by
  obtain ⟨hroom, -⟩ | ⟨s, hformat, hformatted, hdevice⟩ :=
    Fs.filesysInit_formats (show blankDevice.size < 2 ^ 32 by decide) fun _ => 0
  · exact absurd hroom (by decide)
  have hsane := start_sane hformatted []
  have hroom₂ := start_hasRoom hformatted []
  obtain ⟨s', hcreate⟩ := @create_unnamed s hformatted 100 (by decide) (by decide)
  refine ⟨s, s', hformat, hcreate, fun hunchanged => ?_⟩
  refine (hsane.create_undone_iff hroom₂ (by decide) (by decide) hcreate).mp hunchanged
    ⟨by decide, (hsane.core.reserves_iff hsane.tree (hroom₂.mono (Nat.le_succ 1)) ?_ (by decide)
      (by decide)).mpr ?_⟩
  · exact (start_stored hformatted).synced
  · -- sectors 4 to 7 are free
    have hcnt : s.freeMap.bitCnt = 8 := by
      rw [hformatted.layout.bitCnt, hdevice]
      rfl
    have hbelow : Below s.freeMap 4 := by
      have hb := hformatted.below
      rw [hdevice] at hb
      exact hb
    have hsectors : bytesToSectors 100 = 1 := by decide
    have hfree : ∀ k, 4 ≤ k → k < 8 → s.freeMap.bit k ≠ true := fun k h₁ h₂ hk =>
      absurd ((hbelow k (by omega)).mp hk) (by omega)
    intro hroom
    rcases hroom with hfull | ⟨x, hfirst, hgroup⟩
    · exact hfree 7 (by decide) (by decide) (hfull 7 (by show 7 < s.freeMap.bitCnt; omega))
    · rw [hsectors] at hgroup
      obtain ⟨k, hk₁, hk₂, hk⟩ := hgroup (if x = 4 then 5 else 4) (by
        show _ ≤ s.freeMap.bitCnt
        split <;> omega)
      rcases hk with rfl | hk
      · split at hk₁ <;> split at hk₂ <;> omega
      · refine hfree k ?_ ?_ hk
        · split at hk₁ <;> omega
        · split at hk₂ <;> omega

end Users

end OsTools.Filesys

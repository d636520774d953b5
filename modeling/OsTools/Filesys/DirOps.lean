import OsTools.Filesys.Scan
/-!
# OsTools.Filesys.DirOps

`dir_add`, `dir_lookup`, `dir_remove` and `dir_readdir` on an open directory: the
entries they find and change, and what becomes of the inodes. Whatever memory
there is, an operation that fails leaves the entries as they are.

## Proof shape

`dirAdd`, `dirLookup` and `dirRemove` follow the source call by call, with one case for each way
out. `dir_remove` has the longest way: it looks the entry up, opens the inode, writes the entry
with `in_use` off, removes the inode and closes the reference. The part behind the writing is
`removed_of_wrote`, from which the directory comes out with one entry less whether or not the
closing releases sectors; its point is that the closing writes only to the free map's file, which
is not the directory. When the entry cannot be written, the reference is closed again
(`closeOpened`), and the state is as before.
-/

namespace OsTools.Filesys

open OsTools.Kernel

/-- A name that `dir_add` accepts. -/
def ValidName (name : Name) : Prop := name ≠ [] ∧ name.length ≤ NAME_MAX

instance (name : Name) : Decidable (ValidName name) := inferInstanceAs (Decidable (_ ∧ _))

/-- The name is in the directory in sector `x` with `n` entries. -/
def Present (d : Block) (x n : Nat) (name : Name) : Prop :=
  ∃ k, k < n ∧ ∃ y, entry d x k = some (name, y)

/-- A directory of zeros has no entries in use. -/
theorem entry_of_zero {d : Block} {x n : Nat}
    (hzero : ∀ k, k < ENTRY_SIZE * n → Fs.data d (diskInode d x) k = 0) {k : Nat} (hk : k < n) :
    entry d x k = none := by
  have hflag : slot d x k 19 = 0 := hzero _ (by
    unfold ENTRY_SIZE
    omega)
  unfold entry Entry.content Entry.inUse
  rw [hflag]
  rfl

theorem IsDir.of_zero {d : Block} {x n : Nat}
    (hlength : (diskInode d x).length = (ENTRY_SIZE * n : Nat))
    (hzero : ∀ k, k < ENTRY_SIZE * n → Fs.data d (diskInode d x) k = 0) : IsDir d x n :=
  ⟨hlength, fun _ hk hne => absurd (entry_of_zero hzero hk) hne⟩

/-- What `dir_create` makes, for as many entries as an `off_t` can count the bytes of. -/
theorem Fs.dirCreate_eq {s : Fs} {x n : Nat} (hn : ENTRY_SIZE * n < 2 ^ 31) :
    s.dirCreate x n = s.inodeCreate x (ENTRY_SIZE * n : Nat) := by
  unfold Fs.dirCreate toInt32
  rw [Nat.mul_comm n, Nat.mod_eq_of_lt (by omega), if_pos hn]

namespace Core

variable {s s' : Fs} {L L' : Nat → Prop} {hs hs' ds ds' : List Nat} {i : Inode} {n : Nat}

/-- `dir_add`. A name that is not valid, or that is in use, is refused before anything is
written. Otherwise the scan for a free entry stops at the first one or at the end of the
directory, and in the second case the write of the entry writes nothing, because directories
do not grow. -/
theorem dirAdd (h : Core s L hs ds) (hi : i ∈ s.openInodes) (hdir : IsDir s.device i.sector n)
    {name : Name} (hname : 0 ∉ name) {y : Nat} (hy : y < 2 ^ 32) (pos : Nat) (e : Mem) :
    ∃ s' ok, s.dirAdd ⟨i.id, pos⟩ name y e = .ok (s', ok) ∧ Core s' L hs ds ∧
      (ok = true → ValidName name ∧ ∃ k e', Entry.content e' = some (name, y) ∧
        Wrote s s' i.sector n k e' ∧
        (s.mallocs = [] → entry s.device i.sector k = none ∧ ¬ Present s.device i.sector n name)) ∧
      (ok = false → (∃ mallocs, s' = { s with mallocs }) ∧ (s.mallocs = [] → i.denyWriteCnt = 0 →
        ¬ ValidName name ∨ Present s.device i.sector n name ∨
          ∀ k, k < n → entry s.device i.sector k ≠ none)) ∧
      (s.mallocs = [] → s'.mallocs = []) := by
  unfold Fs.dirAdd
  by_cases hvalid : name = [] ∨ NAME_MAX < name.length
  · rw [if_pos hvalid]
    refine ⟨s, false, rfl, h, fun hf => (by cases hf), fun _ => ⟨⟨s.mallocs, rfl⟩, fun _ _ =>
      Or.inl fun hv => ?_⟩, id⟩
    -- the name is empty or too long
    rcases hvalid with hnil | hlong
    · exact hv.1 hnil
    · exact absurd hv.2 (Nat.not_le.mpr hlong)
  · rw [if_neg hvalid]
    have hv : ValidName name :=
      ⟨fun hnil => hvalid (Or.inl hnil), Nat.not_lt.mp fun hlong => hvalid (Or.inr hlong)⟩
    obtain ⟨mallocs₁, r, hlookup, hsome, hnone⟩ := h.lookup hi hdir hname pos e
    rw [hlookup, ok_bind]
    cases r with
    | some found =>
        -- the name is in use
        obtain ⟨e', ofs⟩ := found
        obtain ⟨j, hj, -, -, hentry⟩ := hsome e' ofs rfl
        exact ⟨_, false, rfl, h.setMallocs mallocs₁, fun hf => (by cases hf), fun _ =>
          ⟨⟨mallocs₁, rfl⟩, fun _ _ => Or.inr (Or.inl ⟨j, hj, _, hentry⟩)⟩, fun hm => (hnone hm).1⟩
    | none =>
        dsimp only
        have hcore₁ := h.setMallocs mallocs₁
        obtain ⟨mallocs₂, e₂, k, hfree, -, hk, hslot⟩ := hcore₁.freeLoop_spec hi hdir e
          (Nat.zero_le n) (hcore₁.passes_lt hi hdir)
        rw [hcore₁.table.inode hi, ok_bind]
        rw [Nat.mul_zero] at hfree
        rw [hfree, ok_bind]
        dsimp only
        -- the first free entry is filled and written, if it is within the directory
        obtain ⟨hcontent, hterm⟩ := Entry.fill_spec hname hv.2 hy e₂
        have hcore₂ := hcore₁.setMallocs mallocs₂
        obtain ⟨s', c, hwrite, hcore', hwrote, hkept, hall⟩ := hcore₂.writeEntry hi hdir
          (fun _ => hterm) k
        dsimp only at hwrite
        rw [hwrite, ok_bind]
        have hmallocs₂ : s.mallocs = [] → mallocs₂ = [] := fun hm => (hslot (hnone hm).1).1
        refine ⟨s', decide (c = ENTRY_SIZE), rfl, hcore', fun ht => ?_, fun hf => ?_,
          fun hm => (hall (hmallocs₂ hm)).1⟩
        · obtain ⟨hlt, hframe, hmap, hentry, hother, hdir'⟩ := hwrote (of_decide_eq_true ht)
          refine ⟨hv, k, _, hcontent, ⟨hlt, ⟨hframe.openInodes, hframe.nextId, hframe.freeMapFile,
            hframe.device⟩, hmap, hentry, hother, hdir'⟩, fun hm => ⟨(hslot (hnone hm).1).2.2 hlt,
              fun hpresent => ?_⟩⟩
          obtain ⟨j, hj, z, hz⟩ := hpresent
          exact (hnone hm).2 rfl j hj z hz
        · have hne := of_decide_eq_false hf
          obtain ⟨mallocs', hstate⟩ := hkept hne
          refine ⟨⟨mallocs', hstate⟩, fun hm hdeny => Or.inr (Or.inr fun l hl => ?_)⟩
          have hkn : ¬ k < n := fun hlt => hne ((hall (hmallocs₂ hm)).2 hdeny hlt)
          exact (hslot (hnone hm).1).2.1 l (Nat.zero_le _) (by omega)

/-- `dir_lookup`, when the entries lead to inodes that exist. -/
theorem dirLookup (h : Core s L hs ds) (hi : i ∈ s.openInodes) (hdir : IsDir s.device i.sector n)
    (hnamed : ∀ k name y, k < n → entry s.device i.sector k = some (name, y) → L y)
    {name : Name} (hname : 0 ∉ name) (pos : Nat) (e : Mem) (hroom : Room hs 1) (R : Nat → Prop) :
    ∃ s' r, s.dirLookup ⟨i.id, pos⟩ name e = .ok (s', r) ∧ Core s' L (r.toList ++ hs) ds ∧ Refs s s' R ∧
      (∀ id, r = some id → ∃ k, k < n ∧ ∃ j ∈ s'.openInodes, j.id = id ∧
        entry s.device i.sector k = some (name, j.sector) ∧ (id ∉ hs → j.removed = false)) ∧
      (s.mallocs = [] → s'.mallocs = [] ∧ (r = none → ¬ Present s.device i.sector n name)) := by
  obtain ⟨mallocs₁, r, hlookup, hsome, hnone⟩ := h.lookup hi hdir hname pos e
  have hrefs₁ : Refs s { s with mallocs := mallocs₁ } R := ⟨Stable.of_eq rfl rfl, rfl, rfl, rfl⟩
  unfold Fs.dirLookup
  rw [hlookup, ok_bind]
  cases r with
  | none =>
      refine ⟨_, none, rfl, h.setMallocs mallocs₁, hrefs₁, fun _ hr => (by cases hr), fun hm =>
        ⟨(hnone hm).1, fun _ hpresent => ?_⟩⟩
      obtain ⟨j, hj, z, hz⟩ := hpresent
      exact (hnone hm).2 rfl j hj z hz
  | some found =>
      obtain ⟨e', ofs⟩ := found
      obtain ⟨k, hk, -, -, hentry⟩ := hsome e' ofs rfl
      obtain ⟨s', r, hopen, hcore, hrefs, hinode, hm'⟩ := (h.setMallocs mallocs₁).inodeOpen
        (hnamed k name _ hk hentry) hroom R
      refine ⟨s', r, hopen, hcore, hrefs₁.trans hrefs, fun id hr => ?_, fun hm => ?_⟩
      · obtain ⟨j, hj, hjid, hjs, hnew⟩ := hinode id hr
        refine ⟨k, hk, j, hj, hjid, ?_, hnew⟩
        rw [hjs]
        exact hentry
      · obtain ⟨hmallocs, hne⟩ := hm' (hnone hm).1
        exact ⟨hmallocs, fun hr => absurd hr hne⟩

/-- An open inode with a reference left stays open. -/
theorem follow (h : Core s L hs ds) (h' : Core s' L' hs' ds') {R : Nat → Prop}
    (hstable : Stable s s' R) (hi : i ∈ s.openInodes) (hid : i.id ∈ hs') : ∃ j ∈ s'.openInodes,
      j.id = i.id ∧ j.sector = i.sector ∧ j.denyWriteCnt = ds'.count i.id := by
  obtain ⟨j, hj, hjid, -, -, -, hdeny, -⟩ := h'.inode hid
  obtain ⟨k, hk, hkid, hks, -⟩ := hstable.sector j hj (hjid ▸ h.table.id_lt i hi)
  rw [eq_of_nodup_map h.table.ids hk hi (hkid.trans hjid)] at hks
  exact ⟨j, hj, hjid, hks.symm, hdeny⟩

theorem mem_hs (h : Core s L hs ds) (hi : i ∈ s.openInodes) : i.id ∈ hs :=
  List.count_pos_iff.mp (h.table.openCnt i hi).2

/-- Two inodes own different sectors. -/
theorem owns_ne (h : Core s L hs ds) {x y : Nat} (hx : L x) (hy : L y) (hne : x ≠ y) {b : Nat}
    (hb : Owns s.device x b) : ¬ Owns s.device y b := fun hb' =>
  hne (h.layout.disjoint x y b hx hy hb hb')

/-- What a successful `dir_remove` of entry `k`, for the inode in sector `y`, leaves. -/
structure Removed (s s' : Fs) (L L' : Nat → Prop) (hs ds : List Nat) (x n k y : Nat) : Prop where
  core : Core s' L' hs ds
  sub : ∀ z, L' z → L z
  keep : ∀ z, L z → z ≠ y → L' z
  stable : Stable s s' fun z => z = y
  freeMapFile : s'.freeMapFile = s.freeMapFile
  bitCnt : s'.freeMap.bitCnt = s.freeMap.bitCnt
  bit : ∀ b, s'.freeMap.bit b = true → s.freeMap.bit b = true
  gone : ¬ L' y → s'.freeMap.bit y = false
  device : Changed s.device s'.device fun b =>
    DataSector s.device x b ∨ DataSector s.device FREE_MAP_SECTOR b
  entry : entry s'.device x k = none
  other : ∀ j, j < n → j ≠ k → Filesys.entry s'.device x j = Filesys.entry s.device x j
  isDir : IsDir s'.device x n

/-- An inode is removed, and a reference to it closed: it is gone if that was the last one. -/
theorem removeClose {j : Inode} (h : Core s L (j.id :: hs) ds) (hj : j ∈ s.openInodes)
    (hdeny : ds.count j.id ≤ hs.count j.id) (hmap : ∀ f, s.freeMapFile = some f → f.inode ∈ hs) :
    ∃ s₁ s' gone, s.inodeRemove j.id = .ok s₁ ∧ s₁.inodeClose (some j.id) = .ok s' ∧
      Core s' (fun z => L z ∧ ¬ (gone ∧ z = j.sector)) hs ds ∧
      Closed s s' j gone (fun z => z = j.sector) ∧ (Synced s ds → Synced s' ds) := by
  obtain ⟨s₁, hremove, hcore₁, hrefs₁, hmallocs₁⟩ := h.inodeRemove hj
  have hmap₁ : ∀ f, s₁.freeMapFile = some f → f.inode ∈ hs := by
    rw [hrefs₁.freeMapFile]
    exact hmap
  obtain ⟨s', i, hi, hid, hclose, hcore', hclosed, hsync⟩ := hcore₁.inodeClose hdeny hmap₁
    fun z => z = j.sector
  -- the inode that is closed is the one that has been removed
  have hold : i.id < s.nextId := by
    rw [hid]
    exact h.table.id_lt j hj
  obtain ⟨l, hl, hlid, hls, -⟩ := hrefs₁.sector i hi hold
  have hsector : i.sector = j.sector := by
    rw [← hls, eq_of_nodup_map h.table.ids hl hj (hlid.trans hid)]
  rw [hsector] at hcore'
  refine ⟨s₁, s', _, hremove, hclose, hcore', ⟨hrefs₁.toStable.trans hclosed.stable,
    hclosed.freeMapFile.trans hrefs₁.freeMapFile, ?_, ?_, fun k => ?_, fun hg => ?_⟩,
    fun hsynced => hsync (hrefs₁.synced hsynced (hmallocs₁.trans hsynced.mallocs))⟩
  · rw [← hrefs₁.device]
    exact hclosed.device
  · rw [← hrefs₁.freeMap]
    exact hclosed.bitCnt
  · rw [← hrefs₁.freeMap, ← hrefs₁.device, ← hsector]
    exact hclosed.bit k
  · rw [← hrefs₁.device, ← hrefs₁.freeMap]
    exact hclosed.kept hg

/-- Only references were made before the removal. -/
theorem Removed.of_refs {s₁ : Fs} {x k y : Nat} (hrefs : Refs s s₁ fun _ => False)
    (h : Removed s₁ s' L L' hs ds x n k y) : Removed s s' L L' hs ds x n k y where
  core := h.core
  sub := h.sub
  keep := h.keep
  stable := (hrefs.toStable.mono fun _ hf => hf.elim).trans h.stable
  freeMapFile := h.freeMapFile.trans hrefs.freeMapFile
  bitCnt := by rw [h.bitCnt, hrefs.freeMap]
  bit b hb := by
    rw [← hrefs.freeMap]
    exact h.bit b hb
  gone := h.gone
  device := by
    rw [← hrefs.device]
    exact h.device
  entry := h.entry
  other j hj hne := by rw [h.other j hj hne, hrefs.device]
  isDir := h.isDir

/-- Behind the writing of an empty entry `k` the inode is removed and the reference to it closed.
The last closing writes the free map's file, of which the directory owns no sector. -/
theorem removed_of_wrote {s₁ : Fs} {j : Inode} {e : Mem} {k : Nat}
    (h : Core s L (j.id :: hs) ds) (hi : i ∈ s.openInodes) (hj : j ∈ s.openInodes)
    (hx : i.sector ≠ FREE_MAP_SECTOR) (hdeny : ds.count j.id ≤ hs.count j.id)
    (hmap : ∀ f, s.freeMapFile = some f → f.inode ∈ hs) (h₁ : Core s₁ L (j.id :: hs) ds)
    (hwrote : Wrote s s₁ i.sector n k e) (hempty : Entry.content e = none) :
    ∃ s₂ s' L', s₁.inodeRemove j.id = .ok s₂ ∧ s₂.inodeClose (some j.id) = .ok s' ∧
      Removed s s' L L' hs ds i.sector n k j.sector ∧
      (Synced s ds → s₁.mallocs = [] → Synced s' ds) := by
  obtain ⟨hk, hframe, hmap₁, hentry, hother, hdir⟩ := hwrote
  obtain ⟨-, -, -, -, -, -, hmapL, -⟩ := h.mapInode
  have hL := (h.backed i hi).1
  have hj₁ : j ∈ s₁.openInodes := by
    rw [hframe.openInodes]
    exact hj
  obtain ⟨s₂, s', gone, hremove, hclose, hcore, hclosed, hsync⟩ :=
    h₁.removeClose hj₁ hdeny (by rw [hframe.freeMapFile]; exact hmap)
  have hmapData : ∀ b, DataSector s₁.device FREE_MAP_SECTOR b →
      DataSector s.device FREE_MAP_SECTOR b := by
    intro b hb
    unfold DataSector at hb
    rw [hframe.device.diskInode (h.layout.not_data hmapL hL)] at hb
    exact hb
  have hout : ∀ b, Owns s₁.device i.sector b → ¬ DataSector s₁.device FREE_MAP_SECTOR b :=
    fun b hb hdata => h₁.owns_ne hL hmapL hx hb (Or.inr hdata)
  have hsame : ∀ m, m < n → Filesys.entry s'.device i.sector m =
      Filesys.entry s₁.device i.sector m := fun m hm =>
    entry_same h₁.layout hclosed.device hL hdir hout hm
  refine ⟨s₂, s', _, hremove, hclose, ⟨hcore, fun z hz => hz.1, fun z hz hne =>
    ⟨hz, fun hgone => hne hgone.2⟩, hframe.stable.trans hclosed.stable,
    hclosed.freeMapFile.trans hframe.freeMapFile, ?_, fun b hb => ?_, fun hgone => ?_, ?_, ?_,
    fun m hm hne => ?_, hdir.same h₁.layout hclosed.device hL hout⟩, fun hsynced hm => hsync ?_⟩
  · rw [hclosed.bitCnt, hmap₁]
  · have hb₁ := ((hclosed.bit b).mp hb).1
    rw [hmap₁] at hb₁
    exact hb₁
  · refine Bool.eq_false_iff.mpr fun hb => hgone ⟨(h.backed j hj).1, fun hg => ?_⟩
    exact ((hclosed.bit _).mp hb).2 ⟨hg.1, Or.inl hg.2⟩
  · exact (hframe.device.mono fun b hb => Or.inl hb).trans
      (hclosed.device.mono fun b hb => Or.inr (hmapData b hb))
  · rw [hsame k hk, hentry]
    exact hempty
  · rw [hsame m hm, hother m hm hne]
  · exact hsynced.frame h hframe hmap₁ hm fun b hb hdata =>
      h.owns_ne hmapL hL hx.symm hb (Or.inr hdata)

/-- A reference that was opened is closed again. An inode that was not open before is not removed,
so that it stays on the device. -/
theorem closeOpened {j : Inode} (h : Core s L (j.id :: hs) ds) (hj : j ∈ s.openInodes)
    (hnew : j.id ∉ hs → j.removed = false) (hdeny : ds.count j.id ≤ hs.count j.id)
    (hmap : ∀ f, s.freeMapFile = some f → f.inode ∈ hs) :
    ∃ s', s.inodeClose (some j.id) = .ok s' ∧ Core s' L hs ds ∧ Refs s s' (fun _ => False) ∧
      (Synced s ds → Synced s' ds) := by
  obtain ⟨s', i, hi, hid, hclose, hcore, hclosed, hsync⟩ := h.inodeClose hdeny hmap fun _ => False
  obtain ⟨hcore', hrefs⟩ := ClosesTo.refs ⟨i, hi, hid, hcore, hclosed⟩ fun l hl hlid hgone => by
    rw [eq_of_nodup_map h.table.ids hl hj hlid, hnew hgone.1] at hgone
    cases hgone.2
  exact ⟨s', hclose, hcore', hrefs, hsync⟩

/-- `dir_remove` in a directory other than the file of the free map. The entry is found, its
inode opened, the entry cleared and the inode closed again, which releases its sectors unless
somebody else has it open. The steps may fail for want of memory, and then nothing has been
written. -/
theorem dirRemove (h : Core s L hs ds) (hi : i ∈ s.openInodes) (hdir : IsDir s.device i.sector n)
    (hnamed : ∀ k name y, k < n → entry s.device i.sector k = some (name, y) → L y)
    (hx : i.sector ≠ FREE_MAP_SECTOR) {name : Name} (hname : 0 ∉ name) (pos : Nat) (e : Mem)
    (hroom : Room hs 1) : ∃ s' ok, s.dirRemove ⟨i.id, pos⟩ name e = .ok (s', ok) ∧
      (ok = false → Core s' L hs ds ∧ Refs s s' fun _ => False) ∧
      (ok = true → ∃ L' k y, k < n ∧ entry s.device i.sector k = some (name, y) ∧
        Removed s s' L L' hs ds i.sector n k y) ∧
      (Synced s ds → Synced s' ds ∧
        (i.denyWriteCnt = 0 → ok = false → ¬ Present s.device i.sector n name)) := by
  obtain ⟨mallocs₁, r, hlookup, hsome, hnone⟩ := h.lookup hi hdir hname pos e
  have hrefs₁ : Refs s { s with mallocs := mallocs₁ } fun _ => False :=
    ⟨Stable.of_eq rfl rfl, rfl, rfl, rfl⟩
  have hcore₁ := h.setMallocs mallocs₁
  unfold Fs.dirRemove
  rw [hlookup, ok_bind]
  cases r with
  | none =>
      refine ⟨_, false, rfl, fun _ => ⟨hcore₁, hrefs₁⟩, fun hf => (by cases hf), fun hsynced =>
        ⟨hrefs₁.synced hsynced (hnone hsynced.mallocs).1, fun _ _ hpresent => ?_⟩⟩
      obtain ⟨j, hj, z, hz⟩ := hpresent
      exact (hnone hsynced.mallocs).2 rfl j hj z hz
  | some found =>
      obtain ⟨e', ofs⟩ := found
      obtain ⟨k, hk, hofs, -, hentry⟩ := hsome e' ofs rfl
      have hy := hnamed k name _ hk hentry
      obtain ⟨s₂, r, hopen, hcore₂, hrefs₂, hinode, hm₂⟩ := hcore₁.inodeOpen hy hroom fun _ => False
      dsimp only
      rw [hopen, ok_bind]
      have hrefs := hrefs₁.trans hrefs₂
      cases r with
      | none =>
          refine ⟨s₂, false, rfl, fun _ => ⟨hcore₂, hrefs⟩, fun hf => (by cases hf),
            fun hsynced => ?_⟩
          exact absurd rfl (hm₂ (hnone hsynced.mallocs).1).2
      | some id =>
          obtain ⟨i₂, hi₂, hi₂id, hi₂s, hi₂d⟩ := h.follow hcore₂ hrefs.toStable hi
            (List.mem_cons_of_mem _ (h.mem_hs hi))
          obtain ⟨j, hj, rfl, hjs, hnew⟩ := hinode id rfl
          have hdeny₂ : i₂.denyWriteCnt = i.denyWriteCnt := by
            rw [hi₂d, h.table.denyWriteCnt i hi]
          have hdir₂ : IsDir s₂.device i₂.sector n := by
            rw [hrefs.device, hi₂s]
            exact hdir
          have hclear := Entry.setInUse_false e'
          obtain ⟨s₃, c, hwrite, hcore₃, hwrote, hkept, hall⟩ := hcore₂.writeEntry hi₂ hdir₂
            (fun hne => absurd hclear hne) k
          rw [hi₂id, ← hofs] at hwrite
          have hdeny := h.table.deny_le j.id
          have hmap : ∀ f, s₂.freeMapFile = some f → f.inode ∈ hs := by
            obtain ⟨g, hg, hgmem, -⟩ := h.mapFile
            intro f hf
            rw [hrefs.freeMapFile, hg] at hf
            cases hf
            exact hgmem
          dsimp only
          rw [hwrite, ok_bind]
          dsimp only
          by_cases hc : c = ENTRY_SIZE
          · rw [if_neg (not_not_intro hc)]
            obtain ⟨s₄, s', L', hremove, hclose, hremoved, hsync⟩ := hcore₂.removed_of_wrote hi₂ hj
              (by rw [hi₂s]; exact hx) hdeny hmap hcore₃ (hwrote hc) hclear
            rw [hi₂s, hjs] at hremoved
            rw [hremove, ok_bind, hclose, ok_bind]
            refine ⟨s', true, rfl, fun hf => (by cases hf),
              fun _ => ⟨L', k, _, hk, hentry, hremoved.of_refs hrefs⟩, fun hsynced => ?_⟩
            have hm₁ := (hm₂ (hnone hsynced.mallocs).1).1
            exact ⟨hsync (hrefs.synced hsynced hm₁) (hall hm₁).1, fun _ hf => (by cases hf)⟩
          · -- the entry could not be written
            rw [if_pos hc]
            obtain ⟨mallocs₃, rfl⟩ := hkept hc
            obtain ⟨s', hclose, hcore, hrefs', hsync⟩ := hcore₃.closeOpened hj hnew hdeny hmap
            rw [hclose, ok_bind]
            have hrefs₃ : Refs s₂ { s₂ with mallocs := mallocs₃ } fun _ => False :=
              ⟨Stable.of_eq rfl rfl, rfl, rfl, rfl⟩
            refine ⟨s', false, rfl, fun _ => ⟨hcore, (hrefs.trans hrefs₃).trans hrefs'⟩,
              fun hf => (by cases hf), fun hsynced => ?_⟩
            have hm₁ := (hm₂ (hnone hsynced.mallocs).1).1
            refine ⟨hsync (hrefs₃.synced (hrefs.synced hsynced hm₁) (hall hm₁).1), fun hdeny0 => ?_⟩
            exact absurd ((hall hm₁).2 (hdeny₂.trans hdeny0) hk) hc

end Core

end OsTools.Filesys

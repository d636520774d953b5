import OsTools.Filesys.FileSystem
/-!
# OsTools.Filesys.FileOps

What `filesys_create`, `filesys_open` and `filesys_remove` do to the sectors, the
references and the root directory, whatever memory there is. When memory does not
run out, `filesys_create` fails only for a reason: the name is not valid or not
new, the directory is full, or there is no room.

## Proof shape

`filesys_create` ends in one of three kinds of states (`CreateIn`): nothing has happened, a sector
is marked that nobody owns and that `undoCreate` takes back, or there is a new file. The state in
between, with the inode written but no entry that leads to it, is `Nameless`. Everything that was
there is still there in it, and the root directory is not where the new inode is, so that the
outcome of `dir_add` decides: `Nameless.unlinked` or `Nameless.linked`.

`filesys_open` and `filesys_remove` open the root directory, go through an operation of
`Filesys.DirOps` and close it again. What the root directory is for (`Tree`) is kept because it is
not removed (`Core.closeRoot`) and because a removed entry and its inode go together
(`Tree.removed`).
-/

namespace OsTools.Filesys

open OsTools.Kernel

variable {s s' : Fs} {L : Nat → Prop} {hs ds : List Nat}

/-- The sectors that `filesys_create` may write to. -/
def CreateSectors (s : Fs) (b : Nat) : Prop :=
  DataSector s.device ROOT_DIR_SECTOR b ∨ DataSector s.device FREE_MAP_SECTOR b ∨
    s.freeMap.bit b = false

/-- What a successful `filesys_create` leaves: the inode in sector `x`, `size` zero
bytes from sector `start` on, and the entry of the name. -/
structure NewFile (s s' : Fs) (ds : List Nat) (name : Name) (size : Int) (x start : Nat) :
    Prop where
  valid : ValidName name
  sector : s.freeMap.First 0 1 false x
  space : ∃ m : Bitmap, m.bitCnt = s.freeMap.bitCnt ∧
    (∀ k, m.bit k = if x ≤ k ∧ k < x + 1 then true else s.freeMap.bit k) ∧
    m.First 0 (bytesToSectors size) false start ∧
    ∀ k, s'.freeMap.bit k = if start ≤ k ∧ k < start + bytesToSectors size then true else m.bit k
  inode : diskInode s'.device x = ⟨start, size, INODE_MAGIC⟩
  zero : ∀ k, k < size.toNat → Fs.data s'.device (diskInode s'.device x) k = 0
  entry : ∃ k, k < ROOT_ENTRIES ∧ entry s'.device ROOT_DIR_SECTOR k = some (name, x) ∧
    (∀ j, j < ROOT_ENTRIES → j ≠ k →
      Filesys.entry s'.device ROOT_DIR_SECTOR j = Filesys.entry s.device ROOT_DIR_SECTOR j) ∧
    (Synced s ds → Filesys.entry s.device ROOT_DIR_SECTOR k = none ∧
      ¬ Present s.device ROOT_DIR_SECTOR ROOT_ENTRIES name)

/-- Why `filesys_create` fails when memory does not run out. -/
def CreateFails (s : Fs) (name : Name) (size : Int) : Prop :=
  ¬ ValidName name ∨ Present s.device ROOT_DIR_SECTOR ROOT_ENTRIES name ∨
    (∀ k, k < ROOT_ENTRIES → entry s.device ROOT_DIR_SECTOR k ≠ none) ∨
    (∀ k, k < s.freeMap.bitCnt → s.freeMap.bit k = true) ∨
    ∃ x, s.freeMap.First 0 1 false x ∧ ∀ j, j + bytesToSectors size ≤ s.freeMap.bitCnt →
      ∃ k, j ≤ k ∧ k < j + bytesToSectors size ∧ (k = x ∨ s.freeMap.bit k = true)

/-- The sectors of the free map's file, and those that are free. -/
def SpareSectors (s : Fs) (b : Nat) : Prop :=
  DataSector s.device FREE_MAP_SECTOR b ∨ s.freeMap.bit b = false

/-- Who owns what does not change with the rest of the device. -/
theorem Changed.owns_iff {d d' : Block} {B : Nat → Prop} (h : Changed d d' B) {y b : Nat}
    (hy : ¬ B y) : Owns d' y b ↔ Owns d y b := by
  unfold Owns DataSector
  rw [h.diskInode hy]

theorem Core.not_spare (h : Core s L hs ds) {y b : Nat} (hy : L y) (hne : y ≠ FREE_MAP_SECTOR)
    (hb : Owns s.device y b) : ¬ SpareSectors s b := by
  obtain ⟨-, -, -, -, -, -, hmapL, -⟩ := h.mapInode
  intro hspare
  rcases hspare with hdata | hfree
  · exact h.owns_ne hy hmapL hne hb (Or.inr hdata)
  · rw [h.layout.used y b hy hb] at hfree
    cases hfree

theorem Core.spare_sector (h : Core s L hs ds) {y : Nat} (hy : L y) : ¬ SpareSectors s y := by
  obtain ⟨-, -, -, -, -, -, hmapL, -⟩ := h.mapInode
  intro hspare
  rcases hspare with hdata | hfree
  · exact h.layout.not_data hy hmapL hdata
  · rw [h.layout.used y y hy (Or.inl rfl)] at hfree
    cases hfree

/-- Allocating a sector and creating an inode in it. The first free sector `x` is marked
before `inode_create` allocates those of the contents, so that it is none of them. Where
`inode_create` fails, `x` is all that is marked in addition, and if memory did not run out
every group of sectors that would have done has `x` or a marked one in it. -/
theorem Core.newInode (h : Core s L hs ds) {size : Int} (h₀ : 0 ≤ size) (h₁ : size < 2 ^ 31) :
    ∃ s₂ r, s.freeMapAllocate 1 = .ok (s₂, r) ∧
      (r = none → Core s₂ L hs ds ∧ Frame s s₂ (SpareSectors s) ∧
        s₂.freeMap.bitCnt = s.freeMap.bitCnt ∧ (∀ k, s₂.freeMap.bit k = s.freeMap.bit k) ∧
        (Synced s ds → Synced s₂ ds ∧ ∀ k, k < s.freeMap.bitCnt → s.freeMap.bit k = true)) ∧
      ∀ x, r = some x → s.freeMap.First 0 1 false x ∧ x < s.device.size ∧ ¬ L x ∧
        s.freeMap.bit x = false ∧
        (∀ k, s₂.freeMap.bit k = if x ≤ k ∧ k < x + 1 then true else s.freeMap.bit k) ∧
        ∃ s₃ ok, s₂.inodeCreate x size = .ok (s₃, ok) ∧ Frame s s₃ (SpareSectors s) ∧
          s₂.freeMap.bitCnt = s.freeMap.bitCnt ∧ s₃.freeMap.bitCnt = s.freeMap.bitCnt ∧
          (ok = false → Core s₃ L hs ds ∧ ∀ k, s₃.freeMap.bit k = s₂.freeMap.bit k) ∧
          (ok = true → Core s₃ (fun y => L y ∨ y = x) hs ds ∧ ∃ start, Created s₂ s₃ x size start) ∧
          (Synced s ds → Synced s₃ ds ∧ (ok = false → ∀ j,
            j + bytesToSectors size ≤ s.freeMap.bitCnt → ∃ k, j ≤ k ∧
              k < j + bytesToSectors size ∧ (k = x ∨ s.freeMap.bit k = true))) := by
  obtain ⟨s₂, r, halloc, hframe, hcore, hcnt, hnone, hsome, hsync⟩ := h.freeMapAllocate 1
  obtain ⟨-, -, -, -, -, -, hmapL, -⟩ := h.mapInode
  refine ⟨s₂, r, halloc, fun hr => ⟨hcore, hframe.mono fun b hb => Or.inl hb, hcnt, hnone hr,
    fun hsynced => ⟨(hsync hsynced).1, fun k hk => ?_⟩⟩, fun x hr => ?_⟩
  · by_contra hfree
    refine (hsync hsynced).2 hr k hk fun j h₁ h₂ => ?_
    rw [show j = k by omega]
    exact Bool.eq_false_iff.mpr hfree
  · obtain ⟨hfirst, hbit⟩ := hsome x hr
    have hfree : s.freeMap.bit x = false := hfirst.group x (Nat.le_refl x) (Nat.lt_succ_self x)
    have hnot : ¬ L x := fun hx => by
      rw [h.layout.used x x hx (Or.inl rfl)] at hfree
      cases hfree
    have hlt : x < s.device.size := by
      rw [← h.layout.bitCnt]
      exact hfirst.le
    have hmark : s₂.freeMap.bit x = true := by
      rw [hbit x, if_pos ⟨Nat.le_refl x, Nat.lt_succ_self x⟩]
    have hown : ∀ y, L y → ¬ Owns s₂.device y x := by
      intro y hy hx
      rw [hframe.device.owns_iff (h.layout.not_data hy hmapL)] at hx
      rw [h.layout.used y x hy hx] at hfree
      cases hfree
    obtain ⟨s₃, ok, hcreate, hframe₃, hcnt₃, hfalse, htrue, hsync₃⟩ := hcore.inodeCreate
      (by rw [hframe.device.size]; exact hlt) hmark hown h₀ h₁
    refine ⟨hfirst, hlt, hnot, hfree, hbit, s₃, ok, hcreate, ?_, hcnt, hcnt₃.trans hcnt,
      hfalse, htrue, fun hsynced => ⟨(hsync₃ (hsync hsynced).1).1,
        fun hok j hj => ?_⟩⟩
    · refine (hframe.mono fun b hb => Or.inl hb).trans (hframe₃.mono fun b hb => ?_)
      rcases hb with rfl | hb | hb
      · exact Or.inr hfree
      · unfold DataSector at hb
        rw [hframe.device.diskInode (h.layout.not_data hmapL hmapL)] at hb
        exact Or.inl hb
      · rw [hbit b] at hb
        split at hb
        · cases hb
        · exact Or.inr hb
    · have hgroup := (hsync₃ (hsync hsynced).1).2 hok j (by rw [hcnt]; exact hj)
      unfold Bitmap.Group at hgroup
      push Not at hgroup
      obtain ⟨k, hk₁, hk₂, hk⟩ := hgroup
      rw [hbit k] at hk
      refine ⟨k, hk₁, hk₂, ?_⟩
      split at hk
      · exact Or.inl (by omega)
      · exact Or.inr (by simpa using hk)

/-- What the condition in `filesys_create` leaves: nothing, a marked sector that
nobody owns, or a new file. -/
def CreateIn (s s' : Fs) (L : Nat → Prop) (hs ds : List Nat) (name : Name) (size : Int) (x : Nat)
    (ok : Bool) : Prop :=
  (ok = false ∧ x = 0 ∧ Core s' L hs ds ∧ Tree s' L) ∨
  (ok = false ∧ x ≠ 0 ∧ Core s' L hs ds ∧ Tree s' L ∧ x < s.freeMap.bitCnt ∧
    s.freeMap.bit x = false ∧ s'.freeMap.bit x = true) ∨
  (ok = true ∧ x ≠ 0 ∧ Core s' (fun y => L y ∨ y = x) hs ds ∧ Tree s' (fun y => L y ∨ y = x) ∧
    ∃ start, NewFile s s' ds name size x start)

/-- A file that is not kept after all: its inode was not opened. -/
theorem Core.forget {x : Nat} (hc : Core s L hs ds)
    (hc' : Core s' (fun y => L y ∨ y = x) hs ds) (hopen : s'.openInodes = s.openInodes) :
    Core s' L hs ds := by
  refine hc'.restrict (fun y hy => Or.inl hy) fun j hj => ?_
  rw [hopen] at hj
  exact (hc.backed j hj).1

/-- The root directory with a new entry in the slot `k`, for a file that did not exist. Since
the file is new, no other entry leads to it, so that every file still has one name at most. -/
theorem Core.linkTree (hc : Core s L hs ds) (ht : Tree s L) {name : Name} {x k : Nat} (hx : ¬ L x)
    (hx0 : x ≠ FREE_MAP_SECTOR) (hdir : IsDir s'.device ROOT_DIR_SECTOR ROOT_ENTRIES)
    (hopen : s'.openInodes = s.openInodes)
    (hslot : entry s'.device ROOT_DIR_SECTOR k = some (name, x))
    (hother : ∀ j, j < ROOT_ENTRIES → j ≠ k →
      entry s'.device ROOT_DIR_SECTOR j = entry s.device ROOT_DIR_SECTOR j) :
    Tree s' fun y => L y ∨ y = x := by
  have hused : ∀ y, L y → y ≠ x := fun y hy heq => hx (heq ▸ hy)
  have hlinked : ∀ j p, j < ROOT_ENTRIES → j ≠ k →
      entry s'.device ROOT_DIR_SECTOR j = some p → L p.2 := by
    intro j p hj hne hp
    rw [hother j hj hne] at hp
    exact (ht.linked j p.1 p.2 hj hp).1
  refine ⟨Or.inl ht.root, hdir, fun j name' y hj he => ?_, fun j l p q hj hl hp hq heq => ?_,
    fun j hj hr => ?_⟩
  · by_cases hjk : j = k
    · rw [hjk, hslot] at he
      cases he
      exact ⟨Or.inr rfl, hx0, (hused _ ht.root).symm⟩
    · rw [hother j hj hjk] at he
      obtain ⟨hy, hy0, hy1⟩ := ht.linked j name' y hj he
      exact ⟨Or.inl hy, hy0, hy1⟩
  · by_cases hjk : j = k
    · by_cases hlk : l = k
      · exact hjk.trans hlk.symm
      · have hq' := hlinked l q hl hlk hq
        rw [hjk, hslot] at hp
        cases hp
        exact absurd heq.symm (hused _ hq')
    · by_cases hlk : l = k
      · have hp' := hlinked j p hj hjk hp
        rw [hlk, hslot] at hq
        cases hq
        exact absurd heq (hused _ hp')
      · rw [hother j hj hjk] at hp
        rw [hother l hl hlk] at hq
        exact ht.distinct j l p q hj hl hp hq heq
  · rw [hopen] at hj
    obtain ⟨h0, h1, hnotNamed⟩ := ht.kept j hj hr
    refine ⟨h0, h1, fun l p hl hp => ?_⟩
    by_cases hlk : l = k
    · rw [hlk, hslot] at hp
      cases hp
      exact hused _ (hc.backed j hj).1
    · rw [hother l hl hlk] at hp
      exact hnotNamed l p hl hp

/-- `filesys_create` after `inode_create`: the inode in sector `x` is written, but nothing leads
to it yet. `s` is the state before the allocation of the sector. -/
structure Nameless (s s' : Fs) (L : Nat → Prop) (hs ds : List Nat) (size : Int) (x : Nat) :
    Prop where
  first : s.freeMap.First 0 1 false x
  lt : x < s.freeMap.bitCnt
  fresh : ¬ L x
  free : s.freeMap.bit x = false
  core : Core s' (fun y => L y ∨ y = x) hs ds
  frame : Frame s s' (SpareSectors s)
  bitCnt : s'.freeMap.bitCnt = s.freeMap.bitCnt
  made : ∃ s₂ : Fs, s₂.freeMap.bitCnt = s.freeMap.bitCnt ∧
    (∀ k, s₂.freeMap.bit k = if x ≤ k ∧ k < x + 1 then true else s.freeMap.bit k) ∧
    ∃ start, Created s₂ s' x size start
  synced : Synced s ds → Synced s' ds

section Nameless

variable {s₃ : Fs} {name : Name} {size : Int} {x : Nat}

theorem Nameless.ne_map (h : Nameless s s₃ L hs ds size x) (hc : Core s L hs ds) : x ≠ 0 := by
  obtain ⟨-, -, -, -, -, -, hmapL, -⟩ := hc.mapInode
  exact fun heq => h.fresh (heq ▸ hmapL)

/-- The root directory is as before. -/
theorem Nameless.entry (h : Nameless s s₃ L hs ds size x) (hc : Core s L hs ds) (ht : Tree s L)
    {k : Nat} (hk : k < ROOT_ENTRIES) :
    entry s₃.device ROOT_DIR_SECTOR k = Filesys.entry s.device ROOT_DIR_SECTOR k :=
  entry_same hc.layout h.frame.device ht.root ht.isDir
    (fun _ hb => hc.not_spare ht.root (by decide) hb) hk

theorem Nameless.tree (h : Nameless s s₃ L hs ds size x) (hc : Core s L hs ds) (ht : Tree s L) :
    Tree s₃ fun y => L y ∨ y = x :=
  ht.keep hc.layout h.frame.device (fun _ hb => hc.not_spare ht.root (by decide) hb) h.frame.stable
    fun _ hy _ => Or.inl hy

/-- `dir_add` fails: nothing leads to the inode, and its sector stays marked. -/
theorem Nameless.unlinked (h : Nameless s s₃ L hs ds size x) (hc : Core s L hs ds) (ht : Tree s L)
    {mallocs : List Bool} (hcore : Core { s₃ with mallocs } (fun y => L y ∨ y = x) hs ds)
    (hmallocs : s₃.mallocs = [] → mallocs = []) :
    Frame s { s₃ with mallocs } (CreateSectors s) ∧
      CreateIn s { s₃ with mallocs } L hs ds name size x false ∧
      (Synced s ds → Synced { s₃ with mallocs } ds) := by
  have hframe : Frame s { s₃ with mallocs } (SpareSectors s) :=
    h.frame.trans ⟨rfl, rfl, rfl, Changed.refl _ _⟩
  have htree : Tree { s₃ with mallocs } L := ht.keep hc.layout hframe.device
    (fun _ hb => hc.not_spare ht.root (by decide) hb) hframe.stable fun _ hy _ => hy
  have hmark : s₃.freeMap.bit x = true := h.core.layout.used x x (Or.inr rfl) (Or.inl rfl)
  refine ⟨hframe.mono fun b hb => Or.inr hb, Or.inr (Or.inl ⟨rfl, h.ne_map hc,
    hc.forget hcore hframe.openInodes, htree, h.lt, h.free, hmark⟩), fun hsynced => ?_⟩
  exact (h.synced hsynced).frame h.core (B := fun _ => False) ⟨rfl, rfl, rfl, Changed.refl _ _⟩ rfl
    (hmallocs (h.synced hsynced).mallocs) fun _ _ hf => hf

/-- The root directory is not where the new inode is. -/
theorem Nameless.apart (h : Nameless s s₃ L hs ds size x) (ht : Tree s L) {b : Nat}
    (hb : Owns s₃.device x b) : ¬ DataSector s₃.device ROOT_DIR_SECTOR b := fun hdata =>
  h.core.owns_ne (Or.inr rfl) (Or.inl ht.root) (fun heq => h.fresh (heq ▸ ht.root)) hb
    (Or.inr hdata)

/-- `dir_add` succeeds: the one entry that has changed is that of the new name. What it has
written is the root directory's own data, which belong to no file. -/
theorem Nameless.linked (h : Nameless s s₃ L hs ds size x) (hc : Core s L hs ds) (ht : Tree s L)
    {k : Nat} {e' : Mem} (hcore : Core s' (fun y => L y ∨ y = x) hs ds) (hvalid : ValidName name)
    (hcontent : Entry.content e' = some (name, x))
    (hwrote : Core.Wrote s₃ s' ROOT_DIR_SECTOR ROOT_ENTRIES k e')
    (hnew : s₃.mallocs = [] → Filesys.entry s₃.device ROOT_DIR_SECTOR k = none ∧
      ¬ Present s₃.device ROOT_DIR_SECTOR ROOT_ENTRIES name)
    (hmallocs : s₃.mallocs = [] → s'.mallocs = []) :
    Frame s s' (CreateSectors s) ∧ CreateIn s s' L hs ds name size x true ∧
      (Synced s ds → Synced s' ds) := by
  obtain ⟨-, -, -, -, -, -, hmapL, -⟩ := hc.mapInode
  obtain ⟨s₂, hcnt₂, hbit, start, hcreated⟩ := h.made
  have hslot : Filesys.entry s'.device ROOT_DIR_SECTOR k = some (name, x) :=
    hwrote.entry.trans hcontent
  have hother : ∀ j, j < ROOT_ENTRIES → j ≠ k → Filesys.entry s'.device ROOT_DIR_SECTOR j =
      Filesys.entry s.device ROOT_DIR_SECTOR j :=
    fun j hj hne => (hwrote.other j hj hne).trans (h.entry hc ht hj)
  have hrootData : ∀ b, DataSector s₃.device ROOT_DIR_SECTOR b → CreateSectors s b := by
    intro b hb
    unfold DataSector at hb
    rw [h.frame.device.diskInode (hc.spare_sector ht.root)] at hb
    exact Or.inl hb
  have hinode : diskInode s'.device x = diskInode s₃.device x :=
    hwrote.frame.device.diskInode (h.apart ht (Or.inl rfl))
  have htree : Tree s' fun y => L y ∨ y = x := hc.linkTree ht h.fresh (h.ne_map hc) hwrote.isDir
    (hwrote.frame.openInodes.trans h.frame.openInodes) hslot hother
  refine ⟨(h.frame.mono fun b hb => Or.inr hb).trans (hwrote.frame.mono hrootData),
    Or.inr (Or.inr ⟨rfl, h.ne_map hc, hcore, htree, start, hvalid, h.first,
      ⟨s₂.freeMap, hcnt₂, hbit, hcreated.first, fun b => ?_⟩, ?_, fun b hb => ?_, k, hwrote.lt,
      hslot, hother, fun hsynced => ?_⟩), fun hsynced => ?_⟩
  · rw [hwrote.freeMap, hcreated.bit b]
  · rw [hinode]
    exact hcreated.inode
  · rw [hinode]
    have hlen : b < (diskInode s₃.device x).length.toNat := by
      rw [hcreated.inode]
      exact hb
    rw [h.core.layout.data_eq hwrote.frame.device (Or.inr rfl)
      (fun b hb => h.apart ht (Or.inr hb)) hlen]
    exact hcreated.zero b hb
  · obtain ⟨hnone, habsent⟩ := hnew (h.synced hsynced).mallocs
    refine ⟨(h.entry hc ht hwrote.lt).symm.trans hnone, fun hp => habsent ?_⟩
    obtain ⟨j, hj, y, hy⟩ := hp
    exact ⟨j, hj, y, (h.entry hc ht hj).trans hy⟩
  · refine (h.synced hsynced).frame h.core hwrote.frame hwrote.freeMap
      (hmallocs (h.synced hsynced).mallocs) fun b hb hdata => ?_
    exact h.core.owns_ne (Or.inl hmapL) (Or.inl ht.root) (by decide) hb (Or.inr hdata)

end Nameless

/-- The steps of `filesys_create` between opening the root directory and undoing what failed.
It ends at the first of them that fails, each of which is a case here. -/
theorem Core.createIn (hc : Core s L hs ds) (ht : Tree s L) {i : Inode} (hi : i ∈ s.openInodes)
    (hroot : i.sector = ROOT_DIR_SECTOR) {name : Name} (hname : 0 ∉ name) {size : Int}
    (h₀ : 0 ≤ size) (h₁ : size < 2 ^ 31) (garbage : Mem) : ∃ s' x ok,
      s.createIn name size garbage (some ⟨i.id, 0⟩) = .ok (s', x, ok) ∧
      Frame s s' (CreateSectors s) ∧ s'.freeMap.bitCnt = s.freeMap.bitCnt ∧
      CreateIn s s' L hs ds name size x ok ∧
      (Synced s ds → Synced s' ds ∧
        (i.denyWriteCnt = 0 → ok = false → CreateFails s name size)) := by
  obtain ⟨s₂, r, halloc, hnone, hsome⟩ := hc.newInode h₀ h₁
  have hspare : ∀ b, SpareSectors s b → CreateSectors s b := fun b hb => Or.inr hb
  have hrootSpare : ∀ b, Owns s.device ROOT_DIR_SECTOR b → ¬ SpareSectors s b := fun b hb =>
    hc.not_spare ht.root (by decide) hb
  unfold Fs.createIn
  dsimp only
  rw [halloc, ok_bind]
  cases r with
  | none =>
      -- there is no sector for the inode
      obtain ⟨hcore, hframe, hcnt, -, hsync⟩ := hnone rfl
      have htree : Tree s₂ L := ht.keep hc.layout hframe.device hrootSpare hframe.stable
        fun _ hy _ => hy
      exact ⟨s₂, 0, false, rfl, hframe.mono hspare, hcnt, Or.inl ⟨rfl, rfl, hcore, htree⟩,
        fun hsynced => ⟨(hsync hsynced).1, fun _ _ =>
          Or.inr (Or.inr (Or.inr (Or.inl (hsync hsynced).2)))⟩⟩
  | some x =>
      obtain ⟨hfirst, hlt, hnot, hfree, hbit, s₃, ok, hcreate, hframe, hcnt₂, hcnt, hfalse, htrue,
        hsync⟩ := hsome x rfl
      have hlt' : x < s.freeMap.bitCnt := by
        rw [hc.layout.bitCnt]
        exact hlt
      dsimp only
      rw [hcreate, ok_bind]
      cases ok with
      | false =>
          -- the inode's sector is taken and not given back
          obtain ⟨-, -, -, -, -, -, hmapL, -⟩ := hc.mapInode
          obtain ⟨hcore, hsame⟩ := hfalse rfl
          have hmark : s₃.freeMap.bit x = true := by
            rw [hsame x, hbit x, if_pos ⟨Nat.le_refl x, Nat.lt_succ_self x⟩]
          have htree : Tree s₃ L := ht.keep hc.layout hframe.device hrootSpare hframe.stable
            fun _ hy _ => hy
          exact ⟨s₃, x, false, rfl, hframe.mono hspare, hcnt,
            Or.inr (Or.inl ⟨rfl, fun heq => hnot (heq ▸ hmapL), hcore, htree, hlt', hfree, hmark⟩),
            fun hsynced => ⟨(hsync hsynced).1, fun _ _ => Or.inr (Or.inr (Or.inr (Or.inr
              ⟨x, hfirst, (hsync hsynced).2 rfl⟩)))⟩⟩
      | true =>
          obtain ⟨hcore, start, hcreated⟩ := htrue rfl
          have hnew : Nameless s s₃ L hs ds size x := ⟨hfirst, hlt', hnot, hfree, hcore, hframe,
            hcnt, ⟨s₂, hcnt₂, hbit, start, hcreated⟩, fun hsynced => (hsync hsynced).1⟩
          have hi₃ : i ∈ s₃.openInodes := by
            rw [hframe.openInodes]
            exact hi
          have hdir₃ : IsDir s₃.device i.sector ROOT_ENTRIES := by
            rw [hroot]
            exact (hnew.tree hc ht).isDir
          obtain ⟨s₄, ok, hadd, hcore₄, hok, hfail, hmallocs⟩ := hcore.dirAdd hi₃ hdir₃ hname
            (Nat.lt_trans hlt hc.layout.size_lt) 0 garbage
          rw [hroot] at hok hfail
          dsimp only
          rw [hadd, ok_bind]
          cases ok with
          | false =>
              obtain ⟨⟨mallocs, rfl⟩, hwhy⟩ := hfail rfl
              obtain ⟨hframe₄, hcreate₄, hsync₄⟩ := hnew.unlinked hc ht hcore₄ hmallocs
              refine ⟨_, x, false, rfl, hframe₄, hcnt, hcreate₄, fun hsynced =>
                ⟨hsync₄ hsynced, fun hdeny _ => ?_⟩⟩
              rcases hwhy (hsync hsynced).1.mallocs hdeny with hv | hp | hfull
              · exact Or.inl hv
              · obtain ⟨k, hk, y, hy⟩ := hp
                exact Or.inr (Or.inl ⟨k, hk, y, (hnew.entry hc ht hk).symm.trans hy⟩)
              · exact Or.inr (Or.inr (Or.inl fun k hk hkn =>
                  hfull k hk ((hnew.entry hc ht hk).trans hkn)))
          | true =>
              obtain ⟨hvalid, k, e', hcontent, hwrote, hfresh⟩ := hok rfl
              obtain ⟨hframe₄, hcreate₄, hsync₄⟩ :=
                hnew.linked hc ht hcore₄ hvalid hcontent hwrote hfresh hmallocs
              exact ⟨s₄, x, true, rfl, hframe₄, by rw [hwrote.freeMap, hcnt], hcreate₄,
                fun hsynced => ⟨hsync₄ hsynced, fun _ hf => (by cases hf)⟩⟩

/-- The sector of an inode is not one that creating a file writes to. -/
theorem Core.not_createSectors (hc : Core s L hs ds) (ht : Tree s L) {y : Nat} (hy : L y) :
    ¬ CreateSectors s y := by
  rintro (hdata | hspare)
  · exact hc.layout.not_data hy ht.root hdata
  · exact hc.spare_sector hy hspare

/-- Nobody denies writes to the root directory when it has been opened, if nobody did before. -/
theorem Core.denyWriteCnt_root {s₁ : Fs} {L₁ : Nat → Prop} {hs₁ : List Nat} {R : Nat → Prop}
    (hc : Core s L hs ds) (hc₁ : Core s₁ L₁ hs₁ ds) (hstable : Stable s s₁ R) {i : Inode}
    (hi : i ∈ s₁.openInodes) (hroot : i.sector = ROOT_DIR_SECTOR)
    (hall : ∀ j ∈ s.openInodes, j.sector = ROOT_DIR_SECTOR → j.denyWriteCnt = 0) :
    i.denyWriteCnt = 0 := by
  by_cases hlt : i.id < s.nextId
  · obtain ⟨j, hj, hjid, hjs, -⟩ := hstable.sector i hi hlt
    have hj0 := hall j hj (hjs.trans hroot)
    rw [hc.table.denyWriteCnt j hj, hjid] at hj0
    rw [hc₁.table.denyWriteCnt i hi]
    exact hj0
  · -- the inode has not been open before
    have hnot : i.id ∉ hs := fun hmem => hlt (hc.table.lt_of_mem hmem)
    rw [hc₁.table.denyWriteCnt i hi, List.count_eq_zero_of_not_mem (hc.table.not_deny hnot)]
    rfl

/-- Closing the root directory: it is not removed, so that its sectors stay. -/
theorem Core.closeRoot {id : Nat} (hc : Core s L (id :: hs) ds) (ht : Tree s L)
    (hroot : ∃ i ∈ s.openInodes, i.id = id ∧ i.sector = ROOT_DIR_SECTOR)
    (hdeny : ds.count id ≤ hs.count id) (hmap : ∀ f, s.freeMapFile = some f → f.inode ∈ hs) : ∃ s',
    s.inodeClose (some id) = .ok s' ∧ Core s' L hs ds ∧ Refs s s' (fun _ => False) ∧
      (Synced s ds → Synced s' ds) := by
  obtain ⟨i, hi, hid, hsector⟩ := hroot
  obtain ⟨s', j, hj, hjid, hclose, hcore, hclosed, hsync⟩ := hc.inodeClose hdeny hmap fun _ => False
  obtain ⟨hcore', hrefs⟩ := Core.ClosesTo.refs ⟨j, hj, hjid, hcore, hclosed⟩ fun k hk hkid hgone => by
    rw [eq_of_nodup_map hc.table.ids hk hi (hkid.trans hid.symm)] at hgone
    exact (ht.kept i hi hgone.2).2.1 hsector
  exact ⟨s', hclose, hcore', hrefs, hsync⟩

/-- Taking back a sector that nobody owns. -/
theorem Core.undoCreate (hc : Core s L hs ds) (ht : Tree s L) {x : Nat}
    (hlt : x < s.freeMap.bitCnt) (hmark : s.freeMap.bit x = true)
    (hown : ∀ y, L y → ¬ Owns s.device y x) : ∃ s', s.freeMapRelease x 1 = .ok s' ∧
    Core s' L hs ds ∧ Tree s' L ∧ Frame s s' (DataSector s.device FREE_MAP_SECTOR) ∧
      s'.freeMap.bitCnt = s.freeMap.bitCnt ∧ (Synced s ds → Synced s' ds) := by
  obtain ⟨-, -, -, -, -, -, hmapL, -⟩ := hc.mapInode
  have hx : ∀ k, x ≤ k → k < x + 1 → k = x := fun k h₁ h₂ => by omega
  obtain ⟨s', hrelease, hframe, hcore, hcnt, -, hsync⟩ := @Core.freeMapRelease s L hs ds hc x 1 hlt
    (fun k h₁ h₂ => (hx k h₁ h₂) ▸ hmark) fun y k hy hk hin => hown y hy ((hx k hin.1 hin.2) ▸ hk)
  refine ⟨s', hrelease, hcore, ht.keep hc.layout hframe.device (fun b hb hdata => ?_) hframe.stable
    fun _ hy _ => hy, hframe, hcnt, fun hs => hsync hs.toReady⟩
  exact hc.owns_ne ht.root hmapL (by decide) hb (Or.inr hdata)

/-- What `filesys_create` leaves. -/
structure Creates (s s' : Fs) (L L' : Nat → Prop) (hs ds : List Nat) : Prop where
  core : Core s' L' hs ds
  tree : Tree s' L'
  grows : ∀ y, L y → L' y
  stable : Stable s s' fun _ => False
  freeMapFile : s'.freeMapFile = s.freeMapFile
  bitCnt : s'.freeMap.bitCnt = s.freeMap.bitCnt
  device : Changed s.device s'.device (CreateSectors s)

/-- Opening the root directory before and closing it after do not show in what there is of the new
file. -/
theorem NewFile.between {s₁ s₂ s' : Fs} {R : Nat → Prop} {name : Name} {size : Int} {x start : Nat}
    (hrefs : Refs s s₁ R) (hnew : NewFile s₁ s₂ ds name size x start)
    (hdevice : s'.device = s₂.device) (hmap : s'.freeMap = s₂.freeMap)
    (hsync : Synced s ds → Synced s₁ ds) : NewFile s s' ds name size x start := by
  obtain ⟨hvalid, hfirst, hspace, hinode, hzero, k, hk, hentry, hother, hwas⟩ := hnew
  refine ⟨hvalid, ?_, ?_, ?_, ?_, k, hk, ?_, fun j hj hne => ?_, fun hsynced => ?_⟩
  · rw [← hrefs.freeMap]
    exact hfirst
  · rw [hmap, ← hrefs.freeMap]
    exact hspace
  · rw [hdevice]
    exact hinode
  · rw [hdevice]
    exact hzero
  · rw [hdevice]
    exact hentry
  · rw [hdevice, hother j hj hne, hrefs.device]
  · rw [← hrefs.device]
    exact hwas (hsync hsynced)

/-- The root directory `id`, which was opened in `s₁`, is closed in `s₃`, when the condition has been
evaluated and perhaps undone. It is not removed, so that closing it releases nothing. -/
theorem Core.closeCreated (hc : Core s L hs ds) {s₁ s₃ : Fs} {L₃ : Nat → Prop} {id : Nat} {i : Inode}
    (hrefs : Refs s s₁ fun _ => False) (hi : i ∈ s₁.openInodes) (hid : i.id = id)
    (hroot : i.sector = ROOT_DIR_SECTOR) (hcore : Core s₃ L₃ (id :: hs) ds) (htree : Tree s₃ L₃)
    (hgrows : ∀ y, L y → L₃ y) (hopen : s₃.openInodes = s₁.openInodes)
    (hnext : s₃.nextId = s₁.nextId) (hmap : s₃.freeMapFile = s₁.freeMapFile)
    (hcnt : s₃.freeMap.bitCnt = s.freeMap.bitCnt)
    (hdevice : Changed s.device s₃.device (CreateSectors s)) :
    ∃ s', s₃.inodeClose (some id) = .ok s' ∧ Creates s s' L L₃ hs ds ∧
      s'.device = s₃.device ∧ s'.freeMap = s₃.freeMap ∧ (Synced s₃ ds → Synced s' ds) := by
  have hfile : ∀ f, s₃.freeMapFile = some f → f.inode ∈ hs := fun f hf =>
    hc.mapFile_mem f (by rw [← hrefs.freeMapFile, ← hmap]; exact hf)
  obtain ⟨s', hclose, hcore', hrefs', hsync'⟩ :=
    hcore.closeRoot htree ⟨i, hopen ▸ hi, hid, hroot⟩ (hc.table.deny_le id) hfile
  refine ⟨s', hclose, ⟨hcore', htree.refs hcore.layout hrefs', hgrows, ?_, ?_, ?_, ?_⟩,
    hrefs'.device, hrefs'.freeMap, hsync'⟩
  · exact (hrefs.toStable.trans (Stable.of_eq hopen hnext)).trans hrefs'.toStable
  · rw [hrefs'.freeMapFile, hmap, hrefs.freeMapFile]
  · rw [hrefs'.freeMap, hcnt]
  · rw [hrefs'.device]
    exact hdevice

/-- `filesys_create`. The root directory is opened; the condition is `Core.createIn`, with its
four outcomes; a sector that was allocated is released if the condition is false; and the
directory is closed, which gives the handle back. -/
theorem Core.filesysCreate (hc : Core s L hs ds) (ht : Tree s L) {name : Name} (hname : 0 ∉ name)
    {size : Int} (h₀ : 0 ≤ size) (h₁ : size < 2 ^ 31) (garbage : Mem) (hroom : Room hs 2) :
    ∃ s' ok L', s.filesysCreate name size garbage = .ok (s', ok) ∧ Creates s s' L L' hs ds ∧
      (ok = true → ∃ x start, NewFile s s' ds name size x start ∧ L' = fun y => L y ∨ y = x) ∧
      (Synced s ds → Synced s' ds ∧
        ((∀ i ∈ s.openInodes, i.sector = ROOT_DIR_SECTOR → i.denyWriteCnt = 0) → ok = false →
          CreateFails s name size)) := by
  obtain ⟨s₁, dir, hdir, hrefs₁, hresult, hm₁⟩ := hc.dirOpenRoot ht.root (hroom.mono (Nat.le_succ 1))
  have htree₁ := ht.refs hc.layout hrefs₁
  unfold Fs.filesysCreate
  rw [hdir, ok_bind]
  dsimp only
  rcases hresult with ⟨rfl, hcore₁⟩ | ⟨id, rfl, hcore₁, i, hi, hid, hroot⟩
  · -- no memory for the directory
    refine ⟨s₁, false, L, rfl, ⟨hcore₁, htree₁, fun _ hy => hy, hrefs₁.toStable, hrefs₁.freeMapFile,
      ?_, ?_⟩, fun hf => (by cases hf), fun hsynced => absurd rfl (hm₁ hsynced.mallocs).2⟩
    · rw [hrefs₁.freeMap]
    · rw [hrefs₁.device]
      exact Changed.refl _ _
  · obtain ⟨s₂, x, ok, hcreate, hframe₂, hcnt₂, hkind, hsync₂⟩ := hcore₁.createIn htree₁ hi hroot hname
      h₀ h₁ garbage
    rw [hid] at hcreate
    have hsectors : CreateSectors s₁ = CreateSectors s := by
      unfold CreateSectors
      rw [hrefs₁.device, hrefs₁.freeMap]
    have hdev₂ : Changed s.device s₂.device (CreateSectors s) := by
      have hd := hframe₂.device
      rw [hsectors, hrefs₁.device] at hd
      exact hd
    have hcnt : s₂.freeMap.bitCnt = s.freeMap.bitCnt := by rw [hcnt₂, hrefs₁.freeMap]
    have hsyncOf : Synced s ds → Synced s₂ ds ∧
        (i.denyWriteCnt = 0 → ok = false → CreateFails s name size) := by
      intro hsynced
      obtain ⟨hsynced₂, hfails⟩ := hsync₂ (hrefs₁.synced hsynced (hm₁ hsynced.mallocs).1)
      refine ⟨hsynced₂, fun hd hok => ?_⟩
      have hf := hfails hd hok
      unfold CreateFails at hf
      rw [hrefs₁.device, hrefs₁.freeMap] at hf
      exact hf
    have hdenyRoot := hc.denyWriteCnt_root hcore₁ hrefs₁.toStable hi hroot
    rw [hcreate, ok_bind]
    dsimp only
    unfold Fs.undoCreate Fs.dirClose
    rcases hkind with ⟨rfl, rfl, hcore₂, htree₂⟩ | ⟨rfl, hx0, hcore₂, htree₂, hxlt, hxfree, hxmark⟩ |
      ⟨rfl, hx0, hcore₂, htree₂, start, hnew⟩
    · obtain ⟨s', hclose, hcreates, -, -, hsync'⟩ := hc.closeCreated hrefs₁ hi hid hroot hcore₂
        htree₂ (fun _ hy => hy) hframe₂.openInodes hframe₂.nextId hframe₂.freeMapFile hcnt hdev₂
      rw [if_neg (by simp), ok_bind]
      dsimp only
      rw [hclose, ok_bind]
      exact ⟨s', false, L, rfl, hcreates, fun hf => (by cases hf), fun hsynced =>
        ⟨hsync' (hsyncOf hsynced).1, fun hall hok => (hsyncOf hsynced).2 (hdenyRoot hall) hok⟩⟩
    · -- the sector that was allocated is taken back
      have hown : ∀ y, L y → ¬ Owns s₂.device y x := by
        intro y hy hox
        rw [hdev₂.owns_iff (hc.not_createSectors ht hy)] at hox
        have hused := hc.layout.used y x hy hox
        rw [hrefs₁.freeMap] at hxfree
        rw [hused] at hxfree
        cases hxfree
      obtain ⟨s₃, hrelease, hcore₃, htree₃, hframe₃, hcnt₃, hsync₃⟩ := hcore₂.undoCreate htree₂
        (by rw [hcnt₂]; exact hxlt) hxmark hown
      have hmapData : ∀ b, DataSector s₂.device FREE_MAP_SECTOR b → CreateSectors s b := by
        obtain ⟨-, -, -, -, -, -, hmapL, -⟩ := hc.mapInode
        intro b hb
        unfold DataSector at hb
        rw [hdev₂.diskInode (hc.not_createSectors ht hmapL)] at hb
        exact Or.inr (Or.inl hb)
      obtain ⟨s', hclose, hcreates, -, -, hsync'⟩ := hc.closeCreated hrefs₁ hi hid hroot hcore₃
        htree₃ (fun _ hy => hy) (hframe₃.openInodes.trans hframe₂.openInodes) (hframe₃.nextId.trans hframe₂.nextId)
        (hframe₃.freeMapFile.trans hframe₂.freeMapFile) (hcnt₃.trans hcnt)
        (hdev₂.trans (hframe₃.device.mono hmapData))
      rw [if_pos ⟨by decide, hx0⟩, hrelease, ok_bind]
      dsimp only
      rw [hclose, ok_bind]
      exact ⟨s', false, L, rfl, hcreates, fun hf => (by cases hf), fun hsynced =>
        ⟨hsync' (hsync₃ (hsyncOf hsynced).1), fun hall hok =>
          (hsyncOf hsynced).2 (hdenyRoot hall) hok⟩⟩
    · obtain ⟨s', hclose, hcreates, hdev', hmap', hsync'⟩ := hc.closeCreated hrefs₁ hi hid hroot hcore₂
        htree₂ (fun _ hy => Or.inl hy) hframe₂.openInodes hframe₂.nextId hframe₂.freeMapFile hcnt hdev₂
      rw [if_neg (by simp), ok_bind]
      dsimp only
      rw [hclose, ok_bind]
      have hsync₁ : Synced s ds → Synced s₁ ds := fun hsynced =>
        hrefs₁.synced hsynced (hm₁ hsynced.mallocs).1
      exact ⟨s', true, _, rfl, hcreates,
        fun _ => ⟨x, start, hnew.between hrefs₁ hdev' hmap' hsync₁, rfl⟩, fun hsynced =>
          ⟨hsync' (hsyncOf hsynced).1, fun hall hok => (hsyncOf hsynced).2 (hdenyRoot hall) hok⟩⟩

/-- `filesys_open`. The directory is closed before the file is opened, so that there are never
more than two handles besides the caller's. Where memory does not run out, no file is returned
only for a name that is not in the directory. -/
theorem Core.filesysOpen (hc : Core s L hs ds) (ht : Tree s L) {name : Name} (hname : 0 ∉ name)
    (garbage : Mem) (hroom : Room hs 2) : ∃ s' r, s.filesysOpen name garbage = .ok (s', r) ∧
      Core s' L (r.toList.map File.inode ++ hs) ds ∧ Tree s' L ∧ Refs s s' (fun _ => False) ∧
      (∀ f, r = some f → f = ⟨f.inode, 0, false⟩ ∧ ∃ k, k < ROOT_ENTRIES ∧ ∃ j ∈ s'.openInodes,
        j.id = f.inode ∧ entry s.device ROOT_DIR_SECTOR k = some (name, j.sector)) ∧
      (Synced s ds → Synced s' ds ∧
        (r = none → ¬ Present s.device ROOT_DIR_SECTOR ROOT_ENTRIES name)) := by
  obtain ⟨s₁, dir, hdir, hrefs₁, hresult, hm₁⟩ := hc.dirOpenRoot ht.root (hroom.mono (Nat.le_succ 1))
  have htree₁ := ht.refs hc.layout hrefs₁
  unfold Fs.filesysOpen
  rw [hdir, ok_bind]
  rcases hresult with ⟨rfl, hcore₁⟩ | ⟨id, rfl, hcore₁, i, hi, hid, hroot⟩
  · -- the root directory cannot be opened: `file_open` gets NULL
    obtain ⟨mallocs, hopen, -⟩ := Core.fileOpen_none s₁
    have hrefs₂ : Refs s₁ { s₁ with mallocs } fun _ => False :=
      ⟨Stable.of_eq rfl rfl, rfl, rfl, rfl⟩
    dsimp only
    rw [hopen]
    exact ⟨_, none, rfl, hcore₁.setMallocs mallocs, htree₁.refs hcore₁.layout hrefs₂,
      hrefs₁.trans hrefs₂, fun f hf => (by cases hf), fun hsynced =>
        absurd rfl (hm₁ hsynced.mallocs).2⟩
  · have hdirRoot : IsDir s₁.device i.sector ROOT_ENTRIES := by
      rw [hroot]
      exact htree₁.isDir
    have hnamed : ∀ k name y, k < ROOT_ENTRIES → entry s₁.device i.sector k = some (name, y) → L y := by
      intro k name y hk he
      rw [hroot] at he
      exact (htree₁.linked k name y hk he).1
    obtain ⟨s₂, r, hlookup, hcore₂, hrefs₂, hfound, hm₂⟩ := hcore₁.dirLookup hi hdirRoot hnamed hname 0
      garbage (hroom.cons id) fun _ => False
    rw [hid] at hlookup
    rw [hroot, hrefs₁.device] at hfound hm₂
    have hrefs₁₂ := hrefs₁.trans hrefs₂
    have htree₂ := htree₁.refs hcore₁.layout hrefs₂
    have hcore₂' : Core s₂ L (id :: (r.toList ++ hs)) ds :=
      hcore₂.perm List.perm_middle (List.Perm.refl _)
    obtain ⟨j, hj, hjid, hjs, -⟩ := hcore₁.follow hcore₂' hrefs₂.toStable hi (hid ▸ List.mem_cons_self)
    obtain ⟨s₃, hclose, hcore₃, hrefs₃, hsync₃⟩ := hcore₂'.closeRoot htree₂
      ⟨j, hj, hjid.trans hid, hjs.trans hroot⟩
      (Nat.le_trans (hc.table.deny_le id) (by
        rw [List.count_append]
        exact Nat.le_add_left _ _)) fun f hf => List.mem_append_right _ (hc.mapFile_mem f (by
        rw [← hrefs₁₂.freeMapFile]
        exact hf))
    have htree₃ := htree₂.refs hcore₂'.layout hrefs₃
    have hrefs := hrefs₁₂.trans hrefs₃
    -- the directory is closed again before the file is opened
    have hsyncOf : Synced s ds → Synced s₃ ds ∧
        (r = none → ¬ Present s.device ROOT_DIR_SECTOR ROOT_ENTRIES name) := fun hsynced =>
      ⟨hsync₃ (hrefs₁₂.synced hsynced (hm₂ (hm₁ hsynced.mallocs).1).1),
        (hm₂ (hm₁ hsynced.mallocs).1).2⟩
    dsimp only
    unfold Fs.dirClose
    rw [hlookup, ok_bind]
    dsimp only
    rw [hclose, ok_bind]
    cases r with
    | none =>
        -- there is no such name
        obtain ⟨mallocs, hopen, hm⟩ := Core.fileOpen_none s₃
        have hrefs₄ : Refs s₃ { s₃ with mallocs } fun _ => False :=
          ⟨Stable.of_eq rfl rfl, rfl, rfl, rfl⟩
        rw [hopen]
        exact ⟨_, none, rfl, hcore₃.setMallocs mallocs, htree₃.refs hcore₃.layout hrefs₄,
          hrefs.trans hrefs₄, fun f hf => (by cases hf), fun hsynced =>
            ⟨hrefs₄.synced (hsyncOf hsynced).1 (hm (hsyncOf hsynced).1.mallocs),
              fun _ => (hsyncOf hsynced).2 rfl⟩⟩
    | some inode =>
        obtain ⟨k, hk, l, hl, hlid, hentry, -⟩ := hfound inode rfl
        obtain ⟨s', f, hopen, hkind, hm⟩ := hcore₃.fileOpen (hc.table.deny_le inode)
          (fun f hf => hc.mapFile_mem f (by rw [← hrefs.freeMapFile]; exact hf)) fun _ => False
        obtain ⟨l₃, hl₃, hl₃id, hl₃s, -⟩ := hcore₂'.follow hcore₃ hrefs₃.toStable hl
          (hlid ▸ List.mem_cons_self)
        rw [hopen]
        rcases hkind with ⟨rfl, hcore', hrefs'⟩ | ⟨rfl, hto⟩
        · have hfinal := hrefs.trans hrefs'
          obtain ⟨l', hl', hl'id, hl's, -⟩ := hcore₃.follow hcore' hrefs'.toStable hl₃
            (hl₃id ▸ hlid ▸ List.mem_cons_self)
          refine ⟨s', _, rfl, hcore', htree₃.refs hcore₃.layout hrefs', hfinal, fun f hf => ?_,
            fun hsynced => ⟨hrefs'.synced (hsyncOf hsynced).1 (hm (hsyncOf hsynced).1.mallocs).1,
              fun hf => (by cases hf)⟩⟩
          cases hf
          refine ⟨rfl, k, hk, l', hl', hl'id.trans (hl₃id.trans hlid), ?_⟩
          rw [hl's, hl₃s]
          exact hentry
        · -- a file with a name is not removed
          have hentry₃ : entry s₃.device ROOT_DIR_SECTOR k = some (name, l.sector) := by
            rw [hrefs.device]
            exact hentry
          obtain ⟨hcore', hrefs'⟩ := hto.refs fun m hm' hmid hgone => by
            rw [eq_of_nodup_map hcore₃.table.ids hm' hl₃ (hmid.trans (hl₃id.trans hlid).symm)] at hgone
            exact (htree₃.kept l₃ hl₃ hgone.2).2.2 k _ hk hentry₃ hl₃s
          exact ⟨s', none, rfl, hcore', htree₃.refs hcore₃.layout hrefs', hrefs.trans hrefs',
            fun f hf => (by cases hf), fun hsynced => absurd rfl (hm (hsyncOf hsynced).1.mallocs).2⟩

/-- The root directory after `dir_remove`. -/
theorem Tree.removed {L' : Nat → Prop} {k y : Nat} {name : Name} (ht : Tree s L)
    (hk : k < ROOT_ENTRIES) (hentry : entry s.device ROOT_DIR_SECTOR k = some (name, y))
    (h : Core.Removed s s' L L' hs ds ROOT_DIR_SECTOR ROOT_ENTRIES k y) : Tree s' L' := by
  obtain ⟨hy, hy0, hy1⟩ := ht.linked k name y hk hentry
  have hother : ∀ j p, j < ROOT_ENTRIES → entry s'.device ROOT_DIR_SECTOR j = some p →
      j ≠ k ∧ entry s.device ROOT_DIR_SECTOR j = some p := by
    intro j p hj hp
    by_cases hjk : j = k
    · rw [hjk, h.entry] at hp
      cases hp
    · exact ⟨hjk, (h.other j hj hjk) ▸ hp⟩
  have hne : ∀ j p, j < ROOT_ENTRIES → entry s'.device ROOT_DIR_SECTOR j = some p → p.2 ≠ y := by
    intro j p hj hp heq
    obtain ⟨hjk, hp'⟩ := hother j p hj hp
    exact hjk (ht.distinct j k p _ hj hk hp' hentry heq)
  refine ⟨h.keep _ ht.root hy1.symm, h.isDir, fun j name' z hj he => ?_, fun j l p q hj hl hp hq => ?_,
    fun i hi hr => ?_⟩
  · obtain ⟨hz, hz0, hz1⟩ := ht.linked j name' z hj (hother j _ hj he).2
    exact ⟨h.keep z hz (hne j _ hj he), hz0, hz1⟩
  · exact ht.distinct j l p q hj hl (hother j p hj hp).2 (hother l q hl hq).2
  · rcases h.stable.removed i hi hr with heq | ⟨j, hj, hjr, hjs⟩
    · rw [heq]
      exact ⟨hy0, hy1, fun l p hl hp heq => hne l p hl hp heq.symm⟩
    · obtain ⟨h0, h1, hnot⟩ := ht.kept j hj hjr
      rw [hjs] at h0 h1 hnot
      exact ⟨h0, h1, fun l p hl hp => hnot l p hl (hother l p hl hp).2⟩

/-- `filesys_remove`. Whatever becomes of the entry, the directory is closed again; what
`dir_remove` did to the files is kept by that. -/
theorem Core.filesysRemove (hc : Core s L hs ds) (ht : Tree s L) {name : Name} (hname : 0 ∉ name)
    (garbage : Mem) (hroom : Room hs 2) : ∃ s' ok L', s.filesysRemove name garbage = .ok (s', ok) ∧
      Core s' L' hs ds ∧ Tree s' L' ∧ Stable s s' (fun _ => True) ∧
      s'.freeMapFile = s.freeMapFile ∧ s'.freeMap.bitCnt = s.freeMap.bitCnt ∧
      (Synced s ds → Synced s' ds) := by
  obtain ⟨s₁, dir, hdir, hrefs₁, hresult, hm₁⟩ := hc.dirOpenRoot ht.root (hroom.mono (Nat.le_succ 1))
  have htree₁ := ht.refs hc.layout hrefs₁
  have hany : ∀ {a b : Fs} {R : Nat → Prop}, Stable a b R → Stable a b fun _ => True :=
    fun h => h.mono fun _ _ => trivial
  unfold Fs.filesysRemove
  rw [hdir, ok_bind]
  rcases hresult with ⟨rfl, hcore₁⟩ | ⟨id, rfl, hcore₁, i, hi, hid, hroot⟩
  · exact ⟨s₁, false, L, rfl, hcore₁, htree₁, hany hrefs₁.toStable, hrefs₁.freeMapFile,
      by rw [hrefs₁.freeMap], fun hsynced => absurd rfl (hm₁ hsynced.mallocs).2⟩
  · have hdirRoot : IsDir s₁.device i.sector ROOT_ENTRIES := by
      rw [hroot]
      exact htree₁.isDir
    have hnamed : ∀ k name y, k < ROOT_ENTRIES → entry s₁.device i.sector k = some (name, y) → L y := by
      intro k name y hk he
      rw [hroot] at he
      exact (htree₁.linked k name y hk he).1
    obtain ⟨s₂, ok, hremove, hfail, hok, hsync₂⟩ := hcore₁.dirRemove hi hdirRoot hnamed
      (by rw [hroot]; decide) hname 0 garbage (hroom.cons id)
    rw [hid] at hremove
    rw [hroot] at hok
    -- the directory is closed, whatever became of the entry
    have hfinish : ∀ L₂, Core s₂ L₂ (id :: hs) ds → Tree s₂ L₂ → Stable s₁ s₂ (fun _ => True) →
        s₂.freeMapFile = s₁.freeMapFile → s₂.freeMap.bitCnt = s₁.freeMap.bitCnt →
        ∃ s', s₂.inodeClose (some id) = .ok s' ∧ Core s' L₂ hs ds ∧ Tree s' L₂ ∧
          Stable s s' (fun _ => True) ∧ s'.freeMapFile = s.freeMapFile ∧
          s'.freeMap.bitCnt = s.freeMap.bitCnt ∧ (Synced s₂ ds → Synced s' ds) := by
      intro L₂ hcore₂ htree₂ hstable₂ hmap₂ hcnt₂
      obtain ⟨j, hj, hjid, hjs, -⟩ := hcore₁.follow hcore₂ hstable₂ hi (hid ▸ List.mem_cons_self)
      obtain ⟨s', hclose, hcore', hrefs', hsync'⟩ := hcore₂.closeRoot htree₂
        ⟨j, hj, hjid.trans hid, hjs.trans hroot⟩ (hc.table.deny_le id) fun f hf =>
          hc.mapFile_mem f (by rw [← hrefs₁.freeMapFile, ← hmap₂]; exact hf)
      refine ⟨s', hclose, hcore', htree₂.refs hcore₂.layout hrefs',
        ((hany hrefs₁.toStable).trans hstable₂).trans (hany hrefs'.toStable), ?_, ?_, hsync'⟩
      · rw [hrefs'.freeMapFile, hmap₂, hrefs₁.freeMapFile]
      · rw [hrefs'.freeMap, hcnt₂, hrefs₁.freeMap]
    have hsyncOf : Synced s ds → Synced s₂ ds := fun hsynced =>
      (hsync₂ (hrefs₁.synced hsynced (hm₁ hsynced.mallocs).1)).1
    dsimp only
    unfold Fs.dirClose
    rw [hremove, ok_bind]
    dsimp only
    cases ok with
    | false =>
        obtain ⟨hcore₂, hrefs₂⟩ := hfail rfl
        obtain ⟨s', hclose, hcore', htree', hstable, hmap, hcnt, hsync'⟩ := hfinish L hcore₂
          (htree₁.refs hcore₁.layout hrefs₂) (hany hrefs₂.toStable) hrefs₂.freeMapFile
          (by rw [hrefs₂.freeMap])
        rw [hclose, ok_bind]
        exact ⟨s', false, L, rfl, hcore', htree', hstable, hmap, hcnt, fun hs =>
          hsync' (hsyncOf hs)⟩
    | true =>
        obtain ⟨L', k, y, hk, hentry, hrem⟩ := hok rfl
        obtain ⟨s', hclose, hcore', htree', hstable, hmap, hcnt, hsync'⟩ := hfinish L' hrem.core
          (htree₁.removed hk hentry hrem) (hany hrem.stable) hrem.freeMapFile hrem.bitCnt
        rw [hclose, ok_bind]
        exact ⟨s', true, L', rfl, hcore', htree', hstable, hmap, hcnt, fun hs =>
          hsync' (hsyncOf hs)⟩

end OsTools.Filesys

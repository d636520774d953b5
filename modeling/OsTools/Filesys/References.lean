import Mathlib.Data.List.Perm.Basic
import OsTools.Lib.Run
import OsTools.Filesys.Handles
/-!
# OsTools.Filesys.References

The users of the file system hold references to inodes, files and directories,
and open, reopen and close them in any order. `Users.exec` makes one such call;
that `malloc` may fail at any time is part of the state.

`handles_run_sound` says that in every run the table of open inodes counts the
handles, that no assertion of the calls fails, and that a removed inode's
sectors are released when the last handle on it is closed and at no other time.

## Proof shape

`Good` is the invariant: `Core`, for the handles of all users and the file of the free map as the
lists of references. A call either takes no handle away (`Good.add`) or closes one (`Good.close`),
and each of the thirteen calls is one of the two, with the lemma of `Filesys.Handles` for it;
`Good.step` puts them together. The run lemma is the induction of `Run.invariant`.

A user may also pass the null pointer where the source allows it. That inodes are freed with their
last handle is part of `Sound`, since a freed inode is not in the table, and `Releases` speaks of
the one transition in which a removed inode loses its last handle.

An inode that is open is opened again without memory, so that nothing in the code bounds the number
of handles: `opened_reach` is the run that opens one inode any number of times, by induction, and
`handles_run_overflows` evaluates it where `open_cnt` wraps around.
-/

namespace OsTools.Filesys

open OsTools.Kernel

/-- The file system and the handles of its users. -/
structure Users where
  fs : Fs
  inodes : List Nat
  files : List File
  dirs : List Dir

/-- A call of a user. A number says which of the user's inodes, files or
directories the call is on; where there is none, the pointer is `NULL`. -/
inductive Call
  | inodeOpen (sector : Nat)
  | inodeReopen (k : Nat)
  | inodeRemove (id : Nat)
  | inodeClose (k : Nat)
  | fileOpen (k : Nat)
  | fileReopen (k : Nat)
  | fileClose (k : Nat)
  | fileDenyWrite (k : Nat)
  | fileAllowWrite (k : Nat)
  | dirOpen (k : Nat)
  | dirOpenRoot
  | dirReopen (k : Nat)
  | dirClose (k : Nat)

namespace Users

/-- The inodes that handles are on, one entry for each handle. -/
def handlesOf (map : Option File) (inodes : List Nat) (files : List File) (dirs : List Dir) :
    List Nat :=
  inodes ++ (dirs.map Dir.inode ++ (map.toList ++ files).map File.inode)

/-- The inodes of the files whose `deny_write` flag is set. -/
def deniesOf (map : Option File) (files : List File) : List Nat :=
  ((map.toList ++ files).filter File.denyWrite).map File.inode

/-- The live handles. The file of the free map is one of them. -/
def handles (t : Users) : List Nat := handlesOf t.fs.freeMapFile t.inodes t.files t.dirs

/-- The live files that deny writes. -/
def denies (t : Users) : List Nat := deniesOf t.fs.freeMapFile t.files

/-- One call. The functions that must not be called with `NULL` are not. -/
def exec (t : Users) : Call → Except Stop Users
  | .inodeOpen sector => do
      let (fs, inode) ← t.fs.inodeOpen sector
      .ok { t with fs, inodes := inode.toList ++ t.inodes }
  | .inodeReopen k =>
      match t.inodes[k]? with
      | none => .ok t
      | some id => do
          let fs ← t.fs.inodeReopen (some id)
          .ok { t with fs, inodes := id :: t.inodes }
  | .inodeRemove id => do
      let fs ← t.fs.inodeRemove id
      .ok { t with fs }
  | .inodeClose k => do
      let fs ← t.fs.inodeClose t.inodes[k]?
      .ok { t with fs, inodes := t.inodes.eraseIdx k }
  | .fileOpen k => do
      let (fs, file) ← t.fs.fileOpen t.inodes[k]?
      .ok { t with fs, inodes := t.inodes.eraseIdx k, files := file.toList ++ t.files }
  | .fileReopen k =>
      match t.files[k]? with
      | none => .ok t
      | some f => do
          let (fs, file) ← t.fs.fileReopen f
          .ok { t with fs, files := file.toList ++ t.files }
  | .fileClose k => do
      let fs ← t.fs.fileClose t.files[k]?
      .ok { t with fs, files := t.files.eraseIdx k }
  | .fileDenyWrite k =>
      match t.files[k]? with
      | none => .ok t
      | some f => do
          let (fs, f) ← t.fs.fileDenyWrite f
          .ok { t with fs, files := t.files.set k f }
  | .fileAllowWrite k =>
      match t.files[k]? with
      | none => .ok t
      | some f => do
          let (fs, f) ← t.fs.fileAllowWrite f
          .ok { t with fs, files := t.files.set k f }
  | .dirOpen k => do
      let (fs, dir) ← t.fs.dirOpen t.inodes[k]?
      .ok { t with fs, inodes := t.inodes.eraseIdx k, dirs := dir.toList ++ t.dirs }
  | .dirOpenRoot => do
      let (fs, dir) ← t.fs.dirOpenRoot
      .ok { t with fs, dirs := dir.toList ++ t.dirs }
  | .dirReopen k =>
      match t.dirs[k]? with
      | none => .ok t
      | some d => do
          let (fs, dir) ← t.fs.dirReopen d
          .ok { t with fs, dirs := dir.toList ++ t.dirs }
  | .dirClose k => do
      let fs ← t.fs.dirClose t.dirs[k]?
      .ok { t with fs, dirs := t.dirs.eraseIdx k }

/-- The sectors of the inodes that exist: those of `L₀`, until they are released. -/
def exist (L₀ : Nat → Prop) (t : Users) (x : Nat) : Prop := L₀ x ∧ t.fs.freeMap.bit x = true

/-- An inode is opened in a sector that holds one, and removed through a handle. -/
def Valid (L₀ : Nat → Prop) (t : Users) : Call → Prop
  | .inodeOpen sector => t.exist L₀ sector
  | .inodeRemove id => id ∈ t.handles
  | .dirOpenRoot => t.exist L₀ ROOT_DIR_SECTOR
  | _ => True

/-- A valid call that returns. -/
def Returns (L₀ : Nat → Prop) (t : Users) (c : Call) (t' : Users) : Prop :=
  t.Valid L₀ c ∧ t.exec c = .ok t'

/-- There is room for `k` more handles on every inode. -/
def HasRoom (t : Users) (k : Nat) : Prop := Room t.handles k

/-- A valid call that returns, after which there is room for another handle. -/
def Step (L₀ : Nat → Prop) (t : Users) (c : Call) (t' : Users) : Prop :=
  t.Returns L₀ c t' ∧ t'.HasRoom 1

/-! ### What the table says about the handles -/

/-- The table of open inodes counts the handles. -/
structure Sound (t : Users) : Prop where
  sectors : (t.fs.openInodes.map Inode.sector).Nodup
  openCnt : ∀ i ∈ t.fs.openInodes, i.openCnt = t.handles.count i.id
  denyWriteCnt : ∀ i ∈ t.fs.openInodes, i.denyWriteCnt = t.denies.count i.id
  allocated : ∀ id, (∃ i ∈ t.fs.openInodes, i.id = id) ↔ id ∈ t.handles

/-- The sectors released from `t` to `t'` are those of the removed inodes that lost
their last handle. -/
def Releases (t t' : Users) : Prop :=
  ∀ k, t'.fs.freeMap.bit k = true ↔ t.fs.freeMap.bit k = true ∧
    ¬ ∃ i ∈ t.fs.openInodes, i.id ∉ t'.handles ∧ i.removed = true ∧ Owns t.fs.device i.sector k

/-- After `filesys_init`: only the file of the free map is open. -/
structure Booted (L₀ : Nat → Prop) (t : Users) : Prop where
  layout : Layout t.fs.device t.fs.freeMap L₀
  map : L₀ FREE_MAP_SECTOR
  opened : ∃ id < t.fs.nextId, t.fs.freeMapFile = some ⟨id, 0, false⟩ ∧ t.fs.openInodes =
    [⟨id, FREE_MAP_SECTOR, 1, false, 0, diskInode t.fs.device FREE_MAP_SECTOR⟩]
  unused : t.inodes = [] ∧ t.files = [] ∧ t.dirs = []

/-- The invariant. -/
def Good (L₀ : Nat → Prop) (t : Users) : Prop := Core t.fs (t.exist L₀) t.handles t.denies

/-- What every call keeps; only the inodes in `R` are removed. -/
structure Kept (t t' : Users) (R : Nat → Prop) : Prop where
  stable : Stable t.fs t'.fs R
  freeMapFile : t'.fs.freeMapFile = t.fs.freeMapFile
  device : Changed t.fs.device t'.fs.device (DataSector t.fs.device FREE_MAP_SECTOR)
  bitCnt : t'.fs.freeMap.bitCnt = t.fs.freeMap.bitCnt
  synced : Synced t.fs t.denies →
    (∀ f, t.fs.freeMapFile = some f → f.inode ∉ t'.denies) → Synced t'.fs t'.denies

/-- The inodes that a call may remove. -/
def removes : Call → Nat → Prop
  | .inodeRemove _, _ => True
  | _, _ => False

/-! ### Lists of handles -/

section Lists

variable {m : Option File} {inodes : List Nat} {files : List File} {dirs : List Dir} {k id : Nat}
  {f : File} {d : Dir}

theorem perm_eraseIdx {α : Type} {l : List α} {k : Nat} {a : α} (h : l[k]? = some a) :
    l.Perm (a :: l.eraseIdx k) := by
  obtain ⟨hlt, ha⟩ := List.getElem?_eq_some_iff.mp h
  rw [← ha]
  exact (List.getElem_cons_eraseIdx_perm hlt).symm

theorem handlesOf_inodes (h : inodes[k]? = some id) : (handlesOf m inodes files dirs).Perm
    (id :: handlesOf m (inodes.eraseIdx k) files dirs) :=
  (perm_eraseIdx h).append_right _

theorem handlesOf_consFile : (handlesOf m inodes (f :: files) dirs).Perm
    (f.inode :: handlesOf m inodes files dirs) := by
  unfold handlesOf
  have hfiles : ((m.toList ++ f :: files).map File.inode).Perm
      (f.inode :: (m.toList ++ files).map File.inode) := by
    rw [← List.map_cons]
    exact List.perm_middle.map _
  have hdirs := (hfiles.append_left (dirs.map Dir.inode)).trans List.perm_middle
  exact (hdirs.append_left inodes).trans List.perm_middle

theorem handlesOf_consDir : (handlesOf m inodes files (d :: dirs)).Perm
    (d.inode :: handlesOf m inodes files dirs) := List.perm_middle

theorem handlesOf_files (h : files[k]? = some f) : (handlesOf m inodes files dirs).Perm
    (f.inode :: handlesOf m inodes (files.eraseIdx k) dirs) := by
  refine List.Perm.trans ?_ handlesOf_consFile
  exact ((((perm_eraseIdx h).append_left m.toList).map File.inode).append_left _).append_left _

theorem handlesOf_dirs (h : dirs[k]? = some d) : (handlesOf m inodes files dirs).Perm
    (d.inode :: handlesOf m inodes files (dirs.eraseIdx k)) := by
  refine List.Perm.trans ?_ handlesOf_consDir
  exact (((perm_eraseIdx h).map Dir.inode).append_right _).append_left _

theorem deniesOf_consFile : (deniesOf m (f :: files)).Perm
    (if f.denyWrite then f.inode :: deniesOf m files else deniesOf m files) := by
  unfold deniesOf
  refine ((List.perm_middle.filter _).map _).trans ?_
  cases hf : f.denyWrite with
  | true =>
      rw [List.filter_cons_of_pos hf]
      rfl
  | false =>
      rw [List.filter_cons_of_neg (by rw [hf]; decide)]
      rfl

theorem deniesOf_files (h : files[k]? = some f) : (deniesOf m files).Perm
    (if f.denyWrite then f.inode :: deniesOf m (files.eraseIdx k)
      else deniesOf m (files.eraseIdx k)) := by
  refine List.Perm.trans ?_ deniesOf_consFile
  exact ((((perm_eraseIdx h).append_left m.toList).filter _).map _)

theorem denies_le (m : Option File) (inodes : List Nat) (files : List File) (dirs : List Dir)
    (id : Nat) : (deniesOf m files).count id ≤ (handlesOf m inodes files dirs).count id := by
  have hsub : (deniesOf m files).Sublist (handlesOf m inodes files dirs) :=
    (List.filter_sublist.map _).trans
      ((List.sublist_append_right _ _).trans (List.sublist_append_right _ _))
  exact hsub.count_le id

theorem mapFile_mem {g : File} (h : m = some g) : g.inode ∈ handlesOf m inodes files dirs := by
  unfold handlesOf
  rw [h]
  simp

theorem handlesOf_newFile : (id :: handlesOf m inodes files dirs).Perm
    (handlesOf m inodes (⟨id, 0, false⟩ :: files) dirs) :=
  (@handlesOf_consFile m inodes files dirs ⟨id, 0, false⟩).symm

theorem handlesOf_newDir : (id :: handlesOf m inodes files dirs).Perm
    (handlesOf m inodes files (⟨id, 0⟩ :: dirs)) :=
  (@handlesOf_consDir m inodes files dirs ⟨id, 0⟩).symm

theorem deniesOf_newFile : (deniesOf m files).Perm (deniesOf m (⟨id, 0, false⟩ :: files)) :=
  (@deniesOf_consFile m files ⟨id, 0, false⟩).symm

theorem set_self {α : Type} {l : List α} {k : Nat} {a : α} (h : l[k]? = some a) : l.set k a = l := by
  obtain ⟨hlt, ha⟩ := List.getElem?_eq_some_iff.mp h
  rw [← ha]
  exact List.set_getElem_self hlt

theorem set_files {f' : File} (h : files[k]? = some f) :
    (files.set k f')[k]? = some f' ∧ (files.set k f').eraseIdx k = files.eraseIdx k := by
  obtain ⟨hlt, -⟩ := List.getElem?_eq_some_iff.mp h
  exact ⟨List.getElem?_set_self hlt, List.eraseIdx_set_eq⟩

end Lists

/-! ### One call -/

variable {L₀ : Nat → Prop} {t t' : Users}

theorem Good.mem_handles (h : t.Good L₀) {i : Inode} (hi : i ∈ t.fs.openInodes) :
    i.id ∈ t.handles := List.count_pos_iff.mp (h.table.openCnt i hi).2

theorem Good.sound (h : t.Good L₀) : t.Sound := by
  refine ⟨h.table.sectors, fun i hi => (h.table.openCnt i hi).1, h.table.denyWriteCnt,
    fun id => ⟨fun hid => ?_, h.table.live id⟩⟩
  obtain ⟨i, hi, rfl⟩ := hid
  exact h.mem_handles hi

/-- A call that takes no handle away. -/
theorem Good.add (h : t.Good L₀) {s' : Fs} {inodes : List Nat} {files : List File}
    {dirs : List Dir} {hs ds : List Nat} {R : Nat → Prop} (hcore : Core s' (t.exist L₀) hs ds)
    (hrefs : Refs t.fs s' R) (hm : t.fs.mallocs = [] → s'.mallocs = [])
    (hhs : hs.Perm (handlesOf t.fs.freeMapFile inodes files dirs))
    (hds : ds.Perm (deniesOf t.fs.freeMapFile files)) (hsub : ∀ id ∈ t.handles, id ∈ hs) :
    Good L₀ ⟨s', inodes, files, dirs⟩ ∧ t.Releases ⟨s', inodes, files, dirs⟩ ∧
      t.Kept ⟨s', inodes, files, dirs⟩ R := by
  refine ⟨?_, fun k => ?_, hrefs.toStable, hrefs.freeMapFile, ?_, ?_, fun hsynced hall => ?_⟩
  · unfold Good exist handles denies
    dsimp only
    rw [hrefs.freeMap, hrefs.freeMapFile]
    exact hcore.perm hhs hds
  · rw [hrefs.freeMap]
    refine ⟨fun hk => ⟨hk, fun hgone => ?_⟩, fun hk => hk.1⟩
    obtain ⟨i, hi, hid, -⟩ := hgone
    refine hid ?_
    unfold handles
    dsimp only
    rw [hrefs.freeMapFile]
    exact hhs.mem_iff.mp (hsub _ (h.mem_handles hi))
  · dsimp only
    rw [hrefs.device]
    exact Changed.refl _ _
  · dsimp only
    rw [hrefs.freeMap]
  · exact hrefs.synced (hsynced.of_allowed hall) (hm hsynced.mallocs)

/-- A call that closes a handle on `id`. The count of the inode goes down by one, and if it
was the last handle the inode leaves the list, and its sectors are released if it was removed;
the other handles lead to the same inodes as before. -/
theorem Good.close (h : t.Good L₀) {s' : Fs} {inodes : List Nat} {files : List File}
    {dirs : List Dir} {id : Nat} {hs ds : List Nat} {R : Nat → Prop}
    (hclose : Core.ClosesTo t.fs s' (t.exist L₀) id hs ds R)
    (hsync : Synced t.fs ds → Synced s' ds)
    (hhs : hs.Perm (handlesOf t.fs.freeMapFile inodes files dirs))
    (hds : ds.Perm (deniesOf t.fs.freeMapFile files)) (hsub : ∀ x ∈ t.handles, x = id ∨ x ∈ hs) :
    Good L₀ ⟨s', inodes, files, dirs⟩ ∧ t.Releases ⟨s', inodes, files, dirs⟩ ∧
      t.Kept ⟨s', inodes, files, dirs⟩ R := by
  obtain ⟨i, hi, hid, hcore, hclosed⟩ := hclose
  have hmap := hclosed.freeMapFile
  refine ⟨?_, fun k => ?_, hclosed.stable, hmap, hclosed.device, hclosed.bitCnt,
    fun hsynced hall => ?_⟩
  · unfold Good handles denies
    dsimp only
    rw [hmap]
    refine (hcore.perm hhs hds).restrict (fun y hy => ?_) fun j hj => ?_
    · obtain ⟨hbit, hnot⟩ := (hclosed.bit y).mp hy.2
      exact ⟨⟨hy.1, hbit⟩, fun hg => hnot ⟨hg.1, Or.inl hg.2⟩⟩
    · obtain ⟨hj', -⟩ := hcore.backed j hj
      exact ⟨hj'.1.1, hcore.layout.used j.sector j.sector hj' (Or.inl rfl)⟩
  · unfold handles
    dsimp only
    rw [hmap, hclosed.bit k]
    refine and_congr_right fun _ => not_congr ⟨fun hg => ?_, fun hg => ?_⟩
    · refine ⟨i, hi, fun hmem => ?_, hg.1.2, hg.2⟩
      rw [hid] at hmem
      exact hg.1.1 (hhs.mem_iff.mpr hmem)
    · obtain ⟨j, hj, hjid, hremoved, howns⟩ := hg
      have hnot : j.id ∉ hs := fun hmem => hjid (hhs.mem_iff.mp hmem)
      rcases hsub j.id (h.mem_handles hj) with heq | hmem
      · rw [eq_of_nodup_map h.table.ids hj hi (heq.trans hid.symm)] at hremoved howns hnot
        rw [hid] at hnot
        exact ⟨⟨hnot, hremoved⟩, howns⟩
      · exact absurd hmem hnot
  · have hallowed : ∀ f, t.fs.freeMapFile = some f → f.inode ∉ ds := by
      intro f hf hmem
      refine hall f hf ?_
      unfold denies
      dsimp only
      rw [hmap]
      exact hds.mem_iff.mp hmem
    refine (hsync (hsynced.of_allowed hallowed)).of_allowed fun f hf => hall f ?_
    exact hmap.symm.trans hf

/-- Only the outcomes of `malloc` are used up. -/
theorem Good.stay (h : t.Good L₀) (mallocs : List Bool) (hm : t.fs.mallocs = [] → mallocs = [])
    (R : Nat → Prop) :
    Good L₀ ⟨{ t.fs with mallocs }, t.inodes, t.files, t.dirs⟩ ∧
      t.Releases ⟨{ t.fs with mallocs }, t.inodes, t.files, t.dirs⟩ ∧
      t.Kept ⟨{ t.fs with mallocs }, t.inodes, t.files, t.dirs⟩ R := by
  have hrefs : Refs t.fs { t.fs with mallocs } R := ⟨Stable.of_eq rfl rfl, rfl, rfl, rfl⟩
  exact h.add (Core.setMallocs h mallocs) hrefs hm (List.Perm.refl _) (List.Perm.refl _)
    fun _ hid => hid

/-- What a valid call does. -/
def Fine (L₀ : Nat → Prop) (t : Users) (c : Call) : Prop :=
  ∃ t', t.exec c = .ok t' ∧ t'.Good L₀ ∧ t.Releases t' ∧ t.Kept t' (removes c)

theorem Good.idle (h : t.Good L₀) {c : Call} (hc : t.exec c = .ok t) : t.Fine L₀ c :=
  ⟨t, hc, h.stay t.fs.mallocs (fun hm => hm) _⟩

theorem Good.inodeOpen (h : t.Good L₀) (hroom : t.HasRoom 1) {x : Nat} (hx : t.exist L₀ x) :
    t.Fine L₀ (.inodeOpen x) := by
  obtain ⟨s', r, hopen, hcore, hrefs, -, hm⟩ := Core.inodeOpen h hx hroom fun _ => False
  unfold Fine exec
  dsimp only
  rw [hopen, ok_bind]
  refine ⟨_, rfl, h.add hcore hrefs (fun hnil => (hm hnil).1) ?_ (List.Perm.refl _) fun id hid =>
    List.mem_append_right _ hid⟩
  unfold handles handlesOf
  rw [List.append_assoc]

theorem Good.inodeReopen (h : t.Good L₀) (hroom : t.HasRoom 1) (k : Nat) : t.Fine L₀ (.inodeReopen k) := by
  cases hk : t.inodes[k]? with
  | none => exact h.idle (by unfold exec; dsimp only; rw [hk])
  | some id =>
      have hid : id ∈ t.handles := (handlesOf_inodes hk).mem_iff.mpr List.mem_cons_self
      obtain ⟨s', hreopen, hcore, hrefs, hm⟩ := Core.inodeReopen h hid hroom fun _ => False
      unfold Fine exec
      dsimp only
      rw [hk]
      dsimp only
      rw [hreopen, ok_bind]
      exact ⟨_, rfl, h.add hcore hrefs hm.trans (List.Perm.refl _) (List.Perm.refl _) fun x hx =>
        List.mem_cons_of_mem _ hx⟩

theorem Good.inodeRemove (h : t.Good L₀) {id : Nat} (hid : id ∈ t.handles) :
    t.Fine L₀ (.inodeRemove id) := by
  obtain ⟨i, hi, rfl, -⟩ := Core.inode h hid
  obtain ⟨s', hremove, hcore, hrefs, hm⟩ := Core.inodeRemove h hi
  have hany : Refs t.fs s' fun _ => True :=
    ⟨hrefs.toStable.mono fun _ _ => trivial, hrefs.device, hrefs.freeMap, hrefs.freeMapFile⟩
  unfold Fine exec
  dsimp only
  rw [hremove, ok_bind]
  exact ⟨_, rfl, h.add hcore hany hm.trans (List.Perm.refl _) (List.Perm.refl _) fun x hx => hx⟩

theorem Good.inodeClose (h : t.Good L₀) (k : Nat) : t.Fine L₀ (.inodeClose k) := by
  unfold Fine exec
  dsimp only
  cases hk : t.inodes[k]? with
  | none =>
      rw [List.eraseIdx_of_length_le (List.getElem?_eq_none_iff.mp hk)]
      exact ⟨t, rfl, h.stay t.fs.mallocs (fun hm => hm) _⟩
  | some id =>
      have hperm : t.handles.Perm _ := handlesOf_inodes hk
      obtain ⟨s', i, hi, hid, hclose, hcore, hclosed, hsync⟩ :=
        (Core.perm h hperm (List.Perm.refl _)).inodeClose (denies_le _ _ _ _ id)
          (fun f hf => mapFile_mem hf) fun _ => False
      rw [hclose, ok_bind]
      exact ⟨_, rfl, h.close ⟨i, hi, hid, hcore, hclosed⟩ hsync (List.Perm.refl _) (List.Perm.refl _)
        fun x hx => List.mem_cons.mp (hperm.mem_iff.mp hx)⟩

theorem Good.fileClose (h : t.Good L₀) (k : Nat) : t.Fine L₀ (.fileClose k) := by
  unfold Fine exec
  dsimp only
  cases hk : t.files[k]? with
  | none =>
      rw [List.eraseIdx_of_length_le (List.getElem?_eq_none_iff.mp hk)]
      exact ⟨t, rfl, h.stay t.fs.mallocs (fun hm => hm) _⟩
  | some f =>
      have hperm : t.handles.Perm _ := handlesOf_files hk
      obtain ⟨s', hclose, hto, hsync⟩ := (Core.perm h hperm (deniesOf_files hk)).fileClose
        (denies_le _ _ _ _ f.inode) (fun f hf => mapFile_mem hf) fun _ => False
      rw [hclose, ok_bind]
      exact ⟨_, rfl, h.close hto hsync (List.Perm.refl _) (List.Perm.refl _)
        fun x hx => List.mem_cons.mp (hperm.mem_iff.mp hx)⟩

theorem Good.dirClose (h : t.Good L₀) (k : Nat) : t.Fine L₀ (.dirClose k) := by
  unfold Fine exec
  dsimp only
  cases hk : t.dirs[k]? with
  | none =>
      rw [List.eraseIdx_of_length_le (List.getElem?_eq_none_iff.mp hk)]
      exact ⟨t, rfl, h.stay t.fs.mallocs (fun hm => hm) _⟩
  | some d =>
      have hperm : t.handles.Perm _ := handlesOf_dirs hk
      obtain ⟨s', i, hi, hid, hclose, hcore, hclosed, hsync⟩ :=
        (Core.perm h hperm (List.Perm.refl _)).inodeClose (denies_le _ _ _ _ d.inode)
          (fun f hf => mapFile_mem hf) fun _ => False
      unfold Fs.dirClose
      dsimp only
      rw [hclose, ok_bind]
      exact ⟨_, rfl, h.close ⟨i, hi, hid, hcore, hclosed⟩ hsync (List.Perm.refl _) (List.Perm.refl _)
        fun x hx => List.mem_cons.mp (hperm.mem_iff.mp hx)⟩

theorem Good.fileOpen (h : t.Good L₀) (k : Nat) : t.Fine L₀ (.fileOpen k) := by
  unfold Fine exec
  dsimp only
  cases hk : t.inodes[k]? with
  | none =>
      obtain ⟨mallocs, hopen, hm⟩ := Core.fileOpen_none t.fs
      rw [hopen, ok_bind, List.eraseIdx_of_length_le (List.getElem?_eq_none_iff.mp hk)]
      exact ⟨_, rfl, h.stay mallocs hm _⟩
  | some id =>
      have hperm : t.handles.Perm _ := handlesOf_inodes hk
      obtain ⟨s', r, hopen, hresult, hm⟩ := (Core.perm h hperm (List.Perm.refl _)).fileOpen
        (denies_le _ _ _ _ id) (fun f hf => mapFile_mem hf) fun _ => False
      have hmem := fun x (hx : x ∈ t.handles) => List.mem_cons.mp (hperm.mem_iff.mp hx)
      rw [hopen, ok_bind]
      rcases hresult with ⟨rfl, hcore, hrefs⟩ | ⟨rfl, hto⟩
      · exact ⟨_, rfl, h.add hcore hrefs (fun hnil => (hm hnil).1) handlesOf_newFile deniesOf_newFile
          fun x hx => hperm.mem_iff.mp hx⟩
      · exact ⟨_, rfl, h.close hto (fun hsynced => absurd rfl (hm hsynced.mallocs).2)
          (List.Perm.refl _) (List.Perm.refl _) hmem⟩

theorem Good.dirOpen (h : t.Good L₀) (k : Nat) : t.Fine L₀ (.dirOpen k) := by
  unfold Fine exec
  dsimp only
  cases hk : t.inodes[k]? with
  | none =>
      obtain ⟨mallocs, hopen, hm⟩ := Core.dirOpen_none t.fs
      rw [hopen, ok_bind, List.eraseIdx_of_length_le (List.getElem?_eq_none_iff.mp hk)]
      exact ⟨_, rfl, h.stay mallocs hm _⟩
  | some id =>
      have hperm : t.handles.Perm _ := handlesOf_inodes hk
      obtain ⟨s', r, hopen, hresult, hm⟩ := (Core.perm h hperm (List.Perm.refl _)).dirOpen
        (denies_le _ _ _ _ id) (fun f hf => mapFile_mem hf) fun _ => False
      have hmem := fun x (hx : x ∈ t.handles) => List.mem_cons.mp (hperm.mem_iff.mp hx)
      rw [hopen, ok_bind]
      rcases hresult with ⟨rfl, hcore, hrefs⟩ | ⟨rfl, hto⟩
      · exact ⟨_, rfl, h.add hcore hrefs (fun hnil => (hm hnil).1) handlesOf_newDir (List.Perm.refl _)
          fun x hx => hperm.mem_iff.mp hx⟩
      · exact ⟨_, rfl, h.close hto (fun hsynced => absurd rfl (hm hsynced.mallocs).2)
          (List.Perm.refl _) (List.Perm.refl _) hmem⟩

theorem Good.fileReopen (h : t.Good L₀) (hroom : t.HasRoom 1) (k : Nat) : t.Fine L₀ (.fileReopen k) := by
  cases hk : t.files[k]? with
  | none => exact h.idle (by unfold exec; dsimp only; rw [hk])
  | some f =>
      have hid : f.inode ∈ t.handles := (handlesOf_files hk).mem_iff.mpr List.mem_cons_self
      obtain ⟨s₁, hreopen, hcore₁, hrefs₁, hm₁⟩ := Core.inodeReopen h hid hroom fun _ => False
      obtain ⟨s', r, hopen, hresult, hm⟩ := hcore₁.fileOpen (denies_le _ _ _ _ f.inode)
        (fun f hf => mapFile_mem (hrefs₁.freeMapFile ▸ hf)) fun _ => False
      unfold Fine exec
      dsimp only
      rw [hk]
      unfold Fs.fileReopen
      dsimp only
      rw [hreopen, ok_bind, hopen, ok_bind]
      rcases hresult with ⟨rfl, hcore, hrefs⟩ | ⟨rfl, hto⟩
      · exact ⟨_, rfl, h.add hcore (hrefs₁.trans hrefs)
          (fun hnil => (hm (hm₁.trans hnil)).1) handlesOf_newFile
          deniesOf_newFile fun x hx => List.mem_cons_of_mem _ hx⟩
      · obtain ⟨hcore, hrefs⟩ := hto.refs fun i _ _ hgone => hgone.1 hid
        exact ⟨_, rfl, h.add hcore (hrefs₁.trans hrefs)
          (fun hnil => (hm (hm₁.trans hnil)).1) (List.Perm.refl _) (List.Perm.refl _)
          fun x hx => hx⟩

theorem Good.dirReopen (h : t.Good L₀) (hroom : t.HasRoom 1) (k : Nat) : t.Fine L₀ (.dirReopen k) := by
  cases hk : t.dirs[k]? with
  | none => exact h.idle (by unfold exec; dsimp only; rw [hk])
  | some d =>
      have hid : d.inode ∈ t.handles := (handlesOf_dirs hk).mem_iff.mpr List.mem_cons_self
      obtain ⟨s₁, hreopen, hcore₁, hrefs₁, hm₁⟩ := Core.inodeReopen h hid hroom fun _ => False
      obtain ⟨s', r, hopen, hresult, hm⟩ := hcore₁.dirOpen (denies_le _ _ _ _ d.inode)
        (fun f hf => mapFile_mem (hrefs₁.freeMapFile ▸ hf)) fun _ => False
      unfold Fine exec
      dsimp only
      rw [hk]
      unfold Fs.dirReopen
      dsimp only
      rw [hreopen, ok_bind, hopen, ok_bind]
      rcases hresult with ⟨rfl, hcore, hrefs⟩ | ⟨rfl, hto⟩
      · exact ⟨_, rfl, h.add hcore (hrefs₁.trans hrefs)
          (fun hnil => (hm (hm₁.trans hnil)).1) handlesOf_newDir (List.Perm.refl _)
          fun x hx => List.mem_cons_of_mem _ hx⟩
      · obtain ⟨hcore, hrefs⟩ := hto.refs fun i _ _ hgone => hgone.1 hid
        exact ⟨_, rfl, h.add hcore (hrefs₁.trans hrefs)
          (fun hnil => (hm (hm₁.trans hnil)).1) (List.Perm.refl _) (List.Perm.refl _)
          fun x hx => hx⟩

/-- `file_deny_write`: the count of the inode goes up with the flag of the file, and only if
the flag was clear. -/
theorem Good.fileDenyWrite (h : t.Good L₀) (k : Nat) : t.Fine L₀ (.fileDenyWrite k) := by
  cases hk : t.files[k]? with
  | none => exact h.idle (by unfold exec; dsimp only; rw [hk])
  | some f =>
      have hhs : t.handles.Perm _ := handlesOf_files hk
      have hds : t.denies.Perm _ := deniesOf_files hk
      unfold Fine exec
      dsimp only
      rw [hk]
      unfold Fs.fileDenyWrite
      dsimp only
      cases hf : f.denyWrite with
      | true =>
          rw [if_neg (by decide), ok_bind, set_self hk]
          exact ⟨t, rfl, h.stay t.fs.mallocs (fun hm => hm) _⟩
      | false =>
          rw [hf, if_neg (by decide)] at hds
          have hcore := Core.perm h hhs hds
          have hlt : (deniesOf t.fs.freeMapFile (t.files.eraseIdx k)).count f.inode <
              (f.inode :: handlesOf t.fs.freeMapFile t.inodes (t.files.eraseIdx k) t.dirs).count
                f.inode := by
            rw [List.count_cons_self]
            exact Nat.lt_succ_of_le (denies_le _ _ _ _ _)
          obtain ⟨s', hdeny, hcore', hrefs, hm⟩ := hcore.inodeDenyWrite hlt fun _ => False
          obtain ⟨hget, herase⟩ := @set_files t.files k f { f with denyWrite := true } hk
          have hhs' := @handlesOf_files t.fs.freeMapFile t.inodes _ t.dirs k _ hget
          have hds' := @deniesOf_files t.fs.freeMapFile _ k _ hget
          rw [herase] at hhs' hds'
          rw [if_pos (by decide), hdeny, ok_bind, ok_bind]
          exact ⟨_, rfl, h.add hcore' hrefs hm.trans hhs'.symm hds'.symm fun x hx => hhs.mem_iff.mp hx⟩

/-- `file_allow_write`: the count goes down with the flag. It was at least one, since the file
counts. -/
theorem Good.fileAllowWrite (h : t.Good L₀) (k : Nat) : t.Fine L₀ (.fileAllowWrite k) := by
  cases hk : t.files[k]? with
  | none => exact h.idle (by unfold exec; dsimp only; rw [hk])
  | some f =>
      have hhs : t.handles.Perm _ := handlesOf_files hk
      have hds : t.denies.Perm _ := deniesOf_files hk
      unfold Fine exec
      dsimp only
      rw [hk]
      unfold Fs.fileAllowWrite
      dsimp only
      cases hf : f.denyWrite with
      | false =>
          rw [if_neg (by decide), ok_bind, set_self hk]
          exact ⟨t, rfl, h.stay t.fs.mallocs (fun hm => hm) _⟩
      | true =>
          rw [hf, if_pos rfl] at hds
          have hcore := Core.perm h hhs hds
          obtain ⟨s', hallow, hcore', hrefs, hm⟩ := hcore.inodeAllowWrite fun _ => False
          obtain ⟨hget, herase⟩ := @set_files t.files k f { f with denyWrite := false } hk
          have hhs' := @handlesOf_files t.fs.freeMapFile t.inodes _ t.dirs k _ hget
          have hds' := @deniesOf_files t.fs.freeMapFile _ k _ hget
          rw [herase] at hhs' hds'
          rw [if_pos rfl, hallow, ok_bind, ok_bind]
          exact ⟨_, rfl, h.add hcore' hrefs hm.trans hhs'.symm hds'.symm fun x hx => hhs.mem_iff.mp hx⟩

theorem Good.dirOpenRoot (h : t.Good L₀) (hroom : t.HasRoom 1)
    (hroot : t.exist L₀ ROOT_DIR_SECTOR) : t.Fine L₀ .dirOpenRoot := by
  obtain ⟨s', r, hopen, hrefs, hresult, hm⟩ := Core.dirOpenRoot h hroot hroom
  unfold Fine exec
  dsimp only
  rw [hopen, ok_bind]
  rcases hresult with ⟨rfl, hcore⟩ | ⟨id, rfl, hcore, -⟩
  · exact ⟨_, rfl, h.add hcore hrefs (fun hnil => (hm hnil).1) (List.Perm.refl _)
      (List.Perm.refl _) fun x hx => hx⟩
  · exact ⟨_, rfl, h.add hcore hrefs (fun hnil => (hm hnil).1) handlesOf_newDir (List.Perm.refl _)
      fun x hx => List.mem_cons_of_mem _ hx⟩

/-- Every valid call returns, keeps the invariant and releases what it should. -/
theorem Good.step (h : t.Good L₀) (hroom : t.HasRoom 1) {c : Call} (hc : t.Valid L₀ c) :
    t.Fine L₀ c := by
  cases c with
  | inodeOpen x => exact h.inodeOpen hroom hc
  | inodeReopen k => exact h.inodeReopen hroom k
  | inodeRemove id => exact h.inodeRemove hc
  | inodeClose k => exact h.inodeClose k
  | fileOpen k => exact h.fileOpen k
  | fileReopen k => exact h.fileReopen hroom k
  | fileClose k => exact h.fileClose k
  | fileDenyWrite k => exact h.fileDenyWrite k
  | fileAllowWrite k => exact h.fileAllowWrite k
  | dirOpen k => exact h.dirOpen k
  | dirOpenRoot => exact h.dirOpenRoot hroom hc
  | dirReopen k => exact h.dirReopen hroom k
  | dirClose k => exact h.dirClose k

theorem Booted.handles_eq (h : Booted L₀ t) {f : File} (hmap : t.fs.freeMapFile = some f) :
    t.handles = [f.inode] := by
  obtain ⟨hinodes, hfiles, hdirs⟩ := h.unused
  unfold handles handlesOf
  rw [hinodes, hfiles, hdirs, hmap]
  rfl

theorem Booted.hasRoom (h : Booted L₀ t) : t.HasRoom 1 := by
  obtain ⟨id, -, hmap, -⟩ := h.opened
  unfold HasRoom
  rw [h.handles_eq hmap]
  exact .of_length (by rw [List.length_singleton]; omega)

/-- After boot the one handle is that of the free map's file, and its inode's count is one. -/
theorem Booted.good (h : Booted L₀ t) : t.Good L₀ := by
  obtain ⟨id, hid, hmap, hopen⟩ := h.opened
  obtain ⟨-, hfiles, -⟩ := h.unused
  have hhandles : t.handles = [id] := h.handles_eq hmap
  have hdenies : t.denies = [] := by
    unfold denies deniesOf
    rw [hfiles, hmap]
    rfl
  have hexist : t.exist L₀ = L₀ := by
    funext x
    exact propext ⟨fun hx => hx.1, fun hx => ⟨hx, h.layout.used x x hx (Or.inl rfl)⟩⟩
  unfold Good
  rw [hexist, hhandles, hdenies]
  have hmem : ∀ i ∈ t.fs.openInodes,
      i = ⟨id, FREE_MAP_SECTOR, 1, false, 0, diskInode t.fs.device FREE_MAP_SECTOR⟩ := by
    intro i hi
    rw [hopen] at hi
    exact List.mem_singleton.mp hi
  refine ⟨h.layout, ⟨?_, ?_, fun i hi => ?_, fun i hi => ?_, fun i hi => ?_, fun x hx => ?_,
    fun x => Nat.zero_le _, .of_length (by rw [List.length_singleton]; omega)⟩, fun i hi => ?_,
    ⟨id, 0, false⟩, hmap, List.mem_singleton_self id,
    fun i hi _ => ?_⟩
  · rw [hopen]
    exact List.nodup_singleton id
  · rw [hopen]
    exact List.nodup_singleton _
  · rw [hmem i hi]
    exact hid
  · rw [hmem i hi, List.count_singleton_self]
    exact ⟨rfl, Nat.one_pos⟩
  · rw [hmem i hi]
    rfl
  · rw [List.mem_singleton.mp hx, hopen]
    exact ⟨_, List.mem_singleton_self _, rfl⟩
  · rw [hmem i hi]
    exact ⟨h.map, rfl⟩
  · rw [hmem i hi]

/-- **Handles and open inodes.** In every run of valid calls after boot, whatever
the outcomes of `malloc`, as long as no inode gets more than 2³¹ - 2 handles: there is
one open inode for a sector at most, its counts are the numbers of live handles on it
and of those that deny writes, it is allocated as long as there is a handle on it; each
call releases the sectors of the removed inodes whose last handle it closes, and no
others; and no valid call fails, so that no assertion does. -/
theorem handles_run_sound {ts : List (Transition Users Call)} (hboot : Booted L₀ t)
    (hrun : Run (Step L₀) t ts) :
    (∀ c, t.Valid L₀ c → ∃ t', t.exec c = .ok t') ∧
    ∀ τ ∈ ts, τ.post.Sound ∧ τ.pre.Releases τ.post ∧
      ∀ c, τ.post.Valid L₀ c → ∃ t', τ.post.exec c = .ok t' := by
  have hexec : ∀ s : Users, s.Good L₀ ∧ s.HasRoom 1 → ∀ c, s.Valid L₀ c →
      ∃ t', s.exec c = .ok t' := by
    intro s hs c hc
    obtain ⟨t', hexec, -⟩ := hs.1.step hs.2 hc
    exact ⟨t', hexec⟩
  have hkeep : ∀ s c s', s.Good L₀ ∧ s.HasRoom 1 → Step L₀ s c s' →
      s'.Good L₀ ∧ s.Releases s' := by
    intro s c s' hs hstep
    obtain ⟨t', ht', hgood⟩ := hs.1.step hs.2 hstep.1.1
    cases hstep.1.2.symm.trans ht'
    exact ⟨hgood.1, hgood.2.1⟩
  have hstart := And.intro hboot.good hboot.hasRoom
  have hgood := hrun.invariant (I := fun t => t.Good L₀ ∧ t.HasRoom 1)
    (fun s c s' hs hstep => ⟨(hkeep s c s' hs hstep).1, hstep.2⟩) hstart
  refine ⟨hexec t hstart, fun τ hτ => ?_⟩
  obtain ⟨hpre, hpost⟩ := hgood τ hτ
  exact ⟨hpost.1.sound, (hkeep _ _ _ hpre (hrun.step_of_mem τ hτ)).2, hexec _ hpost⟩

/-- A device on which three inodes without data are stored. -/
def threeInodes : Users where
  fs :=
    { device := ⟨fun _ => 0, 8⟩
      openInodes := [⟨0, 0, 1, false, 0, ⟨0, 0, 0⟩⟩]
      nextId := 1
      freeMap := ⟨8, fun k => if k = 0 then 11 else 0⟩
      freeMapFile := some ⟨0, 0, false⟩
      mallocs := [true, true, false] }
  inodes := []
  files := []
  dirs := []

theorem threeInodes_booted : Booted (fun x => x = 0 ∨ x = 1 ∨ x = 3) threeInodes := by
  have hinode : ∀ x, diskInode threeInodes.fs.device x = ⟨0, 0, 0⟩ := fun x => rfl
  have hdata : ∀ x b, ¬ DataSector threeInodes.fs.device x b := by
    intro x b hb
    unfold DataSector at hb
    rw [hinode, bytesToSectors_zero] at hb
    omega
  have howns : ∀ x b, Owns threeInodes.fs.device x b → b = x := fun x b hb =>
    hb.resolve_right (hdata x b)
  refine ⟨⟨show 8 + 31 < 2 ^ 32 by decide, rfl, fun x hx => ?_, fun x _ => ?_, fun x _ => ?_,
    fun x _ => hdata x x, fun x b hx hb => ?_, fun x y b _ _ hbx hby => ?_⟩, Or.inl rfl,
    ⟨0, by decide, rfl, rfl⟩, rfl, rfl, rfl⟩
  · change x < 8
    omega
  · rw [hinode]
  · rw [hinode, bytesToSectors_zero]
    exact Nat.zero_le _
  · rw [howns x b hb]
    rcases hx with rfl | rfl | rfl <;> rfl
  · exact (howns x b hbx).symm.trans (howns y b hby)

/-- A file is opened, a second handle on it cannot be had, it is removed, and closing
the only handle releases its sector. -/
theorem handles_run_sound_threeInodes : ∃ ts : List (Transition Users Call),
    ts.map Transition.label =
      [.inodeOpen 3, .fileOpen 0, .fileReopen 0, .inodeRemove 1, .fileClose 0] ∧
    ∀ τ ∈ ts, τ.post.Sound ∧ τ.pre.Releases τ.post ∧
      ∀ c, τ.post.Valid (fun x => x = 0 ∨ x = 1 ∨ x = 3) c → ∃ t', τ.post.exec c = .ok t' := by
  refine ⟨[⟨_, .inodeOpen 3, _⟩, ⟨_, .fileOpen 0, _⟩, ⟨_, .fileReopen 0, _⟩,
    ⟨_, .inodeRemove 1, _⟩, ⟨_, .fileClose 0, _⟩], rfl,
    (handles_run_sound threeInodes_booted (.cons ⟨⟨?_, rfl⟩, ?_⟩ (.cons ⟨⟨?_, rfl⟩, ?_⟩
      (.cons ⟨⟨?_, rfl⟩, ?_⟩ (.cons ⟨⟨?_, rfl⟩, ?_⟩ (.cons ⟨⟨?_, rfl⟩, ?_⟩ (.nil _))))))).2⟩
  · exact ⟨Or.inr (Or.inr rfl), rfl⟩
  · exact .of_length (by decide)
  · exact trivial
  · exact .of_length (by decide)
  · exact trivial
  · exact .of_length (by decide)
  · exact List.mem_cons_of_mem 0 List.mem_cons_self
  · exact .of_length (by decide)
  · exact trivial
  · exact .of_length (by decide)

/-! ### Too many handles -/

section Overflow

variable {i : Inode} {rest : List Inode}

/-- The inode `i`, the first of the table, has been opened `n` more times. -/
def opened (t : Users) (i : Inode) (rest : List Inode) (n : Nat) : Users :=
  { t with
    fs := { t.fs with openInodes := { i with openCnt := toInt32 ((n + 1) % 2 ^ 32) } :: rest }
    inodes := List.replicate n i.id ++ t.inodes }

/-- Opening it once more. -/
theorem opened_exec (hrest : ∀ j ∈ rest, j.id ≠ i.id) (n : Nat) :
    (opened t i rest n).exec (.inodeOpen i.sector) = .ok (opened t i rest (n + 1)) := by
  have hmap : ∀ i' : Inode, (rest.map fun j => if j.id = i.id then i' else j) = rest := fun i' =>
    (List.map_congr_left fun j hj => if_neg (hrest j hj)).trans (List.map_id rest)
  unfold exec opened Fs.inodeOpen Fs.inodeReopen Fs.inode Fs.setInode
  simp only [List.find?_cons, decide_true, ok_bind, List.map_cons, if_true, hmap, incInt_wrap]
  rfl

/-- The calls that open it again, one after the other. -/
theorem opened_reach {α : Type} {call : Call → α} {step : Users → α → Users → Prop}
    (hstep : ∀ n t', (opened t i rest n).exec (.inodeOpen i.sector) = .ok t' →
      step (opened t i rest n) (call (.inodeOpen i.sector)) t')
    (hrest : ∀ j ∈ rest, j.id ≠ i.id) (n : Nat) :
    Relation.ReflTransGen (fun a b => ∃ l, step a l b) (opened t i rest 0) (opened t i rest n) := by
  induction n with
  | zero => exact .refl
  | succ n ih => exact ih.tail ⟨_, hstep n _ (opened_exec hrest n)⟩

end Overflow

/-- The inode in sector 3 is opened 2³¹ times, with which its `open_cnt` is no longer the
number of the handles on it. -/
theorem handles_run_overflows : ∃ ts : List (Transition Users Call),
    Run (Returns fun x => x = 0 ∨ x = 1 ∨ x = 3) threeInodes ts ∧
      ∃ τ ∈ ts, ∃ i ∈ τ.post.fs.openInodes, i.openCnt = -2 ^ 31 ∧
        τ.post.handles.count i.id = 2 ^ 31 ∧ ¬ τ.post.Sound := by
  let i : Inode := ⟨1, 3, 1, false, 0, ⟨0, 0, 0⟩⟩
  let rest : List Inode := [⟨0, 0, 1, false, 0, ⟨0, 0, 0⟩⟩]
  let t : Users := ⟨{ threeInodes.fs with
    openInodes := i :: rest, nextId := 2, mallocs := [true, false] }, [1], [], []⟩
  have hrest : ∀ j ∈ rest, j.id ≠ i.id := by decide
  have hvalid : ∀ n, (opened t i rest n).Valid (fun x => x = 0 ∨ x = 1 ∨ x = 3) (.inodeOpen 3) :=
    fun n => ⟨Or.inr (Or.inr rfl), show threeInodes.fs.freeMap.bit 3 = true from rfl⟩
  have hfirst : Returns (fun x => x = 0 ∨ x = 1 ∨ x = 3) threeInodes (.inodeOpen 3)
      (opened t i rest 0) := ⟨⟨Or.inr (Or.inr rfl), rfl⟩, rfl⟩
  have hmore := @opened_reach t i rest Call id (Returns fun x => x = 0 ∨ x = 1 ∨ x = 3)
    (fun n t' h => ⟨hvalid n, h⟩) hrest (2 ^ 31 - 2)
  obtain ⟨ts, hrun, hmem⟩ := Run.exists_mem (.head ⟨_, hfirst⟩ hmore)
    ⟨hvalid _, opened_exec hrest (2 ^ 31 - 2)⟩
  have hcount : (opened t i rest (2 ^ 31 - 2 + 1)).handles.count 1 = 2 ^ 31 := by
    show (List.replicate (2 ^ 31 - 2 + 1) 1 ++ [1] ++ [0]).count 1 = 2 ^ 31
    rw [List.count_append, List.count_append, List.count_replicate_self]
    rfl
  refine ⟨ts, hrun, _, hmem, _, List.mem_cons_self, rfl, hcount, fun hsound => ?_⟩
  have hcnt := hsound.openCnt _ List.mem_cons_self
  rw [show Inode.id _ = 1 from rfl, hcount] at hcnt
  cases hcnt

end Users

end OsTools.Filesys

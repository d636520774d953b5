import OsTools.Filesys.Format
/-!
# OsTools.Filesys.Session

A session on a formatted file system: in any order, the users create, open and
remove files by name, and use the handles that they have on inodes, files and
directories. `malloc` may fail at any time.

Each request keeps the invariant of the file system (`Core`) and of the root
directory (`Tree`). So in every state the sectors of the files that have a name or
are open, of the free map and of the root directory are marked, and to themselves:
`session_sectors_disjoint`.

## Proof shape

`Sane` is the invariant: `Core` for the handles, and `Tree` for the root directory. A request is
either a call on a handle, for which `Filesys.References` has the step lemma (`Sane.call`), or
one of the three operations on names, for which `Filesys.FileOps` has one each. `Sane.step` puts
them together, and `sane_of_run` is the induction over the session.

While it is served, a request holds up to two more handles on an inode than before, for which there
has to be room in an `int`. `Served` asks for it in the state that the request leaves;
`session_overflows` is what happens without.
-/

namespace OsTools.Filesys

open OsTools.Kernel

/-- A request of a user. A number says which of the user's files or directories it
is on. `garbage` is what is in uninitialised local variables. -/
inductive Request
  | call (c : Call)
  | filesysCreate (name : Name) (initialSize : Int) (garbage : Mem)
  | filesysOpen (name : Name) (garbage : Mem)
  | filesysRemove (name : Name) (garbage : Mem)
  | fileRead (k : Nat) (buffer : Mem) (size : Nat)
  | fileWrite (k : Nat) (buffer : Mem) (size : Nat)
  | fileSeek (k newPos : Nat)
  | dirReaddir (k : Nat) (garbage : Mem)

/-- A sector whose inode is the free map's, the root directory's, named or open. -/
def Live (s : Fs) (x : Nat) : Prop :=
  x = FREE_MAP_SECTOR ∨ x = ROOT_DIR_SECTOR ∨
    (∃ k name, k < ROOT_ENTRIES ∧ entry s.device ROOT_DIR_SECTOR k = some (name, x)) ∨
    ∃ i ∈ s.openInodes, i.sector = x

namespace Users

/-- One request. -/
def serve (t : Users) : Request → Except Stop Users
  | .call c => t.exec c
  | .filesysCreate name initialSize garbage => do
      let (fs, _) ← t.fs.filesysCreate name initialSize garbage
      .ok { t with fs }
  | .filesysOpen name garbage => do
      let (fs, file) ← t.fs.filesysOpen name garbage
      .ok { t with fs, files := file.toList ++ t.files }
  | .filesysRemove name garbage => do
      let (fs, _) ← t.fs.filesysRemove name garbage
      .ok { t with fs }
  | .fileRead k buffer size =>
      match t.files[k]? with
      | none => .ok t
      | some f => do
          let (fs, f, _, _) ← t.fs.fileRead f buffer size
          .ok { t with fs, files := t.files.set k f }
  | .fileWrite k buffer size =>
      match t.files[k]? with
      | none => .ok t
      | some f => do
          let (fs, f, _) ← t.fs.fileWrite f buffer size
          .ok { t with fs, files := t.files.set k f }
  | .fileSeek k newPos =>
      match t.files[k]? with
      | none => .ok t
      | some f => .ok { t with files := t.files.set k { f with pos := newPos } }
  | .dirReaddir k garbage =>
      match t.dirs[k]? with
      | none => .ok t
      | some d => do
          let (fs, d, _) ← t.fs.dirReaddir d garbage
          .ok { t with fs, dirs := t.dirs.set k d }

/-- An inode is opened in a sector that holds one, and removed by name only. Names
are C strings, sizes are of type `off_t`. A file that is written to is not the
free map's or the root directory. -/
def Allowed (t : Users) : Request → Prop
  | .call (.inodeOpen sector) => Live t.fs sector
  | .call (.inodeRemove _) => False
  | .filesysCreate name initialSize _ => 0 ∉ name ∧ initialSize < 2 ^ 31
  | .filesysOpen name _ => 0 ∉ name
  | .filesysRemove name _ => 0 ∉ name
  | .fileWrite k _ _ => ∀ f, t.files[k]? = some f → ∀ i ∈ t.fs.openInodes, i.id = f.inode →
      i.sector ≠ FREE_MAP_SECTOR ∧ i.sector ≠ ROOT_DIR_SECTOR
  | _ => True

/-- A request that is allowed and served. -/
def Serves (t : Users) (r : Request) (t' : Users) : Prop := t.Allowed r ∧ t.serve r = .ok t'

/-- A request that is served, after which there is room for the two handles that a request
takes on an inode for a while. -/
def Served (t : Users) (r : Request) (t' : Users) : Prop := t.Serves r t' ∧ t'.HasRoom 2

/-- The invariant of a session; `L` are the sectors of the inodes that exist. -/
structure Sane (L : Nat → Prop) (t : Users) : Prop where
  core : Core t.fs L t.handles t.denies
  tree : Tree t.fs L

/-- What every request keeps. -/
structure Steady (t t' : Users) : Prop where
  stable : Stable t.fs t'.fs fun _ => True
  freeMapFile : t'.fs.freeMapFile = t.fs.freeMapFile
  bitCnt : t'.fs.freeMap.bitCnt = t.fs.freeMap.bitCnt
  synced : Synced t.fs t.denies →
    (∀ f, t.fs.freeMapFile = some f → f.inode ∉ t'.denies) → Synced t'.fs t'.denies

variable {L : Nat → Prop} {t t' : Users}

theorem Sane.live (h : t.Sane L) {x : Nat} (hx : Live t.fs x) : L x := by
  rcases hx with rfl | rfl | ⟨k, name, hk, hentry⟩ | ⟨i, hi, rfl⟩
  · obtain ⟨-, -, -, -, -, -, hmapL, -⟩ := h.core.mapInode
    exact hmapL
  · exact h.tree.root
  · exact (h.tree.linked k name x hk hentry).1
  · exact (h.core.backed i hi).1

/-- The inodes that exist have their sectors marked. -/
theorem Sane.exist_eq (h : t.Sane L) : t.exist L = L := by
  funext x
  exact propext ⟨fun hx => hx.1, fun hx => ⟨hx, h.core.layout.used x x hx (Or.inl rfl)⟩⟩

theorem Sane.good (h : t.Sane L) : t.Good L := by
  unfold Good
  rw [h.exist_eq]
  exact h.core

/-- A session that goes on. -/
def Goes (t : Users) (r : Request) : Prop :=
  ∃ t' L', t.serve r = .ok t' ∧ t'.Sane L' ∧ t.Steady t'

/-- A call on a handle. -/
theorem Sane.call (h : t.Sane L) (hroom : t.HasRoom 2) {c : Call} (hc : t.Allowed (.call c)) :
    t.Goes (.call c) := by
  have hvalid : t.Valid L c := by
    cases c with
    | inodeOpen x =>
        unfold Valid
        rw [h.exist_eq]
        exact h.live hc
    | inodeRemove id => exact False.elim hc
    | dirOpenRoot =>
        unfold Valid
        rw [h.exist_eq]
        exact h.tree.root
    | _ => trivial
  have hnone : ∀ x, ¬ removes c x := by
    cases c with
    | inodeRemove id => exact False.elim hc
    | _ => exact fun x hf => hf
  obtain ⟨t', hexec, hgood, hreleases, hkept⟩ := h.good.step (hroom.mono (Nat.le_succ 1)) hvalid
  have hstable : Stable t.fs t'.fs fun _ => False := hkept.stable.mono hnone
  obtain ⟨-, -, -, -, -, -, hmapL, -⟩ := h.core.mapInode
  refine ⟨t', t'.exist L, hexec, ⟨hgood, ?_⟩, hstable.mono fun _ hf => hf.elim, hkept.freeMapFile,
    hkept.bitCnt, fun hsynced hall => hkept.synced hsynced hall⟩
  refine h.tree.keep h.core.layout hkept.device (fun b hb hdata => ?_) hstable fun y hy hwhy =>
    ⟨hy, (hreleases y).mpr ⟨h.core.layout.used y y hy (Or.inl rfl), fun hgone => ?_⟩⟩
  · exact h.core.owns_ne h.tree.root hmapL (by decide) hb (Or.inr hdata)
  · -- a file with a name is not removed
    obtain ⟨i, hi, -, hremoved, howns⟩ := hgone
    have heq : i.sector = y :=
      h.core.layout.disjoint _ _ y (h.core.backed i hi).1 hy howns (Or.inl rfl)
    obtain ⟨-, hroot, hnamed⟩ := h.tree.kept i hi hremoved
    rcases hwhy with hy | ⟨k, p, hk, hp, hyp⟩
    · exact hroot (heq.trans hy)
    · exact hnamed k p hk hp (heq.trans hyp)

/-- A negative size is refused by an assertion, if it comes to that. -/
theorem filesysCreate_negative {s : Fs} {name : Name} {initialSize : Int} {garbage : Mem}
    {r : Fs × Bool} (hneg : initialSize < 0) (h : s.filesysCreate name initialSize garbage = .ok r) :
    s.filesysCreate name 0 garbage = .ok r := by
  unfold Fs.filesysCreate at h ⊢
  obtain ⟨⟨s₁, dir⟩, hdir, h⟩ := bind_eq_ok h
  rw [hdir, ok_bind]
  obtain ⟨⟨s₂, x, ok⟩, hcreate, h⟩ := bind_eq_ok h
  dsimp only at hcreate ⊢
  have hsame : s₁.createIn name 0 garbage dir = .ok (s₂, x, ok) := by
    unfold Fs.createIn at hcreate ⊢
    cases dir with
    | none => exact hcreate
    | some dir =>
        dsimp only at hcreate ⊢
        obtain ⟨⟨s₃, sector⟩, halloc, hcreate⟩ := bind_eq_ok hcreate
        rw [halloc, ok_bind]
        cases sector with
        | none => exact hcreate
        | some sector =>
            unfold Fs.inodeCreate at hcreate
            dsimp only at hcreate
            rw [if_pos hneg] at hcreate
            cases hcreate
  rw [hsame, ok_bind]
  exact h

theorem Sane.filesysCreate (h : t.Sane L) (hroom : t.HasRoom 2) {name : Name} (hname : 0 ∉ name)
    {initialSize : Int} (h₀ : 0 ≤ initialSize) (h₁ : initialSize < 2 ^ 31) (garbage : Mem) :
    t.Goes (.filesysCreate name initialSize garbage) := by
  obtain ⟨s', ok, L', hcreate, hcreates, -, hsync⟩ :=
    h.core.filesysCreate h.tree hname h₀ h₁ garbage hroom
  have hmap := hcreates.freeMapFile
  have hhandles : handles ⟨s', t.inodes, t.files, t.dirs⟩ = t.handles := by
    unfold handles
    rw [hmap]
  have hdenies : denies ⟨s', t.inodes, t.files, t.dirs⟩ = t.denies := by
    unfold denies
    rw [hmap]
  refine ⟨⟨s', t.inodes, t.files, t.dirs⟩, L', ?_, ⟨?_, hcreates.tree⟩,
    hcreates.stable.mono fun _ hf => hf.elim, hmap, hcreates.bitCnt, fun hsynced _ => ?_⟩
  · unfold serve
    dsimp only
    rw [hcreate, ok_bind]
  · rw [hhandles, hdenies]
    exact hcreates.core
  · rw [hdenies]
    exact (hsync hsynced).1

/-- `filesys_open`: there is one file more, if the name was there and memory did not run
out. -/
theorem Sane.filesysOpen (h : t.Sane L) (hroom : t.HasRoom 2) {name : Name} (hname : 0 ∉ name) (garbage : Mem) :
    t.Goes (.filesysOpen name garbage) := by
  obtain ⟨s', r, hopen, hcore, htree, hrefs, hfile, hsync⟩ :=
    h.core.filesysOpen h.tree hname garbage hroom
  have hmap := hrefs.freeMapFile
  have hhandles : (r.toList.map File.inode ++ t.handles).Perm
      (handles ⟨s', t.inodes, r.toList ++ t.files, t.dirs⟩) := by
    unfold handles
    rw [hmap]
    cases r with
    | none => exact List.Perm.refl _
    | some f => exact handlesOf_consFile.symm
  have hdenies : t.denies.Perm (denies ⟨s', t.inodes, r.toList ++ t.files, t.dirs⟩) := by
    unfold denies
    rw [hmap]
    cases r with
    | none => exact List.Perm.refl _
    | some f =>
        have hdeny : f.denyWrite = false := by rw [(hfile f rfl).1]
        have hcons := @deniesOf_consFile t.fs.freeMapFile t.files f
        rw [hdeny] at hcons
        exact hcons.symm
  refine ⟨⟨s', t.inodes, r.toList ++ t.files, t.dirs⟩, L, ?_, ⟨hcore.perm hhandles hdenies, htree⟩,
    hrefs.toStable.mono fun _ hf => hf.elim, hmap, ?_, fun hsynced hall => ?_⟩
  · unfold serve
    dsimp only
    rw [hopen, ok_bind]
  · dsimp only
    rw [hrefs.freeMap]
  · exact (hsync hsynced).1.of_allowed fun f hf => hall f (hmap.symm.trans hf)

theorem Sane.filesysRemove (h : t.Sane L) (hroom : t.HasRoom 2) {name : Name} (hname : 0 ∉ name) (garbage : Mem) :
    t.Goes (.filesysRemove name garbage) := by
  obtain ⟨s', ok, L', hremove, hcore, htree, hstable, hmap, hcnt, hsync⟩ :=
    h.core.filesysRemove h.tree hname garbage hroom
  have hhandles : handles ⟨s', t.inodes, t.files, t.dirs⟩ = t.handles := by
    unfold handles
    rw [hmap]
  have hdenies : denies ⟨s', t.inodes, t.files, t.dirs⟩ = t.denies := by
    unfold denies
    rw [hmap]
  refine ⟨⟨s', t.inodes, t.files, t.dirs⟩, L', ?_, ⟨?_, htree⟩, hstable, hmap, hcnt,
    fun hsynced _ => ?_⟩
  · unfold serve
    dsimp only
    rw [hremove, ok_bind]
  · rw [hhandles, hdenies]
    exact hcore
  · rw [hdenies]
    exact hsync hsynced

/-! ### Using an open file -/

/-- Moving the position of a file changes no reference. -/
theorem moved_perm {m : Option File} {inodes : List Nat} {files : List File} {dirs : List Dir}
    {k pos : Nat} {f : File} (hk : files[k]? = some f) :
    (handlesOf m inodes files dirs).Perm
        (handlesOf m inodes (files.set k { f with pos }) dirs) ∧
      (deniesOf m files).Perm (deniesOf m (files.set k { f with pos })) := by
  obtain ⟨hget, herase⟩ := @set_files files k f { f with pos } hk
  have hhs := @handlesOf_files m inodes _ dirs k _ hget
  have hds := @deniesOf_files m _ k _ hget
  rw [herase] at hhs hds
  exact ⟨(handlesOf_files hk).trans hhs.symm, (deniesOf_files hk).trans hds.symm⟩

/-- A request that moves the position of a file. -/
theorem goes_of_moved {r : Request} {s' : Fs} {k pos : Nat} {f : File}
    (hk : t.files[k]? = some f)
    (hserve : t.serve r = .ok ⟨s', t.inodes, t.files.set k { f with pos }, t.dirs⟩)
    (hcore : Core s' L t.handles t.denies) (htree : Tree s' L)
    (hstable : Stable t.fs s' fun _ => True) (hmap : s'.freeMapFile = t.fs.freeMapFile)
    (hfree : s'.freeMap = t.fs.freeMap) (hsync : Synced t.fs t.denies → Synced s' t.denies) :
    t.Goes r := by
  obtain ⟨hhs, hds⟩ := @moved_perm t.fs.freeMapFile t.inodes t.files t.dirs k pos f hk
  refine ⟨_, L, hserve, ⟨?_, htree⟩, hstable, hmap, ?_, fun hsynced hall => ?_⟩
  · unfold handles denies
    dsimp only
    rw [hmap]
    exact hcore.perm hhs hds
  · dsimp only
    rw [hfree]
  · exact (hsync hsynced).of_allowed fun f hf => hall f (hmap.symm.trans hf)

/-- The inode of an open file. -/
theorem Sane.fileInode (h : t.Sane L) {k : Nat} {f : File} (hk : t.files[k]? = some f) :
    ∃ i ∈ t.fs.openInodes, i.id = f.inode := by
  have hmem : f.inode ∈ t.handles := (handlesOf_files hk).mem_iff.mpr List.mem_cons_self
  obtain ⟨i, hi, hid, -⟩ := h.core.inode hmem
  exact ⟨i, hi, hid⟩

/-- Only outcomes of `malloc` are used up. -/
theorem Sane.mallocs (h : t.Sane L) (mallocs : List Bool) :
    Core { t.fs with mallocs } L t.handles t.denies ∧ Tree { t.fs with mallocs } L ∧
      Refs t.fs { t.fs with mallocs } fun _ => False := by
  have hrefs : Refs t.fs { t.fs with mallocs } fun _ => False :=
    ⟨Stable.of_eq rfl rfl, rfl, rfl, rfl⟩
  exact ⟨h.core.setMallocs mallocs, h.tree.refs h.core.layout hrefs, hrefs⟩

theorem Sane.fileRead (h : t.Sane L) (k : Nat) (buffer : Mem) (size : Nat) :
    t.Goes (.fileRead k buffer size) := by
  cases hk : t.files[k]? with
  | none =>
      refine ⟨t, L, ?_, h, Stable.of_eq rfl rfl, rfl, rfl, fun hsynced _ => hsynced⟩
      unfold serve
      dsimp only
      rw [hk]
  | some f =>
      obtain ⟨i, hi, hid⟩ := h.fileInode hk
      obtain ⟨n, mallocs, hread, htransfers⟩ := h.core.inodeReadAt hi buffer size f.pos
      obtain ⟨hcore, htree, hrefs⟩ := h.mallocs mallocs
      refine @goes_of_moved L t _ { t.fs with mallocs } k (f.pos + n) f hk ?_ hcore htree
        (hrefs.toStable.mono fun _ hf => hf.elim) rfl rfl fun hsynced =>
          hrefs.synced hsynced (htransfers.all hsynced.mallocs).1
      unfold serve Fs.fileRead
      dsimp only
      rw [hk]
      dsimp only
      rw [← hid, hread, ok_bind, ok_bind]

/-- `file_write` to any file but one on the inode of the free map or of the root directory,
which the caller must not write to: it changes the file's own sectors. -/
theorem Sane.fileWrite (h : t.Sane L) {k : Nat} {buffer : Mem} {size : Nat}
    (hallowed : t.Allowed (.fileWrite k buffer size)) : t.Goes (.fileWrite k buffer size) := by
  cases hk : t.files[k]? with
  | none =>
      refine ⟨t, L, ?_, h, Stable.of_eq rfl rfl, rfl, rfl, fun hsynced _ => hsynced⟩
      unfold serve
      dsimp only
      rw [hk]
  | some f =>
      obtain ⟨i, hi, hid⟩ := h.fileInode hk
      obtain ⟨hnotMap, hnotRoot⟩ := hallowed f hk i hi hid
      have hL := (h.core.backed i hi).1
      obtain ⟨-, -, -, -, -, -, hmapL, -⟩ := h.core.mapInode
      by_cases hdeny : i.denyWriteCnt = 0
      · obtain ⟨n, mallocs, hwrite, hle, htransfers, -⟩ := h.core.inodeWriteAt hi buffer size f.pos
        have hn : n ≤ (diskInode t.fs.device i.sector).length.toNat - f.pos := by
          unfold Fs.transfer at hle
          omega
        have hframe := h.core.wrote_frame hL buffer mallocs hn
        have htree := h.tree.keep h.core.layout hframe.device
          (fun b hb hdata => h.core.owns_ne h.tree.root hL hnotRoot.symm hb (Or.inr hdata))
          hframe.stable fun _ hy _ => hy
        refine @goes_of_moved L t _ _ k (f.pos + n) f hk ?_ (h.core.wrote hL buffer mallocs hn) htree
          hframe.stable rfl rfl fun hsynced => ?_
        · unfold serve Fs.fileWrite
          dsimp only
          rw [hk]
          dsimp only
          rw [← hid, hwrite, ok_bind, ok_bind]
        · exact hsynced.frame h.core hframe rfl ((htransfers hdeny).all hsynced.mallocs).1
            fun b hb hdata => h.core.owns_ne hmapL hL hnotMap.symm hb (Or.inr hdata)
      · have hdenied := Fs.inodeWriteAt_denied (h.core.table.inode hi) hdeny buffer size f.pos
        refine @goes_of_moved L t _ t.fs k (f.pos + 0) f hk ?_ h.core h.tree
          (Stable.of_eq rfl rfl) rfl rfl fun hsynced => hsynced
        unfold serve Fs.fileWrite
        dsimp only
        rw [hk]
        dsimp only
        rw [← hid, hdenied, ok_bind, ok_bind]

theorem Sane.fileSeek (h : t.Sane L) (k newPos : Nat) : t.Goes (.fileSeek k newPos) := by
  cases hk : t.files[k]? with
  | none =>
      refine ⟨t, L, ?_, h, Stable.of_eq rfl rfl, rfl, rfl, fun hsynced _ => hsynced⟩
      unfold serve
      dsimp only
      rw [hk]
  | some f =>
      refine @goes_of_moved L t _ t.fs k newPos f hk ?_ h.core h.tree (Stable.of_eq rfl rfl) rfl rfl
        fun hsynced => hsynced
      unfold serve
      dsimp only
      rw [hk]

/-- The loop of `dir_readdir` on any inode moves the position. -/
theorem readdirLoop_moves {s : Fs} {hs ds : List Nat} (h : Core s L hs ds) {i : Inode}
    (hi : i ∈ s.openInodes) (fuel pos : Nat) (e : Mem) : ∃ mallocs pos' r,
    Fs.readdirLoop fuel s ⟨i.id, pos⟩ e = .ok ({ s with mallocs }, ⟨i.id, pos'⟩, r) ∧
      (s.mallocs = [] → mallocs = []) := by
  induction fuel generalizing s pos e with
  | zero => exact ⟨s.mallocs, pos, none, rfl, fun hm => hm⟩
  | succ fuel ih =>
      obtain ⟨n, mallocs, hread, htransfers⟩ := h.inodeReadAt hi e ENTRY_SIZE pos
      have hnil : s.mallocs = [] → mallocs = [] := fun hm => (htransfers.all hm).1
      unfold Fs.readdirLoop
      dsimp only
      rw [hread, ok_bind]
      dsimp only
      by_cases hn : n = ENTRY_SIZE
      · rw [if_pos hn]
        split
        · exact ⟨mallocs, _, _, rfl, hnil⟩
        · obtain ⟨mallocs', pos', r, hloop, hnil'⟩ := ih (h.setMallocs mallocs) hi _ _
          exact ⟨mallocs', pos', r, hloop, fun hm => hnil' (hnil hm)⟩
      · rw [if_neg hn]
        exact ⟨mallocs, _, _, rfl, hnil⟩

/-- `dir_readdir` reads entries and moves the position of the directory. -/
theorem Sane.dirReaddir (h : t.Sane L) (k : Nat) (garbage : Mem) :
    t.Goes (.dirReaddir k garbage) := by
  cases hk : t.dirs[k]? with
  | none =>
      refine ⟨t, L, ?_, h, Stable.of_eq rfl rfl, rfl, rfl, fun hsynced _ => hsynced⟩
      unfold serve
      dsimp only
      rw [hk]
  | some d =>
      have hmem : d.inode ∈ t.handles := (handlesOf_dirs hk).mem_iff.mpr List.mem_cons_self
      obtain ⟨i, hi, hid, hinode, -⟩ := h.core.inode hmem
      obtain ⟨mallocs, pos, r, hloop, hnil⟩ := readdirLoop_moves h.core hi (Fs.passes i) d.pos garbage
      obtain ⟨hcore, htree, hrefs⟩ := h.mallocs mallocs
      obtain ⟨hlt, hd⟩ := List.getElem?_eq_some_iff.mp hk
      have hdirs : (t.dirs.set k ⟨i.id, pos⟩).map Dir.inode = t.dirs.map Dir.inode := by
        rw [List.map_set]
        refine set_self ?_
        rw [List.getElem?_map, hk, hid]
        rfl
      have hhandles : handles ⟨{ t.fs with mallocs }, t.inodes, t.files,
          t.dirs.set k ⟨i.id, pos⟩⟩ = t.handles := by
        unfold handles handlesOf
        dsimp only
        rw [hdirs]
      refine ⟨⟨{ t.fs with mallocs }, t.inodes, t.files, t.dirs.set k ⟨i.id, pos⟩⟩, L, ?_,
        ⟨?_, htree⟩, hrefs.toStable.mono fun _ hf => hf.elim, rfl, rfl,
        fun hsynced _ => hrefs.synced hsynced (hnil hsynced.mallocs)⟩
      · unfold serve Fs.dirReaddir
        dsimp only
        rw [hk]
        dsimp only
        rw [hinode, ok_bind]
        rw [hid] at hloop ⊢
        rw [hloop, ok_bind]
      · rw [hhandles]
        exact hcore

/-! ### Runs -/

/-- Sizes are not negative: `inode_create` asserts that. -/
def Promised : Request → Prop
  | .filesysCreate _ initialSize _ => 0 ≤ initialSize
  | _ => True

/-- Every request is served and keeps the invariant. -/
theorem Sane.goes (h : t.Sane L) (hroom : t.HasRoom 2) {r : Request} (hr : t.Allowed r) (hp : Promised r) :
    t.Goes r := by
  cases r with
  | call c => exact h.call hroom hr
  | filesysCreate name initialSize garbage => exact h.filesysCreate hroom hr.1 hp hr.2 garbage
  | filesysOpen name garbage => exact h.filesysOpen hroom hr garbage
  | filesysRemove name garbage => exact h.filesysRemove hroom hr garbage
  | fileRead k buffer size => exact h.fileRead k buffer size
  | fileWrite k buffer size => exact h.fileWrite hr
  | fileSeek k newPos => exact h.fileSeek k newPos
  | dirReaddir k garbage => exact h.dirReaddir k garbage

/-- A request that is served keeps the invariant, whatever its size. -/
theorem Sane.step (h : t.Sane L) (hroom : t.HasRoom 2) {r : Request} (hr : t.Serves r t') :
    ∃ L', t'.Sane L' ∧ t.Steady t' := by
  have hgoes : ∀ r', t.Allowed r' → Promised r' → t.serve r' = .ok t' →
      ∃ L', t'.Sane L' ∧ t.Steady t' := by
    intro r' hr' hp hserve
    obtain ⟨t'', L', hserve', hsane, hsteady⟩ := h.goes hroom hr' hp
    cases hserve.symm.trans hserve'
    exact ⟨L', hsane, hsteady⟩
  by_cases hp : Promised r
  · exact hgoes r hr.1 hp hr.2
  · cases r with
    | filesysCreate name initialSize garbage =>
        have hneg : initialSize < 0 := Int.not_le.mp hp
        obtain ⟨⟨s', ok⟩, hcreate, hserve⟩ := bind_eq_ok hr.2
        refine hgoes (.filesysCreate name 0 garbage) ⟨hr.1.1, by decide⟩ (Int.le_refl 0) ?_
        unfold serve
        dsimp only
        rw [filesysCreate_negative hneg hcreate, ok_bind]
        exact hserve
    | _ => exact absurd trivial hp

/-- The sectors of the inodes that are named or open, of the free map and of the
root directory: they are marked, and none belongs to two of them. Every handle is on an
open inode. -/
structure SectorsApart (t : Users) : Prop where
  marked : ∀ x b, Live t.fs x → Owns t.fs.device x b → t.fs.freeMap.bit b = true
  disjoint : ∀ x y b, Live t.fs x → Live t.fs y → Owns t.fs.device x b → Owns t.fs.device y b → x = y
  opened : ∀ i ∈ t.fs.openInodes, i.data = diskInode t.fs.device i.sector
  held : ∀ id ∈ t.handles, ∃ i ∈ t.fs.openInodes, i.id = id

theorem Sane.sectorsApart (h : t.Sane L) : t.SectorsApart :=
  ⟨fun x b hx hb => h.core.layout.used x b (h.live hx) hb,
    fun x y b hx hy hbx hby => h.core.layout.disjoint x y b (h.live hx) (h.live hy) hbx hby,
    fun i hi => (h.core.backed i hi).2, h.core.table.live⟩

/-- A session begins on a formatted file system; `mallocs` are the outcomes of the
calls of `malloc` to come. -/
def start (s : Fs) (mallocs : List Bool) : Users := ⟨{ s with mallocs }, [], [], []⟩

/-- The file of the free map is the only one that is open. -/
theorem start_handles {s : Fs} (h : Formatted s) (mallocs : List Bool) : ∃ id,
    (start s mallocs).handles = [id] ∧ (start s mallocs).denies = [] ∧
      Core s (fun y => y = FREE_MAP_SECTOR ∨ y = ROOT_DIR_SECTOR) [id] [] := by
  obtain ⟨id, hopened, hcore⟩ := h.core
  refine ⟨id, ?_, ?_, hcore⟩
  · unfold start handles handlesOf
    dsimp only
    rw [hopened.freeMapFile]
    rfl
  · unfold start denies deniesOf
    dsimp only
    rw [hopened.freeMapFile]
    rfl

theorem start_sane {s : Fs} (h : Formatted s) (mallocs : List Bool) :
    (start s mallocs).Sane fun y => y = FREE_MAP_SECTOR ∨ y = ROOT_DIR_SECTOR := by
  obtain ⟨id, hhandles, hdenies, hcore⟩ := start_handles h mallocs
  refine ⟨?_, h.tree.refs h.layout ⟨Stable.of_eq rfl rfl, rfl, rfl, rfl⟩⟩
  rw [hhandles, hdenies]
  exact hcore.setMallocs mallocs

theorem start_hasRoom {s : Fs} (h : Formatted s) (mallocs : List Bool) :
    (start s mallocs).HasRoom 2 := by
  obtain ⟨id, hhandles, -⟩ := start_handles h mallocs
  unfold HasRoom
  rw [hhandles]
  exact .of_length (by rw [List.length_singleton]; omega)

/-- Every state of a session. -/
theorem sane_of_run {s : Fs} {mallocs : List Bool} {ts : List (Transition Users Request)}
    (hformatted : Formatted s) (hrun : Run Served (start s mallocs) ts) :
    ∀ τ ∈ ts, (∃ L, τ.post.Sane L) ∧ τ.post.HasRoom 2 := by
  have hall := hrun.invariant (I := fun t => (∃ L, t.Sane L) ∧ t.HasRoom 2)
    (fun t r t' ht hstep => by
      obtain ⟨⟨L, hL⟩, hroom⟩ := ht
      obtain ⟨L', hL', -⟩ := hL.step hroom hstep.1
      exact ⟨⟨L', hL'⟩, hstep.2⟩)
    ⟨⟨_, start_sane hformatted mallocs⟩, start_hasRoom hformatted mallocs⟩
  exact fun τ hτ => (hall τ hτ).2

/-- **Sectors are not shared.** From formatting on, whatever is created, opened,
closed and removed in which order and whichever calls of `malloc` fail, as long as no
inode gets 2³¹ - 2 handles: the sectors of the files that have a name or are still open,
of the free map and of the root directory are marked, and no sector belongs to two of
them. Every request whose size is not negative is served. -/
theorem session_sectors_disjoint {device : Block} {garbage : Mem} {s : Fs} {mallocs : List Bool}
    {ts : List (Transition Users Request)} (hsize : device.size < 2 ^ 32)
    (hformat : Fs.filesysInit device true garbage = .ok s)
    (hrun : Run Served (start s mallocs) ts) :
    (start s mallocs).SectorsApart ∧
      ∀ τ ∈ ts, τ.post.SectorsApart ∧
        ∀ r, τ.post.Allowed r → Promised r → ∃ t', τ.post.serve r = .ok t' := by
  have hformatted := (Fs.formatted_of_init hsize hformat).1
  refine ⟨(start_sane hformatted mallocs).sectorsApart, fun τ hτ => ?_⟩
  obtain ⟨⟨L, hL⟩, hroom⟩ := sane_of_run hformatted hrun τ hτ
  refine ⟨hL.sectorsApart, fun r hr hp => ?_⟩
  obtain ⟨t', -, hserve, -⟩ := hL.goes hroom hr hp
  exact ⟨t', hserve⟩

theorem zero_not_mem {c : UInt8} (hc : c ≠ 0) : 0 ∉ ([c] : Name) :=
  fun h => hc (List.mem_singleton.mp h).symm

/-- A device of 8 sectors. -/
def blankDevice : Block := ⟨fun _ => 0, 8⟩

set_option synthInstance.maxHeartbeats 400000 in
set_option synthInstance.maxSize 1000 in
/-- The file `a` is created, opened and removed, and while it is still open the file `b` is
created: `a` has sector 4 and its data sector 5, and `b` gets sectors 6 and 7. -/
theorem session_sectors_disjoint_blankDevice : ∃ s t₁ t₂ t₃ t₄,
    Fs.filesysInit blankDevice true (fun _ => 0) = .ok s ∧
      (start s []).serve (.filesysCreate [97] 100 fun _ => 0) = .ok t₁ ∧
      t₁.serve (.filesysOpen [97] fun _ => 0) = .ok t₂ ∧
      t₂.serve (.filesysRemove [97] fun _ => 0) = .ok t₃ ∧
      t₃.serve (.filesysCreate [98] 100 fun _ => 0) = .ok t₄ ∧
      (t₄.fs.openInodes.map Inode.sector = [4, 0] ∧
        entry t₄.fs.device ROOT_DIR_SECTOR 0 = some ([98], 6) ∧
        diskInode t₄.fs.device 4 = ⟨5, 100, INODE_MAGIC⟩ ∧
        diskInode t₄.fs.device 6 = ⟨7, 100, INODE_MAGIC⟩) ∧
      t₄.SectorsApart := by
  have hruns : ∃ s, Fs.filesysInit blankDevice true (fun _ => 0) = .ok s ∧
      ∃ t₁, (start s []).serve (.filesysCreate [97] 100 fun _ => 0) = .ok t₁ ∧
      ∃ t₂, t₁.serve (.filesysOpen [97] fun _ => 0) = .ok t₂ ∧
      ∃ t₃, t₂.serve (.filesysRemove [97] fun _ => 0) = .ok t₃ ∧
      ∃ t₄, t₃.serve (.filesysCreate [98] 100 fun _ => 0) = .ok t₄ ∧
      (t₁.handles.length ≤ 8 ∧ t₂.handles.length ≤ 8 ∧ t₃.handles.length ≤ 8 ∧
        t₄.handles.length ≤ 8) ∧
      t₄.fs.openInodes.map Inode.sector = [4, 0] ∧
        entry t₄.fs.device ROOT_DIR_SECTOR 0 = some ([98], 6) ∧
        diskInode t₄.fs.device 4 = ⟨5, 100, INODE_MAGIC⟩ ∧
        diskInode t₄.fs.device 6 = ⟨7, 100, INODE_MAGIC⟩ := by
    decide +kernel
  obtain ⟨s, hs, t₁, h₁, t₂, h₂, t₃, h₃, t₄, h₄, ⟨hl₁, hl₂, hl₃, hl₄⟩, hfacts⟩ := hruns
  have hrun : Run Served (start s []) [⟨_, .filesysCreate [97] 100 fun _ => 0, t₁⟩,
      ⟨_, .filesysOpen [97] fun _ => 0, t₂⟩, ⟨_, .filesysRemove [97] fun _ => 0, t₃⟩,
      ⟨_, .filesysCreate [98] 100 fun _ => 0, t₄⟩] :=
    .cons ⟨⟨⟨zero_not_mem (by decide), by decide⟩, h₁⟩, .of_length (by omega)⟩
      (.cons ⟨⟨zero_not_mem (by decide), h₂⟩, .of_length (by omega)⟩
        (.cons ⟨⟨zero_not_mem (by decide), h₃⟩, .of_length (by omega)⟩
          (.cons ⟨⟨⟨zero_not_mem (by decide), by decide⟩, h₄⟩, .of_length (by omega)⟩ (.nil t₄))))
  have hapart := (session_sectors_disjoint (by decide) hs hrun).2
    ⟨t₃, .filesysCreate [98] 100 fun _ => 0, t₄⟩
    (List.mem_cons_of_mem _ (List.mem_cons_of_mem _ (List.mem_cons_of_mem _ List.mem_cons_self)))
  exact ⟨s, t₁, t₂, t₃, t₄, hs, h₁, h₂, h₃, h₄, hfacts, hapart.1⟩

set_option synthInstance.maxHeartbeats 400000 in
set_option synthInstance.maxSize 1000 in
/-- The file `a` is created, opened, removed and opened 2³² more times, so that its
`open_cnt` is 1 again. The first `inode_close` then releases its sectors, with 2³² handles
on it. -/
theorem session_overflows : ∃ s ts, Fs.filesysInit blankDevice true (fun _ => 0) = .ok s ∧
    Run Serves (start s []) ts ∧ ∃ τ ∈ ts, τ.label = .call (.inodeClose 0) ∧
      ¬ τ.post.SectorsApart := by
  have hruns : ∃ s, Fs.filesysInit blankDevice true (fun _ => 0) = .ok s ∧
      ∃ t₁, (start s []).serve (.filesysCreate [97] 100 fun _ => 0) = .ok t₁ ∧
      ∃ t₂, t₁.serve (.call (.inodeOpen 4)) = .ok t₂ ∧
      ∃ t₃, t₂.serve (.filesysRemove [97] fun _ => 0) = .ok t₃ ∧
      ∃ s₄, t₃.fs.inodeClose (some 3) = .ok s₄ ∧
        entry t₁.fs.device ROOT_DIR_SECTOR 0 = some ([97], 4) ∧
        (t₃.fs.openInodes.map fun i => (i.id, i.sector, i.openCnt)) = [(3, 4, 1), (1, 0, 1)] ∧
        t₃.inodes = [3] ∧ s₄.openInodes.map Inode.id = [1] := by
    decide +kernel
  obtain ⟨s, hs, t₁, h₁, t₂, h₂, t₃, h₃, s₄, hclose, hentry, hopen, hinodes, hids⟩ := hruns
  -- the table of open inodes after the removal
  have htable : ∃ i j, t₃.fs.openInodes = [i, j] ∧ (i.id, i.sector, i.openCnt) = (3, 4, 1) ∧
      (j.id, j.sector, j.openCnt) = (1, 0, 1) := by
    obtain ⟨i, l, hl, hi, hopen⟩ := List.map_eq_cons_iff.mp hopen
    obtain ⟨j, l', hl', hj, hopen⟩ := List.map_eq_cons_iff.mp hopen
    rw [hl, hl', List.map_eq_nil_iff.mp hopen]
    exact ⟨i, j, rfl, hi, hj⟩
  obtain ⟨⟨id, sector, cnt, removed, deny, data⟩, j, htable, hi, hj⟩ := htable
  cases hi
  have hrest : ∀ j' ∈ [j], j'.id ≠ 3 := by
    intro j' hj'
    have hone : j.id = 1 := congrArg Prod.fst hj
    rw [List.mem_singleton.mp hj', hone]
    decide
  let i : Inode := ⟨3, 4, 1, removed, deny, data⟩
  have hzero : opened t₃ i [j] 0 = t₃ := by
    obtain ⟨fs, inodes, files, dirs⟩ := t₃
    obtain ⟨device, openInodes⟩ := fs
    cases htable
    rfl
  have hround : (opened t₃ i [j] (2 ^ 32)).fs = t₃.fs := by
    obtain ⟨fs, inodes, files, dirs⟩ := t₃
    obtain ⟨device, openInodes⟩ := fs
    cases htable
    rfl
  have hletter : 0 ∉ ([97] : Name) := zero_not_mem (by decide)
  have hlive : ∀ n, Live (opened t₃ i [j] n).fs 4 := fun n =>
    Or.inr (Or.inr (Or.inr ⟨_, List.mem_cons_self, rfl⟩))
  have hagain := @opened_reach t₃ i [j] Request .call Serves (fun n t' h => ⟨hlive n, h⟩) hrest (2 ^ 32)
  rw [hzero] at hagain
  -- `inode_close` finds the state of the file system from before the 2³² calls
  have hlast : Serves (opened t₃ i [j] (2 ^ 32)) (.call (.inodeClose 0))
      ⟨s₄, (opened t₃ i [j] (2 ^ 32)).inodes.eraseIdx 0, t₃.files, t₃.dirs⟩ := by
    refine ⟨trivial, ?_⟩
    have hfirst : (opened t₃ i [j] (2 ^ 32)).inodes[0]? = some 3 := by
      show (List.replicate (2 ^ 32) 3 ++ t₃.inodes)[0]? = some 3
      rw [List.getElem?_append_left (by rw [List.length_replicate]; decide),
        List.getElem?_replicate_of_lt (by decide)]
    unfold serve exec
    dsimp only
    rw [hfirst, hround, hclose, ok_bind]
    rfl
  have hcreate : Serves (start s []) (.filesysCreate [97] 100 fun _ => 0) t₁ :=
    ⟨⟨hletter, by decide⟩, h₁⟩
  have hopened : Serves t₁ (.call (.inodeOpen 4)) t₂ :=
    ⟨Or.inr (Or.inr (Or.inl ⟨0, _, by decide, hentry⟩)), h₂⟩
  have hremove : Serves t₂ (.filesysRemove [97] fun _ => 0) t₃ := ⟨hletter, h₃⟩
  obtain ⟨ts, hrun, hmem⟩ := Run.exists_mem
    (.head ⟨_, hcreate⟩ (.head ⟨_, hopened⟩ (.head ⟨_, hremove⟩ hagain))) hlast
  refine ⟨s, ts, hs, hrun, _, hmem, rfl, fun hapart => ?_⟩
  have hheld : 3 ∈ handles ⟨s₄, (opened t₃ i [j] (2 ^ 32)).inodes.eraseIdx 0, t₃.files,
      t₃.dirs⟩ := by
    refine List.mem_append_left _ ?_
    show 3 ∈ (List.replicate (2 ^ 32) 3 ++ t₃.inodes).eraseIdx 0
    rw [List.eraseIdx_append_of_lt_length (by rw [List.length_replicate]; decide)]
    refine List.mem_append_left _ ?_
    rw [List.eraseIdx_replicate, if_pos (by decide)]
    exact List.mem_replicate.mpr ⟨by decide, rfl⟩
  obtain ⟨k, hk, hkid⟩ := hapart.held 3 hheld
  have hin : k.id ∈ s₄.openInodes.map Inode.id := List.mem_map_of_mem hk
  rw [hids, hkid] at hin
  exact absurd (List.mem_singleton.mp hin) (by decide)

end Users

end OsTools.Filesys

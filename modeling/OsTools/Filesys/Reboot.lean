import OsTools.Filesys.Session
/-!
# OsTools.Filesys.Reboot

Shutting down and booting again. As long as memory does not run out, the file of the
free map holds the free map after every request of a session (`Stored`), so that
`free_map_open` finds after the next boot what was there before it. The rest of the
file system is on the device, which `filesys_done` and `filesys_init` do not write.

What is in the way of that is a file on the free map's own inode that denies writes:
`free_map_release` does not look at what `bitmap_write` returns, so that from then on the
map in memory moves away from the one on the disk (`deniedMap_differs`). The requests that
do not set up such a file are `Permitted`. They keep that no file denies writes to the map
(`Stored.aside`), which with the invariant of sessions is all that one step needs.
-/

namespace OsTools.Filesys

open OsTools.Kernel

/-! ### Writing a bitmap and reading it back -/

namespace Users

/-- A request that does not deny writes to the free map. -/
def Permitted (t : Users) : Request → Prop
  | .call (.fileDenyWrite k) => ∀ f, t.files[k]? = some f → ∀ i ∈ t.fs.openInodes,
      i.id = f.inode → i.sector ≠ FREE_MAP_SECTOR
  | _ => True

/-- A file that has been opened does not deny writes. -/
theorem fileOpen_writable {s s' : Fs} {inode : Option Nat} {file : Option File}
    (h : s.fileOpen inode = .ok (s', file)) : ∀ f, file = some f → f.denyWrite = false := by
  intro f hf
  unfold Fs.fileOpen at h
  split at h
  · cases h
    cases hf
    rfl
  · obtain ⟨_, -, h⟩ := bind_eq_ok h
    cases h
    cases hf

theorem filesysOpen_writable {s s' : Fs} {name : Name} {garbage : Mem} {file : Option File}
    (h : s.filesysOpen name garbage = .ok (s', file)) : ∀ f, file = some f → f.denyWrite = false := by
  unfold Fs.filesysOpen at h
  obtain ⟨⟨s₁, dir⟩, -, h⟩ := bind_eq_ok h
  cases dir with
  | none => exact fileOpen_writable h
  | some dir =>
      obtain ⟨_, -, h⟩ := bind_eq_ok h
      obtain ⟨_, -, h⟩ := bind_eq_ok h
      exact fileOpen_writable h

/-- `f` stands for a file of `t` that denied writes already. -/
def Denied (t : Users) (f : File) : Prop := ∃ g ∈ t.files, g.denyWrite = true ∧ f.inode = g.inode

/-- After a call the files that deny writes are those that did so before and the one
that the call is about. -/
theorem exec_files {t t' : Users} {c : Call} (h : t.exec c = .ok t') : ∀ f ∈ t'.files,
    f.denyWrite = true →
      t.Denied f ∨ ∃ k g, c = .fileDenyWrite k ∧ t.files[k]? = some g ∧ f.inode = g.inode := by
  intro f hf hdeny
  have hold : f ∈ t.files → t.Denied f := fun hmem => ⟨f, hmem, hdeny, rfl⟩
  -- a new file is not denied
  have hnew : ∀ {s s' : Fs} {inode : Option Nat} {file : Option File},
      s.fileOpen inode = .ok (s', file) → f ∈ file.toList ++ t.files → t.Denied f := by
    intro s s' inode file hopen hmem
    rcases List.mem_append.mp hmem with hmem | hmem
    · rw [fileOpen_writable hopen f (Option.mem_toList.mp hmem)] at hdeny
      cases hdeny
    · exact hold hmem
  unfold exec at h
  cases c with
  | inodeOpen _ | inodeRemove _ | inodeClose _ | dirOpen _ | dirOpenRoot | dirClose _ =>
      obtain ⟨_, -, h⟩ := bind_eq_ok h
      cases h
      exact Or.inl (hold hf)
  | inodeReopen _ | dirReopen _ =>
      dsimp only at h
      split at h
      · cases h
        exact Or.inl (hold hf)
      · obtain ⟨_, -, h⟩ := bind_eq_ok h
        cases h
        exact Or.inl (hold hf)
  | fileOpen k =>
      obtain ⟨⟨fs, file⟩, hopen, h⟩ := bind_eq_ok h
      cases h
      exact Or.inl (hnew hopen hf)
  | fileReopen k =>
      dsimp only at h
      split at h
      · cases h
        exact Or.inl (hold hf)
      · obtain ⟨⟨fs, file⟩, hreopen, h⟩ := bind_eq_ok h
        cases h
        obtain ⟨s₁, -, hopen⟩ := bind_eq_ok hreopen
        exact Or.inl (hnew hopen hf)
  | fileClose k =>
      obtain ⟨_, -, h⟩ := bind_eq_ok h
      cases h
      exact Or.inl (hold (List.mem_of_mem_eraseIdx hf))
  | fileDenyWrite k =>
      dsimp only at h
      split at h
      · cases h
        exact Or.inl (hold hf)
      · rename_i g hk
        obtain ⟨⟨fs, g'⟩, hcall, h⟩ := bind_eq_ok h
        cases h
        rcases List.mem_or_eq_of_mem_set hf with hmem | rfl
        · exact Or.inl (hold hmem)
        · refine Or.inr ⟨k, g, rfl, hk, ?_⟩
          -- the file itself, which keeps its inode
          unfold Fs.fileDenyWrite at hcall
          split at hcall
          · obtain ⟨_, -, hcall⟩ := bind_eq_ok hcall
            cases hcall
            rfl
          · cases hcall
            rfl
  | fileAllowWrite k =>
      dsimp only at h
      split at h
      · cases h
        exact Or.inl (hold hf)
      · rename_i g hk
        obtain ⟨⟨fs, g'⟩, hcall, h⟩ := bind_eq_ok h
        cases h
        rcases List.mem_or_eq_of_mem_set hf with hmem | rfl
        · exact Or.inl (hold hmem)
        · unfold Fs.fileAllowWrite at hcall
          split at hcall
          · obtain ⟨_, -, hcall⟩ := bind_eq_ok hcall
            cases hcall
            cases hdeny
          · cases hcall
            exact Or.inl (hold (List.mem_of_getElem? hk))

/-- The same for every request. A file that denies writes after it did so before, as a file on
the same inode, or is the one that `file_deny_write` was called for. -/
theorem serve_files {t t' : Users} {r : Request} (h : t.serve r = .ok t') : ∀ f ∈ t'.files,
    f.denyWrite = true → t.Denied f ∨
      ∃ k g, r = .call (.fileDenyWrite k) ∧ t.files[k]? = some g ∧ f.inode = g.inode := by
  intro f hf hdeny
  have hold : f ∈ t.files → t.Denied f := fun hmem => ⟨f, hmem, hdeny, rfl⟩
  -- reading, writing and seeking change the position of a file only
  have hmoved : ∀ {k pos : Nat} {g : File}, t.files[k]? = some g →
      f ∈ t.files.set k { g with pos } → t.Denied f := by
    intro k pos g hk hmem
    rcases List.mem_or_eq_of_mem_set hmem with hmem | rfl
    · exact hold hmem
    · exact ⟨g, List.mem_of_getElem? hk, hdeny, rfl⟩
  unfold serve at h
  cases r with
  | call c =>
      rcases exec_files h f hf hdeny with hdenied | ⟨k, g, rfl, hk, hinode⟩
      · exact Or.inl hdenied
      · exact Or.inr ⟨k, g, rfl, hk, hinode⟩
  | filesysCreate _ _ _ | filesysRemove _ _ =>
      obtain ⟨_, -, h⟩ := bind_eq_ok h
      cases h
      exact Or.inl (hold hf)
  | filesysOpen name garbage =>
      obtain ⟨⟨fs, file⟩, hopen, h⟩ := bind_eq_ok h
      cases h
      rcases List.mem_append.mp hf with hmem | hmem
      · rw [filesysOpen_writable hopen f (Option.mem_toList.mp hmem)] at hdeny
        cases hdeny
      · exact Or.inl (hold hmem)
  | fileRead k buffer size =>
      dsimp only at h
      split at h
      · cases h
        exact Or.inl (hold hf)
      · rename_i g hk
        obtain ⟨⟨fs, g', buffer', n⟩, hcall, h⟩ := bind_eq_ok h
        obtain ⟨_, -, hcall⟩ := bind_eq_ok hcall
        cases hcall
        cases h
        exact Or.inl (hmoved hk hf)
  | fileWrite k buffer size =>
      dsimp only at h
      split at h
      · cases h
        exact Or.inl (hold hf)
      · rename_i g hk
        obtain ⟨⟨fs, g', n⟩, hcall, h⟩ := bind_eq_ok h
        obtain ⟨_, -, hcall⟩ := bind_eq_ok hcall
        cases hcall
        cases h
        exact Or.inl (hmoved hk hf)
  | fileSeek k newPos =>
      dsimp only at h
      split at h
      · cases h
        exact Or.inl (hold hf)
      · rename_i g hk
        cases h
        exact Or.inl (hmoved hk hf)
  | dirReaddir k garbage =>
      dsimp only at h
      split at h
      · cases h
        exact Or.inl (hold hf)
      · obtain ⟨_, -, h⟩ := bind_eq_ok h
        cases h
        exact Or.inl (hold hf)

/-- The invariant while memory does not run out: the file of the free map holds the
free map, and no file on it denies writes. -/
structure Stored (L : Nat → Prop) (t : Users) : Prop extends Sane L t where
  synced : Synced t.fs t.denies
  mapFile : ∃ id, t.fs.freeMapFile = some ⟨id, 0, false⟩
  aside : ∀ f ∈ t.files, f.denyWrite = true → ∀ i ∈ t.fs.openInodes, i.id = f.inode →
    i.sector ≠ FREE_MAP_SECTOR

variable {L : Nat → Prop} {t t' : Users}

/-- The files that deny writes. -/
theorem mem_denies {id n : Nat} (hmap : t.fs.freeMapFile = some ⟨n, 0, false⟩)
    (hid : id ∈ t.denies) : ∃ f ∈ t.files, f.denyWrite = true ∧ f.inode = id := by
  unfold denies deniesOf at hid
  rw [hmap] at hid
  obtain ⟨f, hf, hinode⟩ := List.mem_map.mp hid
  obtain ⟨hmem, hdeny⟩ := List.mem_filter.mp hf
  rcases List.mem_cons.mp hmem with rfl | hmem
  · cases hdeny
  · exact ⟨f, hmem, hdeny, hinode⟩

/-- One request. -/
theorem Stored.step (h : t.Stored L) (hroom : t.HasRoom 2) {r : Request} (hr : t.Serves r t')
    (hp : t.Permitted r) : ∃ L', t'.Stored L' := by
  obtain ⟨L', hsane, hsteady⟩ := h.toSane.step hroom hr
  obtain ⟨n, hmap⟩ := h.mapFile
  have hmap' : t'.fs.freeMapFile = some ⟨n, 0, false⟩ := hsteady.freeMapFile.trans hmap
  have haside : ∀ f ∈ t'.files, f.denyWrite = true → ∀ i ∈ t'.fs.openInodes, i.id = f.inode →
      i.sector ≠ FREE_MAP_SECTOR := by
    intro f hf hdeny i hi hid
    -- an inode that was open before keeps its sector
    have hbefore : ∀ g ∈ t.files, f.inode = g.inode → ∃ j ∈ t.fs.openInodes, j.id = g.inode ∧
        j.sector = i.sector := by
      intro g hg hinode
      obtain ⟨k, hk⟩ := List.getElem?_of_mem hg
      have hmem : g.inode ∈ t.handles := (handlesOf_files hk).mem_iff.mpr List.mem_cons_self
      have hlt := h.core.table.lt_of_mem hmem
      rw [← hinode, ← hid] at hlt
      obtain ⟨j, hj, hjid, hsector, -⟩ := hsteady.stable.sector i hi hlt
      exact ⟨j, hj, hjid.trans (hid.trans hinode), hsector⟩
    rcases serve_files hr.2 f hf hdeny with ⟨g, hg, hgdeny, hinode⟩ | ⟨k, g, rfl, hk, hinode⟩
    · obtain ⟨j, hj, hjid, hsector⟩ := hbefore g hg hinode
      rw [← hsector]
      exact h.aside g hg hgdeny j hj hjid
    · obtain ⟨j, hj, hjid, hsector⟩ := hbefore g (List.mem_of_getElem? hk) hinode
      rw [← hsector]
      exact hp g hk j hj hjid
  refine ⟨L', hsane, hsteady.synced h.synced fun f hf hmem => ?_, ⟨n, hmap'⟩, haside⟩
  obtain ⟨g, hg, hdeny, hinode⟩ := mem_denies hmap' hmem
  obtain ⟨m, i, hm, hi, hid, hsector, -⟩ := hsane.core.mapInode
  rw [hsteady.freeMapFile, hf] at hm
  cases hm
  exact haside g hg hdeny i hi (hid.trans hinode.symm) hsector

theorem start_stored {s : Fs} (h : Formatted s) :
    (start s []).Stored fun y => y = FREE_MAP_SECTOR ∨ y = ROOT_DIR_SECTOR := by
  obtain ⟨id, hopened⟩ := h.opened
  have hdenies : (start s []).denies = [] := by
    unfold start denies deniesOf
    dsimp only
    rw [hopened.freeMapFile]
    rfl
  refine ⟨start_sane h [], ?_, ⟨id, hopened.freeMapFile⟩, fun f hf => (by cases hf)⟩
  rw [hdenies]
  exact ⟨⟨rfl, h.synced.length, h.synced.allowed⟩, h.synced.bits⟩

/-- `filesys_done` changes the device in no session. -/
theorem Stored.filesysDone (h : t.Stored L) : ∃ s, t.fs.filesysDone = .ok s ∧
    s.device = t.fs.device := by
  obtain ⟨n, hmap⟩ := h.mapFile
  obtain ⟨f, i, hf, hi, hid, hsector, -⟩ := h.core.mapInode
  rw [hmap] at hf
  cases hf
  have hinode := h.core.table.inode hi
  rw [hid] at hinode
  have hremoved : i.removed = false := by
    rw [Bool.eq_false_iff]
    intro hr
    exact (h.tree.kept i hi hr).1 hsector
  unfold Fs.filesysDone Fs.freeMapClose Fs.fileClose Fs.fileAllowWrite Fs.inodeClose
  rw [hmap]
  dsimp only
  rw [if_neg (by decide), ok_bind]
  dsimp only
  rw [hinode, ok_bind]
  split
  · rw [if_neg (by rw [hremoved]; decide)]
    exact ⟨_, rfl, rfl⟩
  · exact ⟨_, rfl, rfl⟩

/-- After the next boot the device and the free map are the same. -/
theorem Stored.reboot (h : t.Stored L) (garbage : Mem) : ∃ s, t.fs.reboot garbage = .ok s ∧
    s.device = t.fs.device ∧ s.freeMap.bitCnt = t.fs.freeMap.bitCnt ∧
      (∀ k, k < t.fs.freeMap.bitCnt → s.freeMap.bit k = t.fs.freeMap.bit k) ∧
      Layout s.device s.freeMap L ∧ Synced s [] := by
  have hlayout := h.core.layout
  obtain ⟨f, i, -, -, -, -, hmapL, -⟩ := h.core.mapInode
  obtain ⟨s₁, hdone, hdevice⟩ := h.filesysDone
  have hsize : s₁.device.size + 31 < 2 ^ 32 := by
    have hfits := hlayout.fits
    unfold Bitmap.Fits at hfits
    rw [hlayout.bitCnt] at hfits
    rw [hdevice]
    exact hfits
  obtain ⟨hlarge, -⟩ | ⟨s₂, hinit, hs₂, -, hcnt, -⟩ := 
    @Fs.freeMapInit_spec s₁.device (by omega) garbage
  · omega
  have hdevice₂ : s₂.device = t.fs.device := by
    rw [hs₂]
    exact hdevice
  have hcnt₂ : s₂.freeMap.bitCnt = t.fs.freeMap.bitCnt := by
    rw [hcnt, hdevice, hlayout.bitCnt]
  obtain ⟨s₃, hopen, -, hdevice₃, hcnt₃, hbit, hlayout₃, hsynced⟩ :=
    @Fs.freeMapOpen_spec s₂ t.fs.freeMap L (by rw [hs₂]; rfl) (by rw [hs₂]; rfl)
      (by rw [hdevice₂]; exact hlayout) hmapL hcnt₂ (by rw [hdevice₂]; exact h.synced.length)
      (by rw [hdevice₂]; exact h.synced.bits)
  refine ⟨s₃, ?_, hdevice₃.trans hdevice₂, hcnt₃, hbit, hlayout₃, hsynced⟩
  unfold Fs.reboot Fs.filesysInit
  rw [hdone, ok_bind, hinit, ok_bind, if_neg (by decide), ok_bind]
  exact hopen

/-! ### Sessions and reboots -/

/-- Every state of a session without failing calls of `malloc`. -/
theorem stored_of_run {s : Fs} {ts : List (Transition Users Request)} (hformatted : Formatted s)
    (hrun : Run (fun t r t' => t.Served r t' ∧ t.Permitted r) (start s []) ts) :
    ∀ τ ∈ ts, (∃ L, τ.post.Stored L) ∧ τ.post.HasRoom 2 := by
  have hall := hrun.invariant (I := fun t => (∃ L, t.Stored L) ∧ t.HasRoom 2)
    (fun t r t' ht hstep => by
      obtain ⟨⟨L, hL⟩, hroom⟩ := ht
      exact ⟨hL.step hroom hstep.1.1 hstep.2, hstep.1.2⟩)
    ⟨⟨_, start_stored hformatted⟩, start_hasRoom hformatted []⟩
  exact fun τ hτ => (hall τ hτ).2

end Users

end OsTools.Filesys

import OsTools.Filesys.Alloc
/-!
# OsTools.Filesys.Handles

What opening, reopening, removing and closing an inode does to the table of open
inodes and to the references in it. `Core s L hs ds` counts the references in
`hs` and those that deny writes in `ds`, so that each operation adds a reference
to a list or takes one off it.

Closing the last reference frees the inode, and when it was removed its sectors
too: `Core.inodeClose` is where the free map shrinks.

## Proof shape

`Table.replace` is the lemma behind all operations on an inode that stays open: one inode gets other
counts, and the lists of references change with them. `Table.push` and `Table.drop` are the two
ways for the table to become longer and shorter. The operations then follow one by one.

Three relations say how a state goes on in another one, each a part of the next. `Stable` follows
the inodes that were open before: they keep their sectors, and what has been removed stays so.
`Refs` adds that nothing but the references has changed. `Closed` is for the closing of a
reference, after which either nothing else has changed either or the sectors of the one inode are
free. The composite operations (`file_close`, `file_open`, `dir_open`) are proved through these.
-/

namespace OsTools.Filesys

open OsTools.Kernel

/-! ### The table -/

section Table

variable {l : List Inode} {n : Nat} {hs hs' ds ds' : List Nat} {i i' j : Inode}

/-- The table with `i'` in the place of the inode of the same address. -/
def replace (l : List Inode) (i' : Inode) : List Inode :=
  l.map fun j => if j.id = i'.id then i' else j

theorem mem_replace (hid : i'.id = i.id) (hj : j ∈ replace l i') :
    j = i' ∨ (j ∈ l ∧ j.id ≠ i.id) := by
  obtain ⟨k, hk, hkj⟩ := List.mem_map.mp hj
  split at hkj
  · exact Or.inl hkj.symm
  · rename_i hne
    rw [← hkj]
    exact Or.inr ⟨hk, hid ▸ hne⟩

theorem self_mem_replace (hi : i ∈ l) (hid : i'.id = i.id) : i' ∈ replace l i' :=
  List.mem_map.mpr ⟨i, hi, if_pos hid.symm⟩

theorem mem_replace_of_ne (hj : j ∈ l) (hne : j.id ≠ i'.id) : j ∈ replace l i' :=
  List.mem_map.mpr ⟨j, hj, if_neg hne⟩

theorem map_replace {β : Type} {f : Inode → β} (h : Table l n hs ds) (hi : i ∈ l)
    (hid : i'.id = i.id) (hf : f i' = f i) : (replace l i').map f = l.map f := by
  unfold replace
  rw [List.map_map]
  refine List.map_congr_left fun j hj => ?_
  rw [Function.comp_apply]
  split
  · rename_i heq
    rw [eq_of_nodup_map h.ids hj hi (heq.trans hid), hf]
  · rfl

/-- One inode changes its counts. -/
theorem Table.replace (h : Table l n hs ds) (hi : i ∈ l) (hid : i'.id = i.id)
    (hsector : i'.sector = i.sector) (hhs : ∀ id, id ≠ i.id → hs'.count id = hs.count id)
    (hds : ∀ id, id ≠ i.id → ds'.count id = ds.count id) (hopen : i'.openCnt = hs'.count i.id)
    (hpos : 0 < hs'.count i.id) (hdeny : i'.denyWriteCnt = ds'.count i.id)
    (hle : ds'.count i.id ≤ hs'.count i.id) (hroom : Room hs' 0) :
    Table (replace l i') n hs' ds' := by
  refine ⟨?_, ?_, fun j hj => ?_, fun j hj => ?_, fun j hj => ?_, fun id hmem => ?_, fun id => ?_,
    hroom⟩
  · rw [map_replace h hi hid hid]
    exact h.ids
  · rw [map_replace h hi hid hsector]
    exact h.sectors
  · rcases mem_replace hid hj with rfl | ⟨hj, -⟩
    · rw [hid]
      exact h.id_lt i hi
    · exact h.id_lt j hj
  · rcases mem_replace hid hj with rfl | ⟨hj, hne⟩
    · rw [hid]
      exact ⟨hopen, hpos⟩
    · rw [hhs j.id hne]
      exact h.openCnt j hj
  · rcases mem_replace hid hj with rfl | ⟨hj, hne⟩
    · rw [hid]
      exact hdeny
    · rw [hds j.id hne]
      exact h.denyWriteCnt j hj
  · by_cases heq : id = i.id
    · exact ⟨i', self_mem_replace hi hid, hid.trans heq.symm⟩
    · have hcount := List.count_pos_iff.mpr hmem
      rw [hhs id heq] at hcount
      obtain ⟨j, hj, rfl⟩ := h.live id (List.count_pos_iff.mp hcount)
      exact ⟨j, mem_replace_of_ne hj (hid ▸ heq), rfl⟩
  · by_cases heq : id = i.id
    · rw [heq]
      exact hle
    · rw [hhs id heq, hds id heq]
      exact h.deny_le id

/-- The addresses in use have been handed out. -/
theorem Table.lt_of_mem (h : Table l n hs ds) {id : Nat} (hid : id ∈ hs) : id < n := by
  obtain ⟨i, hi, rfl⟩ := h.live id hid
  exact h.id_lt i hi

theorem Table.not_deny (h : Table l n hs ds) {id : Nat} (hid : id ∉ hs) : id ∉ ds := by
  intro hmem
  have hle := h.deny_le id
  rw [List.count_eq_zero_of_not_mem hid] at hle
  have hpos := List.count_pos_iff.mpr hmem
  omega

/-- A new inode with one reference. -/
theorem Table.push (h : Table l n hs ds) {x : Nat} {d : InodeDisk}
    (hx : x ∉ l.map Inode.sector) (hroom : Room hs 1) :
    Table (⟨n, x, 1, false, 0, d⟩ :: l) (n + 1) (n :: hs) ds := by
  have hfresh : n ∉ hs := fun hmem => Nat.lt_irrefl n (h.lt_of_mem hmem)
  have hne : ∀ i ∈ l, n ≠ i.id := fun i hi => Nat.ne_of_gt (h.id_lt i hi)
  refine ⟨List.nodup_cons.mpr ⟨fun hmem => ?_, h.ids⟩, List.nodup_cons.mpr ⟨hx, h.sectors⟩,
    fun j hj => ?_, fun j hj => ?_, fun j hj => ?_, fun id hmem => ?_, fun id => ?_, hroom.cons n⟩
  · obtain ⟨i, hi, hid⟩ := List.mem_map.mp hmem
    exact hne i hi hid.symm
  · rcases List.mem_cons.mp hj with rfl | hj
    · exact Nat.lt_succ_self n
    · exact Nat.lt_succ_of_lt (h.id_lt j hj)
  · rcases List.mem_cons.mp hj with rfl | hj
    · rw [List.count_cons_self, List.count_eq_zero_of_not_mem hfresh]
      exact ⟨rfl, Nat.one_pos⟩
    · rw [List.count_cons_of_ne (hne j hj)]
      exact h.openCnt j hj
  · rcases List.mem_cons.mp hj with rfl | hj
    · rw [List.count_eq_zero_of_not_mem (h.not_deny hfresh)]
      rfl
    · exact h.denyWriteCnt j hj
  · rcases List.mem_cons.mp hmem with rfl | hmem
    · exact ⟨_, List.mem_cons_self, rfl⟩
    · obtain ⟨i, hi, hid⟩ := h.live id hmem
      exact ⟨i, List.mem_cons_of_mem _ hi, hid⟩
  · exact Nat.le_trans (h.deny_le id) List.count_le_count_cons

/-- The last reference to an inode goes. -/
theorem Table.drop {id : Nat} (h : Table l n (id :: hs) ds) (hid : id ∉ hs) (hdeny : id ∉ ds) :
    Table (l.filter fun j => j.id ≠ id) n hs ds := by
  have hcount : ∀ k, k ≠ id → (id :: hs).count k = hs.count k := fun k hk =>
    List.count_cons_of_ne fun heq => hk heq.symm
  have hmem : ∀ j ∈ l.filter fun j => j.id ≠ id, j ∈ l ∧ j.id ≠ id := fun j hj => by
    simpa using List.mem_filter.mp hj
  refine ⟨h.ids.sublist (List.filter_sublist.map _), h.sectors.sublist (List.filter_sublist.map _),
    fun j hj => h.id_lt j (hmem j hj).1, fun j hj => ?_,
    fun j hj => h.denyWriteCnt j (hmem j hj).1, fun k hk => ?_, fun k => ?_,
    fun k => Nat.lt_of_le_of_lt List.count_le_count_cons (h.room k)⟩
  · obtain ⟨hj, hne⟩ := hmem j hj
    rw [← hcount j.id hne]
    exact h.openCnt j hj
  · obtain ⟨i, hi, rfl⟩ := h.live k (List.mem_cons_of_mem _ hk)
    refine ⟨i, List.mem_filter.mpr ⟨hi, ?_⟩, rfl⟩
    have hne : i.id ≠ id := fun heq => hid (heq ▸ hk)
    simpa using hne
  · by_cases hk : k = id
    · rw [hk, List.count_eq_zero_of_not_mem hdeny]
      exact Nat.zero_le _
    · rw [← hcount k hk]
      exact h.deny_le k

theorem Table.perm (h : Table l n hs ds) (hhs : hs.Perm hs') (hds : ds.Perm ds') :
    Table l n hs' ds' := by
  refine ⟨h.ids, h.sectors, h.id_lt, fun i hi => ?_, fun i hi => ?_, fun id hid => ?_, fun id => ?_,
    h.room.perm hhs⟩
  · rw [← hhs.count_eq]
    exact h.openCnt i hi
  · rw [← hds.count_eq]
    exact h.denyWriteCnt i hi
  · exact h.live id (hhs.mem_iff.mpr hid)
  · rw [← hhs.count_eq, ← hds.count_eq]
    exact h.deny_le id

end Table

/-! ### Operations on open inodes -/

/-- From `s` to `s'` open inodes keep their sectors and stay removed, and only
inodes in `R` are removed. -/
structure Stable (s s' : Fs) (R : Nat → Prop) : Prop where
  nextId : s.nextId ≤ s'.nextId
  sector : ∀ j ∈ s'.openInodes, j.id < s.nextId →
    ∃ i ∈ s.openInodes, i.id = j.id ∧ i.sector = j.sector ∧ (i.removed = true → j.removed = true)
  removed : ∀ j ∈ s'.openInodes, j.removed = true →
    R j.sector ∨ ∃ i ∈ s.openInodes, i.removed = true ∧ i.sector = j.sector

section Stable

variable {s s₁ s' : Fs} {R R' : Nat → Prop}

theorem Stable.of_eq (hopen : s'.openInodes = s.openInodes) (hnext : s'.nextId = s.nextId) :
    Stable s s' R := by
  refine ⟨Nat.le_of_eq hnext.symm, fun j hj _ => ?_, fun j hj hr => Or.inr ?_⟩
  · rw [hopen] at hj
    exact ⟨j, hj, rfl, rfl, id⟩
  · rw [hopen] at hj
    exact ⟨j, hj, hr, rfl⟩

theorem Frame.stable {B : Nat → Prop} (h : Frame s s' B) : Stable s s' R :=
  Stable.of_eq h.openInodes h.nextId

theorem Stable.mono (h : Stable s s' R) (hR : ∀ x, R x → R' x) : Stable s s' R' :=
  ⟨h.nextId, h.sector, fun j hj hr => (h.removed j hj hr).imp_left (hR _)⟩

theorem Stable.trans (h₁ : Stable s s₁ R) (h₂ : Stable s₁ s' R) : Stable s s' R := by
  refine ⟨Nat.le_trans h₁.nextId h₂.nextId, fun j hj hlt => ?_, fun j hj hr => ?_⟩
  · obtain ⟨i, hi, hid, hsector, hir⟩ := h₂.sector j hj (Nat.lt_of_lt_of_le hlt h₁.nextId)
    obtain ⟨k, hk, hkid, hksector, hkr⟩ := h₁.sector i hi (hid ▸ hlt)
    exact ⟨k, hk, hkid.trans hid, hksector.trans hsector, fun hr => hir (hkr hr)⟩
  · rcases h₂.removed j hj hr with hR | ⟨i, hi, hir, hsector⟩
    · exact Or.inl hR
    · rw [← hsector]
      exact h₁.removed i hi hir

end Stable

/-- Only the references change. -/
structure Refs (s s' : Fs) (R : Nat → Prop) : Prop extends Stable s s' R where
  device : s'.device = s.device
  freeMap : s'.freeMap = s.freeMap
  freeMapFile : s'.freeMapFile = s.freeMapFile

theorem Refs.trans {s s₁ s' : Fs} {R : Nat → Prop} (h₁ : Refs s s₁ R) (h₂ : Refs s₁ s' R) :
    Refs s s' R :=
  ⟨h₁.toStable.trans h₂.toStable, h₂.device.trans h₁.device, h₂.freeMap.trans h₁.freeMap,
    h₂.freeMapFile.trans h₁.freeMapFile⟩

theorem Refs.synced {s s' : Fs} {R : Nat → Prop} {ds : List Nat} (h : Refs s s' R)
    (hsynced : Synced s ds) (hmallocs : s'.mallocs = []) : Synced s' ds := by
  refine ⟨⟨hmallocs, ?_, ?_⟩, ?_⟩
  · rw [h.device, h.freeMap]
    exact hsynced.length
  · rw [h.freeMapFile]
    exact hsynced.allowed
  · rw [h.device, h.freeMap]
    exact hsynced.bits

namespace Core

variable {s s' : Fs} {L L' : Nat → Prop} {hs hs' ds ds' : List Nat}

theorem perm (h : Core s L hs ds) (hhs : hs.Perm hs') (hds : ds.Perm ds') : Core s L hs' ds' := by
  obtain ⟨f, hf, hmem, hsector⟩ := h.mapFile
  exact ⟨h.layout, h.table.perm hhs hds, h.backed, f, hf, hhs.mem_iff.mp hmem, hsector⟩

/-- Forgetting inodes that are not open. -/
theorem restrict (h : Core s L hs ds) (hL : ∀ x, L' x → L x)
    (hopen : ∀ i ∈ s.openInodes, L' i.sector) : Core s L' hs ds :=
  ⟨h.layout.mono hL, h.table, fun i hi => ⟨hopen i hi, (h.backed i hi).2⟩, h.mapFile⟩

/-- One inode changes its counts. -/
theorem setInode (h : Core s L hs ds) {i i' : Inode} (hi : i ∈ s.openInodes) (hid : i'.id = i.id)
    (hsector : i'.sector = i.sector) (hdata : i'.data = i.data)
    (hhs : ∀ id, id ≠ i.id → hs'.count id = hs.count id)
    (hds : ∀ id, id ≠ i.id → ds'.count id = ds.count id) (hopen : i'.openCnt = hs'.count i.id)
    (hpos : 0 < hs'.count i.id) (hdeny : i'.denyWriteCnt = ds'.count i.id)
    (hle : ds'.count i.id ≤ hs'.count i.id) (hroom : Room hs' 0) :
    Core (s.setInode i') L hs' ds' := by
  refine ⟨h.layout, h.table.replace hi hid hsector hhs hds hopen hpos hdeny hle hroom,
    fun j hj => ?_, ?_⟩
  · rcases mem_replace hid hj with rfl | ⟨hj, -⟩
    · rw [hsector, hdata]
      exact h.backed i hi
    · exact h.backed j hj
  · obtain ⟨f, hf, hmem, hmap⟩ := h.mapFile
    refine ⟨f, hf, List.count_pos_iff.mp ?_, fun j hj hjf => ?_⟩
    · by_cases heq : f.inode = i.id
      · rw [heq]
        exact hpos
      · rw [hhs f.inode heq]
        exact List.count_pos_iff.mpr hmem
    · rcases mem_replace hid hj with rfl | ⟨hj, -⟩
      · rw [hsector]
        exact hmap i hi (hid.symm.trans hjf)
      · exact hmap j hj hjf

theorem setInode_refs {i : Inode} (hi : i ∈ s.openInodes) (i' : Inode) (hid : i'.id = i.id)
    (hsector : i'.sector = i.sector) {R : Nat → Prop}
    (hstays : i.removed = true → i'.removed = true)
    (hremoved : i'.removed = true → R i.sector ∨ i.removed = true) :
    Refs s (s.setInode i') R := by
  refine ⟨⟨Nat.le_refl _, fun j hj _ => ?_, fun j hj hr => ?_⟩, rfl, rfl, rfl⟩
  · rcases mem_replace hid hj with rfl | ⟨hj, -⟩
    · exact ⟨i, hi, hid.symm, hsector.symm, hstays⟩
    · exact ⟨j, hj, rfl, rfl, id⟩
  · rcases mem_replace hid hj with rfl | ⟨hj, -⟩
    · rw [hsector]
      exact (hremoved hr).imp_right fun hir => ⟨i, hi, hir, rfl⟩
    · exact Or.inr ⟨j, hj, hr, rfl⟩

/-- `inode_reopen`. -/
theorem inodeReopen (h : Core s L hs ds) {id : Nat} (hid : id ∈ hs) (hroom : Room hs 1)
    (R : Nat → Prop) : ∃ s',
      s.inodeReopen (some id) = .ok s' ∧ Core s' L (id :: hs) ds ∧ Refs s s' R ∧
      s'.mallocs = s.mallocs := by
  obtain ⟨i, hi, rfl, hinode, -, -, hdeny, hopen⟩ := h.inode hid
  have hrefs := @setInode_refs s i hi { i with openCnt := incInt i.openCnt } rfl rfl R id Or.inr
  have hinc : incInt i.openCnt = i.openCnt + 1 := by
    have := hroom i.id
    exact incInt_eq (by omega) (by omega)
  refine ⟨_, ?_, ?_, hrefs, rfl⟩
  · unfold Fs.inodeReopen
    dsimp only
    rw [hinode]
    rfl
  · refine h.setInode hi rfl rfl rfl (fun k hk => List.count_cons_of_ne fun heq => hk heq.symm)
      (fun _ _ => rfl) ?_ ?_ hdeny ?_ (hroom.cons i.id)
    · rw [List.count_cons_self]
      dsimp only
      omega
    · rw [List.count_cons_self]
      omega
    · exact Nat.le_trans (h.table.deny_le i.id) List.count_le_count_cons

/-- `inode_remove`. -/
theorem inodeRemove (h : Core s L hs ds) {i : Inode} (hi : i ∈ s.openInodes) : ∃ s',
    s.inodeRemove i.id = .ok s' ∧ Core s' L hs ds ∧ Refs s s' (fun x => x = i.sector) ∧
      s'.mallocs = s.mallocs := by
  obtain ⟨hopen, hpos⟩ := h.table.openCnt i hi
  have hrefs := @setInode_refs s i hi { i with removed := true } rfl rfl (fun x => x = i.sector)
    (fun _ => rfl)
    (fun _ => Or.inl rfl)
  refine ⟨_, ?_, ?_, hrefs, rfl⟩
  · unfold Fs.inodeRemove
    rw [h.table.inode hi]
    rfl
  · exact h.setInode hi rfl rfl rfl (fun _ _ => rfl) (fun _ _ => rfl) hopen hpos
      (h.table.denyWriteCnt i hi) (h.table.deny_le i.id) h.table.room

/-- `inode_deny_write` through a reference that does not deny writes yet: the
assertion holds. -/
theorem inodeDenyWrite (h : Core s L hs ds) {id : Nat} (hlt : ds.count id < hs.count id)
    (R : Nat → Prop) : ∃ s', s.inodeDenyWrite id = .ok s' ∧ Core s' L hs (id :: ds) ∧
      Refs s s' R ∧ s'.mallocs = s.mallocs := by
  have hmem : id ∈ hs := List.count_pos_iff.mp (Nat.zero_lt_of_lt hlt)
  obtain ⟨i, hi, rfl, hinode, -, -, hdeny, hopen⟩ := h.inode hmem
  have hrefs := @setInode_refs s i hi { i with denyWriteCnt := incInt i.denyWriteCnt } rfl rfl R id
    Or.inr
  have hinc : incInt i.denyWriteCnt = i.denyWriteCnt + 1 := by
    have := h.table.room i.id
    exact incInt_eq (by omega) (by omega)
  refine ⟨_, ?_, ?_, hrefs, rfl⟩
  · unfold Fs.inodeDenyWrite
    rw [hinode, ok_bind]
    dsimp only
    rw [if_pos (by omega)]
  · refine h.setInode hi rfl rfl rfl (fun _ _ => rfl)
      (fun k hk => List.count_cons_of_ne fun heq => hk heq.symm) hopen (Nat.zero_lt_of_lt hlt) ?_ ?_
      h.table.room
    · rw [List.count_cons_self]
      dsimp only
      omega
    · rw [List.count_cons_self]
      exact hlt

/-- `inode_allow_write` through a reference that denies writes: both assertions
hold. -/
theorem inodeAllowWrite {id : Nat} (h : Core s L hs (id :: ds)) (R : Nat → Prop) : ∃ s',
    s.inodeAllowWrite id = .ok s' ∧ Core s' L hs ds ∧ Refs s s' R ∧ s'.mallocs = s.mallocs := by
  have hle := h.table.deny_le id
  rw [List.count_cons_self] at hle
  have hmem : id ∈ hs := List.count_pos_iff.mp (by omega)
  obtain ⟨i, hi, rfl, hinode, -, -, hdeny, hopen⟩ := h.inode hmem
  rw [List.count_cons_self] at hdeny
  have hrefs := @setInode_refs s i hi { i with denyWriteCnt := decInt i.denyWriteCnt } rfl rfl R id
    Or.inr
  have hdec : decInt i.denyWriteCnt = i.denyWriteCnt - 1 := by
    have := h.table.room i.id
    exact decInt_eq (by omega) (by omega)
  refine ⟨_, ?_, ?_, hrefs, rfl⟩
  · unfold Fs.inodeAllowWrite
    rw [hinode, ok_bind, if_neg (by omega), if_neg (by omega)]
  · refine h.setInode hi rfl rfl rfl (fun _ _ => rfl)
      (fun k hk => (List.count_cons_of_ne fun heq => hk heq.symm).symm) hopen (by omega) ?_
      (by omega) h.table.room
    dsimp only
    omega

/-- `inode_open` of an inode that exists. Either it is in the list already and gets one more
handle, which its count has room for; or a new `struct inode` is made with a number that no
other has, and the data on the disk are read into it. -/
theorem inodeOpen (h : Core s L hs ds) {x : Nat} (hx : L x) (hroom : Room hs 1)
    (R : Nat → Prop) : ∃ s' r,
    s.inodeOpen x = .ok (s', r) ∧ Core s' L (r.toList ++ hs) ds ∧ Refs s s' R ∧
      (∀ id, r = some id → ∃ i ∈ s'.openInodes, i.id = id ∧ i.sector = x ∧
        (id ∉ hs → i.removed = false)) ∧
      (s.mallocs = [] → s'.mallocs = [] ∧ r ≠ none) := by
  unfold Fs.inodeOpen
  cases hfind : s.openInodes.find? fun i => i.sector = x with
  | some i =>
      -- the inode is open already: one more reference
      have hi := List.mem_of_find?_eq_some hfind
      have hsector : i.sector = x := by
        have := List.find?_some hfind
        simpa using this
      have hid : i.id ∈ hs := List.count_pos_iff.mp (h.table.openCnt i hi).2
      obtain ⟨s', hreopen, hcore, hrefs, hmallocs⟩ := h.inodeReopen hid hroom R
      dsimp only
      rw [hreopen, ok_bind]
      refine ⟨s', some i.id, rfl, hcore, hrefs, fun id hr => ?_, fun hm =>
        ⟨hmallocs.trans hm, fun hr => (by cases hr)⟩⟩
      cases hr
      obtain ⟨j, hj, hjid⟩ := hcore.table.live i.id List.mem_cons_self
      obtain ⟨k, hk, hkid, hksector, -⟩ := hrefs.sector j hj (hjid ▸ h.table.id_lt i hi)
      refine ⟨j, hj, hjid, ?_, fun hnot => absurd hid hnot⟩
      rw [← hksector, eq_of_nodup_map h.table.ids hk hi (hkid.trans hjid), hsector]
  | none =>
      dsimp only
      obtain ⟨ok, mallocs, hmalloc, hready⟩ := Fs.malloc_cases s
      rw [hmalloc]
      cases ok with
      | false =>
          exact ⟨_, none, rfl, h.setMallocs mallocs, ⟨Stable.of_eq rfl rfl, rfl, rfl, rfl⟩,
            fun _ hr => (by cases hr), fun hm => by cases (hready hm).1⟩
      | true =>
          dsimp only
          -- a new open inode, with a new id, for a sector that had none
          have hread : Fs.blockRead { s with mallocs } x =
              .ok fun i => s.device.bytes (x * BLOCK_SECTOR_SIZE + i) :=
            Fs.read_eq (h.layout.sector_lt x hx)
          have hnew : x ∉ s.openInodes.map Inode.sector := by
            intro hmem
            obtain ⟨i, hi, hsector⟩ := List.mem_map.mp hmem
            have hne := List.find?_eq_none.mp hfind i hi
            exact hne (decide_eq_true hsector)
          rw [hread, ok_bind]
          refine ⟨_, some s.nextId, rfl, ⟨h.layout, h.table.push hnew hroom, fun i hi => ?_, ?_⟩,
            ⟨⟨Nat.le_succ _, fun j hj hlt => ?_, fun j hj hr => ?_⟩, rfl, rfl, rfl⟩,
            fun id hr => ?_, fun hm => ⟨(hready hm).2, fun hr => (by cases hr)⟩⟩
          · rcases List.mem_cons.mp hi with rfl | hi
            · exact ⟨hx, rfl⟩
            · exact h.backed i hi
          · obtain ⟨f, hf, hmem, hmap⟩ := h.mapFile
            refine ⟨f, hf, List.mem_cons_of_mem _ hmem, fun i hi hif => ?_⟩
            rcases List.mem_cons.mp hi with rfl | hi
            · have hlt := h.table.lt_of_mem hmem
              rw [← hif] at hlt
              exact absurd hlt (Nat.lt_irrefl _)
            · exact hmap i hi hif
          · rcases List.mem_cons.mp hj with rfl | hj
            · exact absurd hlt (Nat.lt_irrefl _)
            · exact ⟨j, hj, rfl, rfl, id⟩
          · rcases List.mem_cons.mp hj with rfl | hj
            · cases hr
            · exact Or.inr ⟨j, hj, hr, rfl⟩
          · cases hr
            exact ⟨_, List.mem_cons_self, rfl, rfl, fun _ => rfl⟩

end Core

/-! ### Closing -/

/-- What closing a reference to `i` leaves; `gone` says that the sectors of `i`
are released. -/
structure Closed (s s' : Fs) (i : Inode) (gone : Prop) (R : Nat → Prop) : Prop where
  stable : Stable s s' R
  freeMapFile : s'.freeMapFile = s.freeMapFile
  device : Changed s.device s'.device (DataSector s.device FREE_MAP_SECTOR)
  bitCnt : s'.freeMap.bitCnt = s.freeMap.bitCnt
  bit : ∀ k, s'.freeMap.bit k = true ↔
    s.freeMap.bit k = true ∧ ¬ (gone ∧ Owns s.device i.sector k)
  kept : ¬ gone → s'.device = s.device ∧ s'.freeMap = s.freeMap

theorem Refs.closed {s s' : Fs} {i : Inode} {gone : Prop} {R : Nat → Prop} (h : Refs s s' R)
    (hgone : ¬ gone) : Closed s s' i gone R := by
  refine ⟨h.toStable, h.freeMapFile, ?_, ?_, fun k => ?_, fun _ => ⟨h.device, h.freeMap⟩⟩
  · rw [h.device]
    exact Changed.refl _ _
  · rw [h.freeMap]
  · rw [h.freeMap]
    exact ⟨fun hk => ⟨hk, fun hg => hgone hg.1⟩, fun hk => hk.1⟩

namespace Core

variable {s s' : Fs} {L L' : Nat → Prop} {hs hs' ds ds' : List Nat}

/-- The state without the inode `i`, to which there is no reference left. -/
theorem dropInode {i : Inode} (h : Core s L (i.id :: hs) ds) (hi : i ∈ s.openInodes)
    (hid : i.id ∉ hs) (hdeny : i.id ∉ ds) (hmap : ∀ f, s.freeMapFile = some f → f.inode ∈ hs) :
    Core { s with openInodes := s.openInodes.filter fun j => j.id ≠ i.id }
      (fun y => L y ∧ y ≠ i.sector) hs ds := by
  have hmem : ∀ j ∈ s.openInodes.filter fun j => j.id ≠ i.id, j ∈ s.openInodes ∧ j.id ≠ i.id :=
    fun j hj => by simpa using List.mem_filter.mp hj
  refine ⟨h.layout.mono fun y hy => hy.1, h.table.drop hid hdeny, fun j hj => ?_, ?_⟩
  · obtain ⟨hj, hne⟩ := hmem j hj
    obtain ⟨hL, hdata⟩ := h.backed j hj
    refine ⟨⟨hL, fun heq => hne ?_⟩, hdata⟩
    rw [eq_of_nodup_map h.table.sectors hj hi heq]
  · obtain ⟨f, hf, -, hsector⟩ := h.mapFile
    exact ⟨f, hf, hmap f hf, fun j hj => hsector j (hmem j hj).1⟩

/-- The sectors of a removed inode are released. They were its own, so that the two calls of
`free_map_release` find them marked, and nothing that the others own is released; the map on
the disk is written each time. -/
theorem releaseInode {i : Inode} (h : Core s (fun y => L y ∧ y ≠ i.sector) hs ds)
    (hlayout : Layout s.device s.freeMap L) (hL : L i.sector)
    (hdata : i.data = diskInode s.device i.sector) : ∃ s₁ s',
    s.freeMapRelease i.sector 1 = .ok s₁ ∧
      s₁.freeMapRelease i.data.start (bytesToSectors i.data.length) = .ok s' ∧
      Frame s s' (DataSector s.device FREE_MAP_SECTOR) ∧
      Core s' (fun y => L y ∧ y ≠ i.sector) hs ds ∧ s'.freeMap.bitCnt = s.freeMap.bitCnt ∧
      (∀ k, s'.freeMap.bit k = true ↔ s.freeMap.bit k = true ∧ ¬ Owns s.device i.sector k) ∧
      (Synced s ds → Synced s' ds) := by
  have hother : ∀ y k, (L y ∧ y ≠ i.sector) → Owns s.device y k → ¬ Owns s.device i.sector k :=
    fun y k hy hyk hk => hy.2 (hlayout.disjoint y i.sector k hy.1 hL hyk hk)
  obtain ⟨f, -, -, -, -, -, hmapL, -⟩ := h.mapInode
  obtain ⟨s₁, hfirst, hframe₁, hcore₁, hcnt₁, hbit₁, hsynced₁⟩ :=
    @freeMapRelease s _ hs ds h i.sector 1 (by rw [hlayout.bitCnt]; exact hlayout.sector_lt _ hL)
    (fun k h₁ h₂ => hlayout.used _ k hL (Or.inl (by omega)))
    (fun y k hy hyk hin => hother y k hy hyk (Or.inl (by omega)))
  have hsame : ∀ y, (L y ∧ y ≠ i.sector) → diskInode s₁.device y = diskInode s.device y :=
    fun y hy => hframe₁.device.diskInode (h.layout.not_data hy hmapL)
  have howns : ∀ y k, (L y ∧ y ≠ i.sector) → Owns s₁.device y k → Owns s.device y k := by
    intro y k hy hk
    refine hk.imp_right fun hk => ?_
    unfold DataSector at hk
    rw [hsame y hy] at hk
    exact hk
  -- the data of `i`, as the table has them
  have hrange : ∀ k, (i.data.start ≤ k ∧ k < i.data.start + bytesToSectors i.data.length) ↔
      DataSector s.device i.sector k := by
    intro k
    rw [hdata]
    rfl
  obtain ⟨s', hsecond, hframe₂, hcore', hcnt', hbit', hsynced'⟩ :=
    @freeMapRelease s₁ _ hs ds hcore₁ i.data.start (bytesToSectors i.data.length)
    (by rw [hcnt₁, hlayout.bitCnt, hdata]; exact hlayout.onDevice _ hL)
    (fun k h₁ h₂ => by
      have hk := (hrange k).mp ⟨h₁, h₂⟩
      rw [hbit₁ k, if_neg ?_]
      · exact hlayout.used _ k hL (Or.inr hk)
      · intro hin
        have heq : k = i.sector := by omega
        rw [heq] at hk
        exact hlayout.header _ hL hk)
    (fun y k hy hyk hin => hother y k hy (howns y k hy hyk) (Or.inr ((hrange k).mp hin)))
  have hB : ∀ b, DataSector s₁.device FREE_MAP_SECTOR b → DataSector s.device FREE_MAP_SECTOR b := by
    intro b hb
    unfold DataSector at hb
    rw [hsame _ hmapL] at hb
    exact hb
  refine ⟨s₁, s', hfirst, hsecond, hframe₁.trans (hframe₂.mono hB), hcore', hcnt'.trans hcnt₁,
    fun k => ?_, fun hs => hsynced' (hsynced₁ hs.toReady).toReady⟩
  rw [hbit' k]
  have hk : Owns s.device i.sector k ↔ k = i.sector ∨
      (i.data.start ≤ k ∧ k < i.data.start + bytesToSectors i.data.length) := by
    rw [hrange k]
    rfl
  rw [hk, hbit₁ k]
  split
  · rename_i hin
    constructor
    · intro hf
      cases hf
    · intro hn
      exact absurd (Or.inr hin) hn.2
  · rename_i hout
    split
    · rename_i hin
      constructor
      · intro hf
        cases hf
      · intro hn
        exact absurd (Or.inl (by omega)) hn.2
    · rename_i hne
      constructor
      · intro hk
        refine ⟨hk, fun hor => ?_⟩
        rcases hor with heq | hin
        · exact hne (by omega)
        · exact hout hin
      · intro hk
        exact hk.1

/-- `inode_close`: the sectors are released with the last reference to a removed
inode, and only then. -/
theorem inodeClose {id : Nat} (h : Core s L (id :: hs) ds) (hdeny : ds.count id ≤ hs.count id)
    (hmap : ∀ f, s.freeMapFile = some f → f.inode ∈ hs) (R : Nat → Prop) :
    ∃ s' i, i ∈ s.openInodes ∧ i.id = id ∧ s.inodeClose (some id) = .ok s' ∧
      Core s' (fun y => L y ∧ ¬ ((id ∉ hs ∧ i.removed = true) ∧ y = i.sector)) hs ds ∧
      Closed s s' i (id ∉ hs ∧ i.removed = true) R ∧ (Synced s ds → Synced s' ds) := by
  obtain ⟨i, hi, rfl, hinode, hL, hdata, hdenyCnt, hopen⟩ := h.inode List.mem_cons_self
  rw [List.count_cons_self] at hopen
  have hdec : decInt i.openCnt = i.openCnt - 1 := by
    have hroom := h.table.room i.id
    rw [List.count_cons_self] at hroom
    exact decInt_eq (by omega) (by omega)
  unfold Fs.inodeClose
  dsimp only
  rw [hinode, ok_bind]
  by_cases hid : i.id ∈ hs
  · -- other references are left
    have hpos := List.count_pos_iff.mpr hid
    have hcore : Core (s.setInode { i with openCnt := decInt i.openCnt }) L hs ds := by
      refine h.setInode hi rfl rfl rfl
        (fun k hk => (List.count_cons_of_ne fun heq => hk heq.symm).symm) (fun _ _ => rfl) ?_ hpos
        hdenyCnt hdeny fun k => Nat.lt_of_le_of_lt List.count_le_count_cons (h.table.room k)
      dsimp only
      omega
    have hrefs := @setInode_refs s i hi { i with openCnt := decInt i.openCnt } rfl rfl R id Or.inr
    have hkeep : ¬ (i.id ∉ hs ∧ i.removed = true) := fun hg => hg.1 hid
    rw [if_neg (by omega)]
    refine ⟨_, i, hi, rfl, rfl, hcore.restrict (fun y hy => hy.1) fun j hj =>
      ⟨(hcore.backed j hj).1, fun hg => hkeep hg.1⟩, hrefs.closed hkeep, fun hsynced =>
      hrefs.synced hsynced hsynced.mallocs⟩
  · have hcount := List.count_eq_zero_of_not_mem hid
    have hnd : i.id ∉ ds := fun hmem => by
      have := List.count_pos_iff.mpr hmem
      omega
    have hcore := h.dropInode hi hid hnd hmap
    rw [if_pos (by omega)]
    have hsub : ∀ j ∈ s.openInodes.filter fun j => j.id ≠ i.id, j ∈ s.openInodes :=
      fun j hj => (List.mem_filter.mp hj).1
    have hrefs : Refs s { s with openInodes := s.openInodes.filter fun j => j.id ≠ i.id } R :=
      ⟨⟨Nat.le_refl _, fun j hj _ => ⟨j, hsub j hj, rfl, rfl, id⟩,
        fun j hj hr => Or.inr ⟨j, hsub j hj, hr, rfl⟩⟩, rfl, rfl, rfl⟩
    by_cases hremoved : i.removed = true
    · rw [if_pos hremoved]
      obtain ⟨s₁, s', hfirst, hsecond, hframe, hcore', hcnt, hbit, hsync⟩ :=
        hcore.releaseInode h.layout hL hdata
      rw [hfirst, ok_bind, hsecond]
      refine ⟨s', i, hi, rfl, rfl, hcore'.restrict (fun y hy => ⟨hy.1, fun heq =>
        hy.2 ⟨⟨hid, hremoved⟩, heq⟩⟩) fun j hj => ⟨(hcore'.backed j hj).1.1, fun hg =>
          (hcore'.backed j hj).1.2 hg.2⟩, ⟨hrefs.toStable.trans hframe.stable,
        hframe.freeMapFile, hframe.device, hcnt, fun k => ?_, fun hg =>
          absurd ⟨hid, hremoved⟩ hg⟩, fun hsynced => hsync (hrefs.synced hsynced hsynced.mallocs)⟩
      rw [hbit k]
      exact and_congr_right fun _ => not_congr ⟨fun hk => ⟨⟨hid, hremoved⟩, hk⟩, fun hk => hk.2⟩
    · rw [if_neg hremoved]
      have hkeep : ¬ (i.id ∉ hs ∧ i.removed = true) := fun hg => hremoved hg.2
      -- the inode stays on the device
      refine ⟨_, i, hi, rfl, rfl, ⟨h.layout.mono fun y hy => hy.1, hcore.table, fun j hj =>
        ⟨⟨(hcore.backed j hj).1.1, fun hg => hkeep hg.1⟩, (hcore.backed j hj).2⟩, hcore.mapFile⟩,
        hrefs.closed hkeep, fun hsynced => hrefs.synced hsynced hsynced.mallocs⟩

/-- What closing the reference `id` does, when `hs` are the references left. -/
def ClosesTo (s s' : Fs) (L : Nat → Prop) (id : Nat) (hs ds : List Nat) (R : Nat → Prop) : Prop :=
  ∃ i ∈ s.openInodes, i.id = id ∧
    Core s' (fun y => L y ∧ ¬ ((id ∉ hs ∧ i.removed = true) ∧ y = i.sector)) hs ds ∧
    Closed s s' i (id ∉ hs ∧ i.removed = true) R

/-- Only the references changed before the closing. -/
theorem ClosesTo.of_refs {s₁ : Fs} {id : Nat} {R : Nat → Prop} (h : Core s L hs' ds')
    (hrefs : Refs s s₁ fun _ => False) (hid : id < s.nextId) (hc : ClosesTo s₁ s' L id hs ds R) :
    ClosesTo s s' L id hs ds R := by
  obtain ⟨j, hj, hjid, hcore, hclosed⟩ := hc
  obtain ⟨i, hi, hid', hsector, hstays⟩ := hrefs.sector j hj (hjid ▸ hid)
  have hremoved : i.removed = true ↔ j.removed = true := by
    refine ⟨hstays, fun hr => ?_⟩
    obtain hf | ⟨k, hk, hkr, hks⟩ := hrefs.removed j hj hr
    · exact hf.elim
    · rw [eq_of_nodup_map h.table.sectors hi hk (hsector.trans hks.symm)]
      exact hkr
  have hstable : Stable s s₁ R := hrefs.toStable.mono fun _ hf => hf.elim
  refine ⟨i, hi, hid'.trans hjid, ?_, hstable.trans hclosed.stable,
    hclosed.freeMapFile.trans hrefs.freeMapFile, ?_, ?_, fun k => ?_, fun hg => ?_⟩
  · rw [hsector, hremoved]
    exact hcore
  · rw [← hrefs.device]
    exact hclosed.device
  · rw [hclosed.bitCnt, hrefs.freeMap]
  · rw [hclosed.bit k, hrefs.freeMap, hrefs.device, hsector, hremoved]
  · rw [hremoved] at hg
    obtain ⟨hd, hm⟩ := hclosed.kept hg
    exact ⟨hd.trans hrefs.device, hm.trans hrefs.freeMap⟩

/-- The inode stays on the device: only the references change. -/
theorem ClosesTo.refs {id : Nat} {R : Nat → Prop} (hc : ClosesTo s s' L id hs ds R)
    (hstays : ∀ i ∈ s.openInodes, i.id = id → ¬ (id ∉ hs ∧ i.removed = true)) :
    Core s' L hs ds ∧ Refs s s' R := by
  obtain ⟨i, hi, hid, hcore, hclosed⟩ := hc
  have hkeep := hstays i hi hid
  obtain ⟨hdevice, hmap⟩ := hclosed.kept hkeep
  have hL : (fun y => L y ∧ ¬ ((id ∉ hs ∧ i.removed = true) ∧ y = i.sector)) = L := by
    funext y
    exact propext ⟨fun hy => hy.1, fun hy => ⟨hy, fun hg => hkeep hg.1⟩⟩
  rw [hL] at hcore
  exact ⟨hcore, hclosed.stable, hdevice, hmap, hclosed.freeMapFile⟩

/-- `file_close`. -/
theorem fileClose {f : File} (h : Core s L (f.inode :: hs) (if f.denyWrite then f.inode :: ds else ds))
    (hdeny : ds.count f.inode ≤ hs.count f.inode)
    (hmap : ∀ g, s.freeMapFile = some g → g.inode ∈ hs) (R : Nat → Prop) :
    ∃ s', s.fileClose (some f) = .ok s' ∧ ClosesTo s s' L f.inode hs ds R ∧
      (Synced s ds → Synced s' ds) := by
  unfold Fs.fileClose Fs.fileAllowWrite
  cases hf : f.denyWrite with
  | false =>
      rw [hf, if_neg (by decide)] at h
      obtain ⟨s', i, hi, hid, hclose, hcore, hclosed, hsynced⟩ := h.inodeClose hdeny hmap R
      dsimp only
      rw [if_neg (by rw [hf]; decide), ok_bind]
      exact ⟨s', hclose, ⟨i, hi, hid, hcore, hclosed⟩, hsynced⟩
  | true =>
      rw [hf, if_pos rfl] at h
      obtain ⟨s₁, hallow, hcore₁, hrefs, hmallocs⟩ := h.inodeAllowWrite fun _ => False
      obtain ⟨s', i, hi, hid, hclose, hcore, hclosed, hsynced⟩ := hcore₁.inodeClose hdeny
        (by rw [hrefs.freeMapFile]; exact hmap) R
      dsimp only
      rw [if_pos hf, hallow, ok_bind, ok_bind]
      exact ⟨s', hclose, ClosesTo.of_refs h hrefs (h.table.lt_of_mem List.mem_cons_self)
        ⟨i, hi, hid, hcore, hclosed⟩,
        fun hs => hsynced (hrefs.synced hs (hmallocs.trans hs.mallocs))⟩

/-- `file_open (NULL)`. -/
theorem fileOpen_none (s : Fs) : ∃ mallocs, s.fileOpen none = .ok ({ s with mallocs }, none) ∧
    (s.mallocs = [] → mallocs = []) := by
  obtain ⟨ok, mallocs, hmalloc, hready⟩ := Fs.malloc_cases s
  refine ⟨mallocs, ?_, fun hm => (hready hm).2⟩
  unfold Fs.fileOpen
  rw [hmalloc]
  cases ok <;> rfl

/-- `dir_open (NULL)`. -/
theorem dirOpen_none (s : Fs) : ∃ mallocs, s.dirOpen none = .ok ({ s with mallocs }, none) ∧
    (s.mallocs = [] → mallocs = []) := by
  obtain ⟨ok, mallocs, hmalloc, hready⟩ := Fs.malloc_cases s
  refine ⟨mallocs, ?_, fun hm => (hready hm).2⟩
  unfold Fs.dirOpen
  rw [hmalloc]
  cases ok <;> rfl

/-- `file_open` takes the reference over or closes it. -/
theorem fileOpen {id : Nat} (h : Core s L (id :: hs) ds) (hdeny : ds.count id ≤ hs.count id)
    (hmap : ∀ f, s.freeMapFile = some f → f.inode ∈ hs) (R : Nat → Prop) :
    ∃ s' r, s.fileOpen (some id) = .ok (s', r) ∧
      ((r = some ⟨id, 0, false⟩ ∧ Core s' L (id :: hs) ds ∧ Refs s s' R) ∨
        (r = none ∧ ClosesTo s s' L id hs ds R)) ∧
      (s.mallocs = [] → s'.mallocs = [] ∧ r ≠ none) := by
  obtain ⟨ok, mallocs, hmalloc, hready⟩ := Fs.malloc_cases s
  unfold Fs.fileOpen
  rw [hmalloc]
  cases ok with
  | true =>
      exact ⟨_, _, rfl, Or.inl ⟨rfl, h.setMallocs mallocs, Stable.of_eq rfl rfl, rfl, rfl, rfl⟩,
        fun hm => ⟨(hready hm).2, fun hr => (by cases hr)⟩⟩
  | false =>
      obtain ⟨s', i, hi, hid, hclose, hcore, hclosed, -⟩ :=
        (h.setMallocs mallocs).inodeClose hdeny hmap R
      dsimp only
      rw [hclose, ok_bind]
      exact ⟨s', none, rfl, Or.inr ⟨rfl, i, hi, hid, hcore, ⟨hclosed.stable.nextId,
        hclosed.stable.sector, hclosed.stable.removed⟩, hclosed.freeMapFile, hclosed.device,
        hclosed.bitCnt, hclosed.bit, hclosed.kept⟩, fun hm => by cases (hready hm).1⟩

/-- `dir_open` takes the reference over or closes it. -/
theorem dirOpen {id : Nat} (h : Core s L (id :: hs) ds) (hdeny : ds.count id ≤ hs.count id)
    (hmap : ∀ f, s.freeMapFile = some f → f.inode ∈ hs) (R : Nat → Prop) :
    ∃ s' r, s.dirOpen (some id) = .ok (s', r) ∧
      ((r = some ⟨id, 0⟩ ∧ Core s' L (id :: hs) ds ∧ Refs s s' R) ∨
        (r = none ∧ ClosesTo s s' L id hs ds R)) ∧
      (s.mallocs = [] → s'.mallocs = [] ∧ r ≠ none) := by
  obtain ⟨ok, mallocs, hmalloc, hready⟩ := Fs.malloc_cases s
  unfold Fs.dirOpen
  rw [hmalloc]
  cases ok with
  | true =>
      exact ⟨_, _, rfl, Or.inl ⟨rfl, h.setMallocs mallocs, Stable.of_eq rfl rfl, rfl, rfl, rfl⟩,
        fun hm => ⟨(hready hm).2, fun hr => (by cases hr)⟩⟩
  | false =>
      obtain ⟨s', i, hi, hid, hclose, hcore, hclosed, -⟩ :=
        (h.setMallocs mallocs).inodeClose hdeny hmap R
      dsimp only
      rw [hclose, ok_bind]
      exact ⟨s', none, rfl, Or.inr ⟨rfl, i, hi, hid, hcore, ⟨hclosed.stable.nextId,
        hclosed.stable.sector, hclosed.stable.removed⟩, hclosed.freeMapFile, hclosed.device,
        hclosed.bitCnt, hclosed.bit, hclosed.kept⟩, fun hm => by cases (hready hm).1⟩

theorem mapFile_mem (h : Core s L hs ds) : ∀ f, s.freeMapFile = some f → f.inode ∈ hs := by
  intro f hf
  obtain ⟨g, hg, hmem, -⟩ := h.mapFile
  rw [hg] at hf
  cases hf
  exact hmem

/-- `dir_open_root`. If there is no memory for the directory, the inode that was opened is
closed again, and the state is as it was. -/
theorem dirOpenRoot (h : Core s L hs ds) (hroot : L ROOT_DIR_SECTOR) (hroom : Room hs 1) :
    ∃ s' r,
    s.dirOpenRoot = .ok (s', r) ∧ Refs s s' (fun _ => False) ∧
      ((r = none ∧ Core s' L hs ds) ∨ ∃ id, r = some ⟨id, 0⟩ ∧ Core s' L (id :: hs) ds ∧
        ∃ i ∈ s'.openInodes, i.id = id ∧ i.sector = ROOT_DIR_SECTOR) ∧
      (s.mallocs = [] → s'.mallocs = [] ∧ r ≠ none) := by
  obtain ⟨s₁, inode, hinode, hcore₁, hrefs₁, hid, hm₁⟩ := h.inodeOpen hroot hroom fun _ => False
  unfold Fs.dirOpenRoot
  rw [hinode, ok_bind]
  dsimp only
  cases inode with
  | none =>
      obtain ⟨mallocs, hopen, -⟩ := dirOpen_none s₁
      have hrefs₂ : Refs s₁ { s₁ with mallocs } fun _ => False :=
        ⟨Stable.of_eq rfl rfl, rfl, rfl, rfl⟩
      rw [hopen]
      exact ⟨_, none, rfl, hrefs₁.trans hrefs₂, Or.inl ⟨rfl, hcore₁.setMallocs mallocs⟩,
        fun hm => absurd rfl (hm₁ hm).2⟩
  | some id =>
      obtain ⟨i, hi, hii, his, hnew⟩ := hid id rfl
      obtain ⟨s', r, hopen, hresult, hm'⟩ := hcore₁.dirOpen (h.table.deny_le id)
        (by rw [hrefs₁.freeMapFile]; exact h.mapFile_mem) fun _ => False
      rw [hopen]
      refine ⟨s', r, rfl, ?_, ?_, fun hm => hm' (hm₁ hm).1⟩
      · rcases hresult with ⟨-, -, hrefs⟩ | ⟨-, hto⟩
        · exact hrefs₁.trans hrefs
        · exact hrefs₁.trans (hto.refs fun j hj hji hgone => by
            rw [eq_of_nodup_map hcore₁.table.ids hj hi (hji.trans hii.symm), hnew hgone.1] at hgone
            cases hgone.2).2
      · rcases hresult with ⟨hr, hcore, hrefs⟩ | ⟨hr, hto⟩
        · refine Or.inr ⟨id, hr, hcore, ?_⟩
          obtain ⟨j, hj, hjid⟩ := hcore.table.live id List.mem_cons_self
          obtain ⟨k, hk, hkid, hks, -⟩ := hrefs.sector j hj (by
            rw [hjid, ← hii]
            exact hcore₁.table.id_lt i hi)
          refine ⟨j, hj, hjid, ?_⟩
          rw [← hks, eq_of_nodup_map hcore₁.table.ids hk hi (hkid.trans (hjid.trans hii.symm)), his]
        · -- an inode that was not open before is not removed
          exact Or.inl ⟨hr, (hto.refs fun j hj hji hgone => by
            rw [eq_of_nodup_map hcore₁.table.ids hj hi (hji.trans hii.symm), hnew hgone.1] at hgone
            cases hgone.2).1⟩

end Core

end OsTools.Filesys

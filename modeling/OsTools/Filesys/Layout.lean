import Mathlib.Data.List.Nodup
import OsTools.Filesys.FreeMap
/-!
# OsTools.Filesys.Layout

Who owns which sector. An inode owns the sector it is stored in and the sectors
of its data, as the device itself records them (`diskInode`). `Layout d m L`
says that the inodes in the sectors `L` have their sectors on the device, marked
in the free map and to themselves.

A change of the device outside the sectors of the inodes, or of the free map
outside what they own, keeps the layout; the operations below are such changes.
`Synced` adds that the file of the free map holds the free map.

## Proof shape

All later arguments about sectors come down to two lemmas. `Layout.changed` carries the layout over
a change of the device that leaves the inodes' own sectors alone: then every inode is read back as
it was, and owns what it owned. `Layout.bits` carries it over a change of the free map that leaves
the sectors of the inodes marked. `Layout.insert` adds an inode whose sectors no other has, and
`Layout.mono` forgets some.

`Table` counts the references: `hs` has one entry for each handle, so that opening is a `cons` and
closing takes an entry away, and the counts in the table of open inodes are `List.count`s. `Room`
bounds them, since `open_cnt` is an `int`.
-/

namespace OsTools.Filesys

open OsTools.Kernel

/-! ### Sizes in sectors -/

/-- The sectors of `size` bytes have room for them, and there is none for no
bytes. -/
theorem bytesToSectors_spec {size : Int} (h₀ : 0 ≤ size) (h₁ : size < 2 ^ 31) :
    size.toNat ≤ bytesToSectors size * BLOCK_SECTOR_SIZE ∧
      (size ≤ 2 ^ 31 - 512 → bytesToSectors size = (size.toNat + 511) / 512) := by
  have hsum : (toUInt32 (size + BLOCK_SECTOR_SIZE - 1) : Int) = size + 511 := by
    unfold toUInt32 BLOCK_SECTOR_SIZE
    omega
  unfold bytesToSectors
  by_cases hwrap : size + 511 < 2 ^ 31
  · have hint : toInt32 (toUInt32 (size + BLOCK_SECTOR_SIZE - 1)) = size + 511 := by
      unfold toInt32
      rw [if_pos (by omega), hsum]
    have hdiv : (size + 511).tdiv (BLOCK_SECTOR_SIZE : Nat) = (size + 511) / 512 :=
      Int.tdiv_eq_ediv_of_nonneg (by omega)
    rw [hint, hdiv]
    unfold toUInt32 BLOCK_SECTOR_SIZE
    constructor
    · omega
    · omega
  · -- the `int` sum wraps: the quotient is then far too large
    have hint : toInt32 (toUInt32 (size + BLOCK_SECTOR_SIZE - 1)) = -(2 ^ 32 - 511 - size) := by
      unfold toInt32
      rw [if_neg (by omega)]
      omega
    have hdiv : (-(2 ^ 32 - 511 - size)).tdiv (BLOCK_SECTOR_SIZE : Nat) =
        -((2 ^ 32 - 511 - size) / 512) := by
      rw [Int.neg_tdiv, Int.tdiv_eq_ediv_of_nonneg (by omega)]
      rfl
    rw [hint, hdiv]
    unfold toUInt32 BLOCK_SECTOR_SIZE
    constructor
    · omega
    · omega

theorem bytesToSectors_zero : bytesToSectors 0 = 0 := by decide

/-! ### Inodes on the device -/

/-- The inode stored in sector `x`. -/
def diskInode (d : Block) (x : Nat) : InodeDisk :=
  InodeDisk.decode fun i => d.bytes (x * BLOCK_SECTOR_SIZE + i)

/-- Sector `b` holds data of the inode in sector `x`. -/
def DataSector (d : Block) (x b : Nat) : Prop :=
  (diskInode d x).start ≤ b ∧
    b < (diskInode d x).start + bytesToSectors (diskInode d x).length

/-- Sector `b` belongs to the inode in sector `x`. -/
def Owns (d : Block) (x b : Nat) : Prop := b = x ∨ DataSector d x b

/-- The inodes in the sectors `L` are on the device, their sectors are marked in
the free map, and no sector belongs to two of them. -/
structure Layout (d : Block) (m : Bitmap) (L : Nat → Prop) : Prop where
  fits : m.Fits
  bitCnt : m.bitCnt = d.size
  sector_lt : ∀ x, L x → x < d.size
  length : ∀ x, L x → 0 ≤ (diskInode d x).length
  onDevice : ∀ x, L x →
    (diskInode d x).start + bytesToSectors (diskInode d x).length ≤ d.size
  header : ∀ x, L x → ¬ DataSector d x x
  used : ∀ x b, L x → Owns d x b → m.bit b = true
  disjoint : ∀ x y b, L x → L y → Owns d x b → Owns d y b → x = y

/-- `d'` differs from `d` in the sectors `B` only. -/
structure Changed (d d' : Block) (B : Nat → Prop) : Prop where
  size : d'.size = d.size
  same : ∀ a, ¬ B (a / BLOCK_SECTOR_SIZE) → d'.bytes a = d.bytes a

theorem Changed.refl (d : Block) (B : Nat → Prop) : Changed d d B := ⟨rfl, fun _ _ => rfl⟩

theorem Changed.mono {d d' : Block} {B C : Nat → Prop} (h : Changed d d' B)
    (hBC : ∀ b, B b → C b) : Changed d d' C :=
  ⟨h.size, fun a ha => h.same a fun hB => ha (hBC _ hB)⟩

theorem Changed.trans {d d₁ d' : Block} {B : Nat → Prop} (h₁ : Changed d d₁ B)
    (h₂ : Changed d₁ d' B) : Changed d d' B :=
  ⟨h₂.size.trans h₁.size, fun a ha => (h₂.same a ha).trans (h₁.same a ha)⟩

theorem length_lt (m : Mem) : (InodeDisk.decode m).length < 2 ^ 31 := by
  have hlt := Mem.load_lt m 4 4
  unfold InodeDisk.decode toInt32
  dsimp only
  split <;> omega

theorem start_lt (m : Mem) : (InodeDisk.decode m).start < 2 ^ 32 := Mem.load_lt m 0 4

theorem decode_congr {m m' : Mem} (h : ∀ i, i < 12 → m' i = m i) :
    InodeDisk.decode m' = InodeDisk.decode m := by
  have hload : ∀ a, a + 4 ≤ 12 → m'.load a 4 = m.load a 4 := fun a ha =>
    Mem.load_congr fun i hi => h (a + i) (by omega)
  unfold InodeDisk.decode
  rw [hload 0 (by omega), hload 4 (by omega), hload 8 (by omega)]

/-- An inode whose sector does not change stays as it is. -/
theorem Changed.diskInode {d d' : Block} {B : Nat → Prop} (h : Changed d d' B) {x : Nat}
    (hx : ¬ B x) : diskInode d' x = diskInode d x := by
  refine decode_congr fun i hi => h.same _ ?_
  have hsector : (x * BLOCK_SECTOR_SIZE + i) / BLOCK_SECTOR_SIZE = x := by
    unfold BLOCK_SECTOR_SIZE
    omega
  rw [hsector]
  exact hx

namespace Layout

variable {d d' : Block} {m m' : Bitmap} {L L' : Nat → Prop}

/-- No inode is stored in the data of another. -/
theorem not_data (h : Layout d m L) {x y : Nat} (hx : L x) (hy : L y) : ¬ DataSector d y x := by
  intro hdata
  have heq := h.disjoint x y x hx hy (Or.inl rfl) (Or.inr hdata)
  rw [heq] at hdata hx
  exact h.header y hy hdata

/-- The data of an inode are within its sectors. -/
theorem length_le (h : Layout d m L) {x : Nat} (hx : L x) : (diskInode d x).length.toNat ≤
    bytesToSectors (diskInode d x).length * BLOCK_SECTOR_SIZE :=
  (bytesToSectors_spec (h.length x hx) (length_lt _)).1

theorem size_lt (h : Layout d m L) : d.size < 2 ^ 32 := by
  have hfits := h.fits
  unfold Bitmap.Fits at hfits
  rw [h.bitCnt] at hfits
  omega

theorem fsOnDevice (h : Layout d m L) {x : Nat} (hx : L x) : Fs.OnDevice d (diskInode d x) := by
  refine ⟨h.size_lt, ?_⟩
  have hle := h.length_le hx
  have hon := Nat.mul_le_mul_right BLOCK_SECTOR_SIZE (h.onDevice x hx)
  rw [Nat.add_mul] at hon
  omega

/-- The sector of a byte of an inode's data. -/
theorem dataSector (h : Layout d m L) {x : Nat} (hx : L x) {k : Nat}
    (hk : k < (diskInode d x).length.toNat) :
    DataSector d x (((diskInode d x).start * BLOCK_SECTOR_SIZE + k) / BLOCK_SECTOR_SIZE) := by
  have hle := h.length_le hx
  unfold DataSector
  unfold BLOCK_SECTOR_SIZE at *
  constructor
  · omega
  · omega

/-- A change of the device outside the data of an inode. -/
theorem data_eq (h : Layout d m L) {B : Nat → Prop} (hd : Changed d d' B) {x : Nat} (hx : L x)
    (hB : ∀ b, DataSector d x b → ¬ B b) {k : Nat} (hk : k < (diskInode d x).length.toNat) :
    Fs.data d' (diskInode d x) k = Fs.data d (diskInode d x) k :=
  hd.same _ (hB _ (h.dataSector hx hk))

/-- A change of the device outside the inodes' own sectors. -/
theorem changed (h : Layout d m L) {B : Nat → Prop} (hd : Changed d d' B)
    (hB : ∀ x, L x → ¬ B x) : Layout d' m L := by
  have hinode : ∀ x, L x → diskInode d' x = diskInode d x := fun x hx => hd.diskInode (hB x hx)
  have hdata : ∀ x b, L x → DataSector d' x b → DataSector d x b := fun x b hx hb => by
    unfold DataSector at hb
    rw [hinode x hx] at hb
    exact hb
  have howns : ∀ x b, L x → Owns d' x b → Owns d x b := fun x b hx hb => hb.imp_right (hdata x b hx)
  refine ⟨h.fits, h.bitCnt.trans hd.size.symm, fun x hx => ?_, fun x hx => ?_, fun x hx => ?_,
    fun x hx hb => h.header x hx (hdata x x hx hb), fun x b hx hb => h.used x b hx (howns x b hx hb),
    fun x y b hx hy hbx hby => h.disjoint x y b hx hy (howns x b hx hbx) (howns y b hy hby)⟩
  · rw [hd.size]
    exact h.sector_lt x hx
  · rw [hinode x hx]
    exact h.length x hx
  · rw [hinode x hx, hd.size]
    exact h.onDevice x hx

/-- A change of the free map outside what the inodes own. -/
theorem bits (h : Layout d m L) (hfits : m'.Fits) (hcnt : m'.bitCnt = m.bitCnt)
    (hbit : ∀ x b, L x → Owns d x b → m'.bit b = true) : Layout d m' L :=
  ⟨hfits, hcnt.trans h.bitCnt, h.sector_lt, h.length, h.onDevice, h.header, hbit, h.disjoint⟩

/-- A free map that agrees on the sectors of the device. -/
theorem congr (h : Layout d m L) (hcnt : m'.bitCnt = m.bitCnt)
    (hbit : ∀ k, k < m.bitCnt → m'.bit k = m.bit k) : Layout d m' L := by
  refine h.bits (h.fits.of_bitCnt_eq hcnt) hcnt fun x k hx hk => ?_
  have hlt : k < m.bitCnt := by
    rw [h.bitCnt]
    rcases hk with rfl | hk
    · exact h.sector_lt k hx
    · exact Nat.lt_of_lt_of_le hk.2 (h.onDevice x hx)
  rw [hbit k hlt]
  exact h.used x k hx hk

/-- Forgetting inodes. -/
theorem mono (h : Layout d m L) (hL : ∀ x, L' x → L x) : Layout d m L' :=
  ⟨h.fits, h.bitCnt, fun x hx => h.sector_lt x (hL x hx), fun x hx => h.length x (hL x hx),
    fun x hx => h.onDevice x (hL x hx), fun x hx => h.header x (hL x hx),
    fun x b hx => h.used x b (hL x hx),
    fun x y b hx hy => h.disjoint x y b (hL x hx) (hL y hy)⟩

/-- A new inode, whose sectors no other has. -/
theorem insert (h : Layout d m L) {x : Nat} (hlt : x < d.size)
    (hlength : 0 ≤ (diskInode d x).length)
    (hon : (diskInode d x).start + bytesToSectors (diskInode d x).length ≤ d.size)
    (hheader : ¬ DataSector d x x) (hused : ∀ b, Owns d x b → m.bit b = true)
    (hfree : ∀ y b, L y → Owns d y b → ¬ Owns d x b) : Layout d m fun y => L y ∨ y = x := by
  refine ⟨h.fits, h.bitCnt, ?_, ?_, ?_, ?_, ?_, ?_⟩
  · intro y hy
    rcases hy with hy | rfl
    · exact h.sector_lt y hy
    · exact hlt
  · intro y hy
    rcases hy with hy | rfl
    · exact h.length y hy
    · exact hlength
  · intro y hy
    rcases hy with hy | rfl
    · exact h.onDevice y hy
    · exact hon
  · intro y hy
    rcases hy with hy | rfl
    · exact h.header y hy
    · exact hheader
  · intro y b hy hb
    rcases hy with hy | rfl
    · exact h.used y b hy hb
    · exact hused b hb
  · intro y z b hy hz hby hbz
    rcases hy with hy | rfl <;> rcases hz with hz | rfl
    · exact h.disjoint y z b hy hz hby hbz
    · exact absurd hbz (hfree y b hy hby)
    · exact absurd hby (hfree z b hz hbz)
    · rfl

end Layout

/-! ### The table of open inodes -/

/-- There is room for `k` more references to every inode: its counts are `int`s. -/
def Room (hs : List Nat) (k : Nat) : Prop := ∀ id, hs.count id + k < 2 ^ 31

theorem Room.cons {hs : List Nat} {k : Nat} (h : Room hs (k + 1)) (id : Nat) : Room (id :: hs) k := by
  intro x
  have hx := h x
  rw [List.count_cons]
  split <;> omega

theorem Room.mono {hs : List Nat} {k l : Nat} (h : Room hs k) (hl : l ≤ k) : Room hs l :=
  fun id => Nat.lt_of_le_of_lt (Nat.add_le_add_left hl _) (h id)

theorem Room.perm {hs hs' : List Nat} {k : Nat} (h : Room hs k) (hp : hs.Perm hs') : Room hs' k :=
  fun id => hp.count_eq id ▸ h id

theorem Room.of_length {hs : List Nat} {k : Nat} (h : hs.length + k < 2 ^ 31) : Room hs k :=
  fun _ => Nat.lt_of_le_of_lt (Nat.add_le_add_right List.count_le_length k) h

/-- The open inodes and the references to them: `hs` lists the references and
`ds` those of them that deny writes. An `int` can count the references to an inode,
so that `open_cnt` never wraps around. -/
structure Table (openInodes : List Inode) (nextId : Nat) (hs ds : List Nat) : Prop where
  ids : (openInodes.map Inode.id).Nodup
  sectors : (openInodes.map Inode.sector).Nodup
  id_lt : ∀ i ∈ openInodes, i.id < nextId
  openCnt : ∀ i ∈ openInodes, i.openCnt = hs.count i.id ∧ 0 < hs.count i.id
  denyWriteCnt : ∀ i ∈ openInodes, i.denyWriteCnt = ds.count i.id
  live : ∀ id ∈ hs, ∃ i ∈ openInodes, i.id = id
  deny_le : ∀ id, ds.count id ≤ hs.count id
  room : Room hs 0

/-- The invariant of the file system: `L` are the sectors of the inodes that
exist, `hs` the references to open ones. -/
structure Core (s : Fs) (L : Nat → Prop) (hs ds : List Nat) : Prop where
  layout : Layout s.device s.freeMap L
  table : Table s.openInodes s.nextId hs ds
  backed : ∀ i ∈ s.openInodes, L i.sector ∧ i.data = diskInode s.device i.sector
  mapFile : ∃ f, s.freeMapFile = some f ∧ f.inode ∈ hs ∧
    ∀ i ∈ s.openInodes, i.id = f.inode → i.sector = FREE_MAP_SECTOR

theorem eq_of_nodup_map {α β : Type} {f : α → β} {l : List α} (h : (l.map f).Nodup) {a b : α}
    (ha : a ∈ l) (hb : b ∈ l) (heq : f a = f b) : a = b :=
  List.inj_on_of_nodup_map h ha hb heq

theorem Table.find {l : List Inode} {n : Nat} {hs ds : List Nat} (h : Table l n hs ds) {i : Inode}
    (hi : i ∈ l) : l.find? (fun j => j.id = i.id) = some i := by
  cases hf : l.find? (fun j => j.id = i.id) with
  | none =>
      have hne := List.find?_eq_none.mp hf i hi
      simp at hne
  | some j =>
      have hj := List.mem_of_find?_eq_some hf
      have hid : j.id = i.id := by
        have := List.find?_some hf
        simpa using this
      rw [eq_of_nodup_map h.ids hj hi hid]

/-- An open inode is found at its address. -/
theorem Table.inode {s : Fs} {hs ds : List Nat} (h : Table s.openInodes s.nextId hs ds) {i : Inode}
    (hi : i ∈ s.openInodes) : s.inode i.id = .ok i := by
  unfold Fs.inode
  rw [h.find hi]

end OsTools.Filesys
